import DistributedFileSystem.Library.FirstOccurrences
import DistributedFileSystem.Master.StorageUnit

/-!
What the master answers about a file: the chunks that the connected nodes list
for it, in order, and the addresses of the nodes that list a chunk.
-/

namespace DistributedFileSystem.Master

open ByteString FirstOccurrences TcpStorage

/-- The chunk is in the first mapping that a connected node has reported for the file. -/
def TcpStorage.Lists (storage : TcpStorage) (fileName : Bytes) (id : Int32) : Prop :=
  ∃ connection ∈ storage.connections, ∃ mapping,
    connection.filesToChunks.find? (fun mapping => mapping.filename = fileName) = some mapping ∧
      id ∈ mapping.chunkIds

section PushNew

variable {ids res : List Int32} {id : Int32}

theorem mem_pushNew {new : Int32} : id ∈ pushNew res new ↔ id ∈ res ∨ id = new := by
  unfold pushNew
  split
  · rename_i old
    rw [List.contains_iff_mem] at old
    constructor
    · exact Or.inl
    · rintro (member | rfl)
      · exact member
      · exact old
  · rw [List.mem_append, List.mem_singleton]

theorem pushNew_nodup {new : Int32} (distinct : res.Nodup) : (pushNew res new).Nodup := by
  unfold pushNew
  split
  · exact distinct
  · rename_i absent
    rw [List.contains_iff_mem] at absent
    exact distinct.append (List.nodup_singleton new) (List.disjoint_singleton.mpr absent)

theorem mem_foldl_pushNew : id ∈ ids.foldl pushNew res ↔ id ∈ res ∨ id ∈ ids := by
  induction ids generalizing res with
  | nil => simp
  | cons new ids ih =>
      rw [List.foldl_cons, ih, mem_pushNew, List.mem_cons, or_assoc]

theorem foldl_pushNew_nodup (distinct : res.Nodup) : (ids.foldl pushNew res).Nodup := by
  induction ids generalizing res with
  | nil => exact distinct
  | cons new ids ih => exact ih (pushNew_nodup distinct)

end PushNew

def collectChunks (fileName : Bytes) (connections : List ConnectionData) (res : List Int32) :
    List Int32 :=
  connections.foldl (fun res connection =>
    match connection.filesToChunks.find? fun mapping => mapping.filename = fileName with
    | some mapping => mapping.chunkIds.foldl pushNew res
    | none => res) res

theorem mem_collectChunks {fileName : Bytes} {connections : List ConnectionData}
    {res : List Int32} {id : Int32} :
    id ∈ collectChunks fileName connections res ↔
      id ∈ res ∨ ∃ connection ∈ connections, ∃ mapping,
        connection.filesToChunks.find? (fun mapping => mapping.filename = fileName) =
          some mapping ∧ id ∈ mapping.chunkIds := by
  induction connections generalizing res with
  | nil => simp [collectChunks]
  | cons connection connections ih =>
      rw [collectChunks, List.foldl_cons, ← collectChunks, ih, List.exists_mem_cons_iff,
        ← or_assoc]
      apply or_congr_left
      cases connection.filesToChunks.find? fun mapping => mapping.filename = fileName with
      | none => simp
      | some mapping => simp [mem_foldl_pushNew]

theorem collectChunks_nodup {fileName : Bytes} {connections : List ConnectionData}
    {res : List Int32} (distinct : res.Nodup) :
    (collectChunks fileName connections res).Nodup := by
  induction connections generalizing res with
  | nil => exact distinct
  | cons connection connections ih =>
      rw [collectChunks, List.foldl_cons]
      apply ih
      split
      · exact foldl_pushNew_nodup distinct
      · exact distinct

theorem getChunksForFile_eq (storage : TcpStorage) (fileName : Bytes) :
    storage.getChunksForFile fileName =
      (collectChunks fileName storage.connections []).mergeSort fun left right => left ≤ right := rfl

theorem mem_getChunksForFile {storage : TcpStorage} {fileName : Bytes} {id : Int32} :
    id ∈ storage.getChunksForFile fileName ↔ storage.Lists fileName id := by
  rw [getChunksForFile_eq, List.mem_mergeSort, mem_collectChunks, TcpStorage.Lists]
  simp

theorem mergeSort_increasing {ids : List Int32} (distinct : ids.Nodup) :
    (ids.mergeSort fun left right => left ≤ right).Pairwise (· < ·) := by
  have sorted : (ids.mergeSort fun left right => left ≤ right).Pairwise (· ≤ ·) := by
    have pairs := @List.pairwise_mergeSort _ (fun left right : Int32 => decide (left ≤ right))
      (by simpa using fun _ _ _ => Int32.le_trans) (by simpa using Int32.le_total) ids
    exact pairs.imp of_decide_eq_true
  have nodup := (List.mergeSort_perm ids fun left right => left ≤ right).nodup_iff.mpr distinct
  exact sorted.imp₂ (fun _ _ below different => Int32.lt_of_le_of_ne below different) nodup

theorem getChunksForFile_increasing (storage : TcpStorage) (fileName : Bytes) :
    (storage.getChunksForFile fileName).Pairwise (· < ·) :=
  mergeSort_increasing (collectChunks_nodup List.nodup_nil)

theorem increasing_unique {left right : List Int32} (leftIncreasing : left.Pairwise (· < ·))
    (rightIncreasing : right.Pairwise (· < ·)) (same : ∀ id, id ∈ left ↔ id ∈ right) :
    left = right := by
  have distinct : ∀ ids : List Int32, ids.Pairwise (· < ·) → ids.Nodup := by
    intro ids increasing
    exact increasing.imp Int32.ne_of_lt
  apply List.Perm.eq_of_pairwise _ leftIncreasing rightIncreasing
    ((List.perm_ext_iff_of_nodup (distinct left leftIncreasing) (distinct right rightIncreasing)).mpr
      same)
  intro first second _ _ below above
  exact absurd (Int32.lt_trans below above) Int32.lt_irrefl

theorem getMultipleChunks_eq (storage : TcpStorage) (fileName : Bytes) (chunkIds : List Int32) :
    storage.getMultipleChunks fileName chunkIds =
      chunkIds.map fun id => storage.getLocation fileName id := by
  have grows : ∀ (ids : List Int32) (res : List (List IpAddr)),
      ids.foldl (fun res id => res ++ [storage.getLocation fileName id]) res =
        res ++ ids.map fun id => storage.getLocation fileName id := by
    intro ids
    induction ids with
    | nil => simp
    | cons id ids ih => simp [ih]
  rw [getMultipleChunks, grows, List.nil_append]

def holder (fileName : Bytes) (chunkId : Int32) (connection : ConnectionData) : Option IpAddr :=
  if connection.filesToChunks.any fun mapping =>
    mapping.filename = fileName && mapping.chunkIds.contains chunkId
  then some connection.ip else none

theorem holder_eq_some {fileName : Bytes} {chunkId : Int32} {connection : ConnectionData}
    {ip : IpAddr} : holder fileName chunkId connection = some ip ↔
      connection.ip = ip ∧ ∃ mapping ∈ connection.filesToChunks,
        mapping.filename = fileName ∧ chunkId ∈ mapping.chunkIds := by
  simp [holder, and_comm]

theorem any_pushes {res : List IpAddr} {fileName : Bytes} {chunkId : Int32}
    {connection : ConnectionData} :
    connection.filesToChunks.any (pushes res connection.ip fileName chunkId) = true ↔
      holder fileName chunkId connection = some connection.ip ∧ connection.ip ∉ res := by
  simp only [holder_eq_some, true_and, List.any_eq_true, pushes, Bool.and_eq_true,
    decide_eq_true_eq, List.contains_iff_mem, Bool.not_eq_true']
  constructor
  · rintro ⟨mapping, member, named, holds, new⟩
    exact ⟨⟨mapping, member, named, holds⟩, by simpa using new⟩
  · rintro ⟨⟨mapping, member, named, holds⟩, new⟩
    exact ⟨mapping, member, named, holds, by simpa using new⟩

theorem getLocation_eq_firsts (storage : TcpStorage) (fileName : Bytes) (chunkId : Int32) :
    storage.getLocation fileName chunkId =
      firsts (holder fileName chunkId) storage.connections := by
  rw [TcpStorage.getLocation, firsts]
  congr
  funext res conn
  rw [push]
  split
  · rename_i pushed
    obtain ⟨held, new⟩ := any_pushes.mp pushed
    simp only [held, new, if_false]
  · rename_i idle
    rw [any_pushes] at idle
    cases held : holder fileName chunkId conn with
    | none => rfl
    | some ip =>
        obtain ⟨rfl, _⟩ := holder_eq_some.mp held
        simp only [held, true_and, not_not] at idle
        simp only [idle, if_true]

theorem mem_getLocation {storage : TcpStorage} {fileName : Bytes} {id : Int32} {ip : IpAddr} :
    ip ∈ storage.getLocation fileName id ↔ ∃ connection ∈ storage.connections,
      connection.ip = ip ∧ ∃ mapping ∈ connection.filesToChunks,
        mapping.filename = fileName ∧ id ∈ mapping.chunkIds := by
  rw [getLocation_eq_firsts, mem_firsts]
  simp only [holder_eq_some]

theorem getLocation_ne_nil {storage : TcpStorage} {fileName : Bytes} {id : Int32}
    (listed : storage.Lists fileName id) : storage.getLocation fileName id ≠ [] := by
  obtain ⟨connection, member, mapping, found, holds⟩ := listed
  apply List.ne_nil_of_mem
  rw [mem_getLocation]
  refine ⟨connection, member, rfl, mapping, List.mem_of_find?_eq_some found, ?_, holds⟩
  simpa using List.find?_some found

theorem getFileList_eq_firsts (storage : TcpStorage) :
    storage.getFileList = firsts (fun fileMappings : FileMappings => some fileMappings.filename)
      (storage.connections.flatMap ConnectionData.filesToChunks) := by
  rw [firsts, List.foldl_flatMap, TcpStorage.getFileList]
  congr
  funext res connData
  congr
  funext res fileMappings
  by_cases old : fileMappings.filename ∈ res
  · simp [push, old]
  · simp [push, old]

theorem mem_getFileList {storage : TcpStorage} {name : Bytes} :
    name ∈ storage.getFileList ↔ ∃ connection ∈ storage.connections,
      ∃ mapping ∈ connection.filesToChunks, mapping.filename = name := by
  rw [getFileList_eq_firsts, mem_firsts]
  simp only [List.mem_flatMap, Option.some.injEq]
  constructor
  · rintro ⟨mapping, ⟨connection, member, within⟩, named⟩
    exact ⟨connection, member, mapping, within, named⟩
  · rintro ⟨connection, member, mapping, within, named⟩
    exact ⟨mapping, ⟨connection, member, within⟩, named⟩

theorem getFileList_nodup (storage : TcpStorage) : storage.getFileList.Nodup := by
  rw [getFileList_eq_firsts]
  exact firsts_nodup _ _

end DistributedFileSystem.Master
