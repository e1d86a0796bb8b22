import DistributedFileSystem.Client.InsertFile
import DistributedFileSystem.Master.FileLookup

/-!
The download of the client (`client/readFile.ts`,
`master/multipleChunkLocation.ts`): the chunks that the master lists, in their
order, each from one of the nodes that list it.
-/

namespace DistributedFileSystem.Client

open ByteString Master

/-- What the run meets outside of the master: whether the calls on the output file
come through and the requests are resolved, the random numbers, and what the storage
nodes answer. -/
structure ReadEnvironment where
  prepared : Bool
  chunksResolved : Bool
  locationsResolved : Bool
  random : Nat → Nat
  fetch : IpAddr → Bytes → Int32 → Option Bytes
  appended : Nat → Bool

def getMultipleChunkLocations (environment : ReadEnvironment) (storage : TcpStorage)
    (filename : Bytes) (chunkIds : List Int32) : Option (List (List IpAddr)) :=
  if environment.locationsResolved then some (storage.getMultipleChunks filename chunkIds)
  else none

def appendChunks (environment : ReadEnvironment) (filepath : Bytes) :
    Nat → List Int32 → List (List IpAddr) → Bytes → Bool × Bytes
  | i, chunk :: chunkIds, replicas :: locations, output =>
      match replicas[environment.random i % replicas.length]? with
      | none => (false, output)
      | some nodeHost =>
          match environment.fetch nodeHost filepath chunk with
          | none => (false, output)
          | some buf =>
              if environment.appended i then
                appendChunks environment filepath (i + 1) chunkIds locations (output ++ buf)
              else (false, output)
  | _, _, _, output => (true, output)

/-- The result, and the output file; the two registries are the ones that the requests
for the chunks and for their locations find. -/
def readFile (chunksAt locationsAt : TcpStorage) (filepath : Bytes)
    (environment : ReadEnvironment) : Bool × Bytes :=
  if !environment.prepared then (false, [])
  else if !environment.chunksResolved then (false, [])
  else
    let chunkIds := chunksAt.getChunksForFile filepath
    match getMultipleChunkLocations environment locationsAt filepath chunkIds with
    | none => (false, [])
    | some locations =>
        if locations.length = 0 then (false, [])
        else if locations.any fun loc => loc.length = 0 then (false, [])
        else appendChunks environment filepath 0 chunkIds locations []

section Chunks

variable {content : Bytes}

theorem chunkOf_eq (content : Bytes) (chunkId : Nat) :
    chunkOf content chunkId = (content.drop (chunkId * CHUNK_SIZE)).take CHUNK_SIZE := by
  rw [chunkOf, List.take_eq_take_iff, List.length_drop]
  omega

theorem flatMap_chunkOf (content : Bytes) (count : Nat) :
    (List.range count).flatMap (chunkOf content) = content.take (count * CHUNK_SIZE) := by
  induction count with
  | zero => simp
  | succ count ih =>
      rw [List.range_succ, List.flatMap_append, ih, List.flatMap_singleton, chunkOf_eq,
        Nat.succ_mul, List.take_add]

theorem flatMap_chunkOf_all (content : Bytes) :
    (List.range (totalChunks content)).flatMap (chunkOf content) = content := by
  rw [flatMap_chunkOf]
  apply List.take_of_length_le
  simp only [totalChunks, CHUNK_SIZE]
  omega

theorem chunkOf_ne_nil {chunkId : Nat} (bound : chunkId < totalChunks content) :
    chunkOf content chunkId ≠ [] := by
  rw [chunkOf_eq, ← List.length_pos_iff, List.length_take, List.length_drop]
  simp only [totalChunks, CHUNK_SIZE] at bound ⊢
  omega

theorem eq_of_flatMap_length {listed all : List Nat} (part : listed.Sublist all)
    (bound : ∀ chunkId ∈ all, chunkId < totalChunks content)
    (whole : (all.flatMap (chunkOf content)).length ≤ (listed.flatMap (chunkOf content)).length) :
    listed = all := by
  induction part with
  | slnil => rfl
  | @cons listed rest chunkId part ih =>
      rw [List.forall_mem_cons] at bound
      have shorter := (part.flatMap (chunkOf content)).length_le
      have positive := List.length_pos_iff.mpr (chunkOf_ne_nil bound.1)
      rw [List.flatMap_cons, List.length_append] at whole
      omega
  | @cons_cons listed rest chunkId part ih =>
      rw [List.forall_mem_cons] at bound
      simp only [List.flatMap_cons, List.length_append] at whole
      rw [ih bound.2 (by omega)]

end Chunks

def ReadEnvironment.Serves (environment : ReadEnvironment) (filepath content : Bytes) : Prop :=
  ∀ host chunk buf, environment.fetch host filepath chunk = some buf →
    buf = chunkOf content chunk.toInt.toNat

def listedIds (storage : TcpStorage) (filepath : Bytes) : List Nat :=
  (storage.getChunksForFile filepath).map fun chunk => chunk.toInt.toNat

section Read

variable {filepath content : Bytes} {environment : ReadEnvironment}

theorem appendChunks_output (serves : environment.Serves filepath content) {i : Nat}
    {chunkIds : List Int32} {locations : List (List IpAddr)} {start output : Bytes}
    (lengths : locations.length = chunkIds.length)
    (returned : appendChunks environment filepath i chunkIds locations start = (true, output)) :
    output = start ++ chunkIds.flatMap fun chunk => chunkOf content chunk.toInt.toNat := by
  induction chunkIds generalizing i locations start with
  | nil =>
      rw [appendChunks] at returned
      · rw [← (Prod.mk.inj returned).2]
        simp
      · simp
  | cons chunk chunkIds ih =>
      cases locations with
      | nil => simp at lengths
      | cons replicas locations =>
          rw [appendChunks] at returned
          split at returned
          · simp at returned
          · rename_i nodeHost _
            split at returned
            · simp at returned
            · rename_i buf fetched
              split at returned
              · rw [ih (by simpa using lengths) returned, serves nodeHost chunk buf fetched]
                simp
              · simp at returned

theorem getMultipleChunkLocations_length {storage : TcpStorage} {chunkIds : List Int32}
    {locations : List (List IpAddr)}
    (answered : getMultipleChunkLocations environment storage filepath chunkIds = some locations) :
    locations.length = chunkIds.length := by
  unfold getMultipleChunkLocations at answered
  split at answered
  · rw [← Option.some.inj answered, getMultipleChunks_eq, List.length_map]
  · contradiction

theorem readFile_output {chunksAt locationsAt : TcpStorage} {output : Bytes}
    (serves : environment.Serves filepath content)
    (returned : readFile chunksAt locationsAt filepath environment = (true, output)) :
    output = (listedIds chunksAt filepath).flatMap (chunkOf content) ∧
      listedIds chunksAt filepath ≠ [] := by
  unfold readFile at returned
  split at returned
  · simp at returned
  split at returned
  · simp at returned
  simp only at returned
  split at returned
  · simp at returned
  · rename_i locations answered
    have lengths := getMultipleChunkLocations_length answered
    split at returned
    · simp at returned
    · rename_i somewhere
      split at returned
      · simp at returned
      · have all := appendChunks_output serves lengths returned
        rw [List.nil_append] at all
        constructor
        · rw [all, listedIds, List.flatMap_map]
        · rw [listedIds, ne_eq, List.map_eq_nil_iff, ← List.length_eq_zero_iff, ← lengths]
          exact somewhere

structure ReadEnvironment.Clear (environment : ReadEnvironment) : Prop where
  prepared : environment.prepared = true
  chunksResolved : environment.chunksResolved = true
  locationsResolved : environment.locationsResolved = true
  appended : ∀ i, environment.appended i = true

def Fetches (environment : ReadEnvironment) (filepath : Bytes) (serves : Int32 → Bytes → Prop)
    (chunk : Int32) (replicas : List IpAddr) : Prop :=
  replicas ≠ [] ∧ ∀ nodeHost ∈ replicas, ∃ buf,
    environment.fetch nodeHost filepath chunk = some buf ∧ serves chunk buf

theorem appendChunks_fetches {serves : Int32 → Bytes → Prop} (clear : environment.Clear) {i : Nat}
    {chunkIds : List Int32} {locations : List (List IpAddr)} (start : Bytes)
    (fetches : List.Forall₂ (Fetches environment filepath serves) chunkIds locations) :
    ∃ bufs, appendChunks environment filepath i chunkIds locations start =
        (true, start ++ bufs.flatten) ∧ List.Forall₂ serves chunkIds bufs := by
  induction fetches generalizing i start with
  | nil => exact ⟨[], by simp [appendChunks], List.Forall₂.nil⟩
  | @cons chunk replicas chunkIds locations own _ ih =>
      have bound : environment.random i % replicas.length < replicas.length :=
        Nat.mod_lt _ (List.length_pos_iff.mpr own.1)
      obtain ⟨buf, fetched, serves⟩ := own.2 _ (List.getElem_mem bound)
      obtain ⟨bufs, appended, all⟩ := @ih (i + 1) (start ++ buf)
      refine ⟨buf :: bufs, ?_, List.Forall₂.cons serves all⟩
      simp only [appendChunks, List.getElem?_eq_getElem bound, fetched, clear.appended, if_true,
        appended, List.flatten_cons, List.append_assoc]

theorem readFile_fetches {storage : TcpStorage} {serves : Int32 → Bytes → Prop}
    (clear : environment.Clear) (listed : storage.getChunksForFile filepath ≠ [])
    (fetches : ∀ chunk ∈ storage.getChunksForFile filepath,
      Fetches environment filepath serves chunk (storage.getLocation filepath chunk)) :
    ∃ bufs, readFile storage storage filepath environment = (true, bufs.flatten) ∧
      List.Forall₂ serves (storage.getChunksForFile filepath) bufs := by
  have answered : getMultipleChunkLocations environment storage filepath
      (storage.getChunksForFile filepath) =
        some ((storage.getChunksForFile filepath).map fun id => storage.getLocation filepath id) := by
    rw [getMultipleChunkLocations, getMultipleChunks_eq, if_pos clear.locationsResolved]
  have located : ∀ loc ∈ (storage.getChunksForFile filepath).map
      fun id => storage.getLocation filepath id, loc ≠ [] := by
    intro loc member
    obtain ⟨id, chunk, rfl⟩ := List.mem_map.mp member
    exact (fetches id chunk).1
  obtain ⟨bufs, appended, all⟩ := @appendChunks_fetches _ _ _ clear 0
    (storage.getChunksForFile filepath) _ [] (List.forall₂_map_right_iff.mpr
      (List.forall₂_same.mpr fetches))
  refine ⟨bufs, ?_, all⟩
  rw [readFile]
  simp only [answered]
  rw [if_neg (by simp [clear.prepared]), if_neg (by simp [clear.chunksResolved]),
    if_neg (by simpa using listed), if_neg (by simpa using located), appended, List.nil_append]

theorem readFile_unlisted {storage : TcpStorage} (clear : environment.Clear)
    (unlisted : storage.getChunksForFile filepath = []) :
    readFile storage storage filepath environment = (false, []) := by
  rw [readFile, unlisted]
  simp [clear.prepared, clear.chunksResolved, clear.locationsResolved, getMultipleChunkLocations,
    getMultipleChunks_eq]

def allServed (content : Bytes) : ReadEnvironment where
  prepared := true
  chunksResolved := true
  locationsResolved := true
  random := fun _ => 0
  fetch := fun _ _ chunk => some (chunkOf content chunk.toInt.toNat)
  appended := fun _ => true

theorem allServed_serves (filepath content : Bytes) :
    (allServed content).Serves filepath content :=
  fun _ _ _ fetched => (Option.some.inj fetched).symm

theorem allServed_clear (content : Bytes) : (allServed content).Clear :=
  ⟨rfl, rfl, rfl, fun _ => rfl⟩

theorem readFile_allServed {storage : TcpStorage} (listed : listedIds storage filepath ≠ []) :
    readFile storage storage filepath (allServed content) =
      (true, (listedIds storage filepath).flatMap (chunkOf content)) := by
  rw [listedIds, ne_eq, List.map_eq_nil_iff] at listed
  obtain ⟨bufs, read, all⟩ := @readFile_fetches filepath _ storage
    (fun chunk buf => buf = chunkOf content chunk.toInt.toNat) (allServed_clear content) listed (by
      intro chunk member
      refine ⟨getLocation_ne_nil (mem_getChunksForFile.mp member), ?_⟩
      intro nodeHost _
      exact ⟨_, rfl, rfl⟩)
  have same : bufs = (storage.getChunksForFile filepath).map
      fun chunk => chunkOf content chunk.toInt.toNat := by
    rw [← List.forall₂_eq_eq_eq, List.forall₂_map_right_iff]
    exact all.flip
  rw [read, same, listedIds, List.flatMap_map, List.flatMap]

end Read

section Complete

variable {storage : TcpStorage} {filepath content : Bytes}

def Stored (storage : TcpStorage) (filepath content : Bytes) : Prop :=
  ∀ id, storage.Lists filepath id → 0 ≤ id.toInt ∧ id.toInt < totalChunks content

theorem mem_listedIds (fits : totalChunks content ≤ 2 ^ 31)
    (stored : Stored storage filepath content) {chunkId : Nat}
    (bound : chunkId < totalChunks content) :
    chunkId ∈ listedIds storage filepath ↔ storage.Lists filepath (Int32.ofNat chunkId) := by
  have value : (Int32.ofNat chunkId).toInt = chunkId := Int32.toInt_ofNat_of_lt (by omega)
  rw [listedIds, List.mem_map]
  constructor
  · rintro ⟨id, member, same⟩
    rw [mem_getChunksForFile] at member
    obtain ⟨lower, _⟩ := stored id member
    have equal : id = Int32.ofNat chunkId := by
      rw [← Int32.toInt_inj, value]
      omega
    rwa [← equal]
  · intro listed
    refine ⟨Int32.ofNat chunkId, mem_getChunksForFile.mpr listed, ?_⟩
    rw [value, Int.toNat_natCast]

theorem listedIds_sublist (stored : Stored storage filepath content) :
    (listedIds storage filepath).Sublist (List.range (totalChunks content)) := by
  have increasing : (listedIds storage filepath).Pairwise (· < ·) := by
    rw [listedIds, List.pairwise_map]
    apply (getChunksForFile_increasing storage filepath).imp_of_mem
    intro left right leftIn rightIn below
    obtain ⟨lower, _⟩ := stored left (mem_getChunksForFile.mp leftIn)
    rw [Int32.lt_iff_toInt_lt] at below
    omega
  have subset : listedIds storage filepath ⊆ List.range (totalChunks content) := by
    intro chunkId member
    obtain ⟨id, listed, rfl⟩ := List.mem_map.mp member
    obtain ⟨lower, upper⟩ := stored id (mem_getChunksForFile.mp listed)
    rw [List.mem_range]
    omega
  exact List.sublist_of_subperm_of_pairwise
    (List.subperm_of_subset (increasing.imp Nat.ne_of_lt) subset) increasing
    List.pairwise_lt_range

theorem listedIds_eq_nil_iff :
    listedIds storage filepath = [] ↔ ∀ id, ¬storage.Lists filepath id := by
  rw [listedIds, List.map_eq_nil_iff, List.eq_nil_iff_forall_not_mem]
  simp only [mem_getChunksForFile]

theorem listedIds_eq_range_iff (fits : totalChunks content ≤ 2 ^ 31)
    (stored : Stored storage filepath content) :
    listedIds storage filepath = List.range (totalChunks content) ↔
      ∀ chunkId < totalChunks content, storage.Lists filepath (Int32.ofNat chunkId) := by
  constructor
  · intro all chunkId bound
    rw [← mem_listedIds fits stored bound, all, List.mem_range]
    exact bound
  · intro all
    apply (listedIds_sublist stored).eq_of_length_le
    apply List.nodup_range.length_le_of_subset
    intro chunkId member
    rw [List.mem_range] at member
    exact (mem_listedIds fits stored member).mpr (all chunkId member)

/-- Whatever happens outside of the master, if the storage nodes serve what was stored:
the output of a reported read is the file, exactly when the connected nodes list no chunk
of the file or all of them. -/
theorem complete_read_iff (storage : TcpStorage) (filepath content : Bytes)
    (fits : totalChunks content ≤ 2 ^ 31) (stored : Stored storage filepath content) :
    (∀ environment output, environment.Serves filepath content →
      readFile storage storage filepath environment = (true, output) → output = content) ↔
    (∀ id, ¬storage.Lists filepath id) ∨
      ∀ chunkId < totalChunks content, storage.Lists filepath (Int32.ofNat chunkId) := by
  rw [← listedIds_eq_nil_iff, ← listedIds_eq_range_iff fits stored]
  constructor
  · intro complete
    by_cases listed : listedIds storage filepath = []
    · exact Or.inl listed
    · have same := complete (allServed content) _ (allServed_serves filepath content)
        (readFile_allServed listed)
      refine Or.inr (eq_of_flatMap_length (listedIds_sublist stored)
        (fun chunkId => List.mem_range.mp) ?_)
      rw [same, flatMap_chunkOf_all]
  · rintro condition environment output serves returned
    obtain ⟨joined, listed⟩ := readFile_output serves returned
    rw [joined, condition.resolve_left listed, flatMap_chunkOf_all]

end Complete

def secondNodeGone : TcpStorage :=
  (((((TcpStorage.new 1).insert "a" (.v4 1)).insert "b" (.v4 2)).updateState "a"
    [⟨[102], [0]⟩]).updateState "b" [⟨[102], [1]⟩]).remove "b"

def twoChunks : Bytes := List.replicate (CHUNK_SIZE + 1) 0

theorem secondNodeGone_lists (id : Int32) : secondNodeGone.Lists [102] id ↔ id = 0 := by
  simp [TcpStorage.Lists, secondNodeGone, TcpStorage.new, TcpStorage.insert, TcpStorage.remove,
    TcpStorage.updateState, changeFirst, ConnectionData.updateState]

theorem totalChunks_twoChunks : totalChunks twoChunks = 2 := by
  rw [totalChunks, twoChunks, List.length_replicate]
  rfl

theorem secondNodeGone_stored : Stored secondNodeGone [102] twoChunks := by
  intro id listed
  rw [secondNodeGone_lists] at listed
  subst listed
  rw [totalChunks_twoChunks]
  decide

theorem complete_read_iff_secondNodeGone :
    (∀ environment output, environment.Serves [102] twoChunks →
      readFile secondNodeGone secondNodeGone [102] environment = (true, output) →
        output = twoChunks) ↔
    (∀ id, ¬secondNodeGone.Lists [102] id) ∨
      ∀ chunkId < totalChunks twoChunks, secondNodeGone.Lists [102] (Int32.ofNat chunkId) :=
  complete_read_iff secondNodeGone [102] twoChunks (by rw [totalChunks_twoChunks]; decide)
    secondNodeGone_stored

theorem secondNodeGone_incomplete : ¬∀ (storage : TcpStorage) (filepath content : Bytes),
    content ≠ [] → totalChunks content ≤ 2 ^ 31 → Stored storage filepath content →
    ∀ environment output, environment.Serves filepath content →
      readFile storage storage filepath environment = (true, output) → output = content := by
  intro always
  have listed : listedIds secondNodeGone [102] = [0] := by
    rw [listedIds, getChunksForFile_eq]
    have collected : collectChunks [102] secondNodeGone.connections [] = [0] := by decide
    rw [collected, List.mergeSort_singleton]
    rfl
  have same := always secondNodeGone [102] twoChunks (by simp [twoChunks])
    (by rw [totalChunks_twoChunks]; decide) secondNodeGone_stored (allServed twoChunks) _
    (allServed_serves [102] twoChunks) (readFile_allServed (by simp [listed]))
  have lengths := congrArg List.length same
  rw [listed, List.flatMap_singleton, chunkOf_eq, List.length_take, List.length_drop, twoChunks,
    List.length_replicate] at lengths
  omega

end DistributedFileSystem.Client
