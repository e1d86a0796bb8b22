import DistributedFileSystem.Client.Reassembly
import DistributedFileSystem.System.Cluster

/-! Reading a file back that was uploaded to empty nodes. -/

namespace DistributedFileSystem.System

open ByteString Posix Transition Master StorageLayer Client

/-- The chunks of a file in the order of their ids, which from `2 ^ 31` on are negative. -/
def inIdOrder (total : Nat) : List Nat :=
  List.range' (2 ^ 31) (total - 2 ^ 31) ++ List.range (min total (2 ^ 31))

section Order

theorem mem_inIdOrder {total chunkId : Nat} : chunkId ∈ inIdOrder total ↔ chunkId < total := by
  rw [inIdOrder, List.mem_append, List.mem_range'_1, List.mem_range]
  omega

theorem toInt_ofNat {chunkId : Nat} (bound : chunkId < 2 ^ 32) :
    (Int32.ofNat chunkId).toInt =
      if chunkId < 2 ^ 31 then (chunkId : Int) else (chunkId : Int) - 2 ^ 32 := by
  rw [Int32.toInt_ofNat', Int.bmod_def]
  simp only [Int32.size]
  split
  · split
    · omega
    · omega
  · split
    · omega
    · omega

def chunkIndex (id : Int32) : Nat := (id.toInt % 2 ^ 32).toNat

theorem chunkIndex_ofNat {chunkId : Nat} (bound : chunkId < 2 ^ 32) :
    chunkIndex (Int32.ofNat chunkId) = chunkId := by
  rw [chunkIndex, toInt_ofNat bound]
  split
  · omega
  · omega

theorem increasing_length_le {ids : List Int32} (increasing : ids.Pairwise (· < ·)) :
    ids.length ≤ 2 ^ 32 := by
  have distinct : (ids.map chunkIndex).Nodup := by
    rw [List.Nodup, List.pairwise_map]
    apply increasing.imp
    intro left right below
    rw [Int32.lt_iff_toInt_lt] at below
    have leftRange := left.le_toInt
    have rightRange := right.toInt_lt
    simp only [chunkIndex]
    omega
  have inside : ids.map chunkIndex ⊆ List.range (2 ^ 32) := by
    intro index member
    obtain ⟨id, _, rfl⟩ := List.mem_map.mp member
    rw [List.mem_range, chunkIndex]
    omega
  have lengths := distinct.length_le_of_subset inside
  rwa [List.length_map, List.length_range] at lengths

theorem flatten_length_le {ids : List Int32} {bufs : List Bytes} {size : Nat}
    (sized : List.Forall₂ (fun _ buf => buf.length ≤ size) ids bufs) :
    bufs.flatten.length ≤ ids.length * size := by
  induction sized with
  | nil => simp
  | cons own _ ih =>
      rw [List.flatten_cons, List.length_append, List.length_cons, Nat.succ_mul]
      omega

theorem inIdOrder_increasing {total : Nat} (bound : total ≤ 2 ^ 32) :
    ((inIdOrder total).map Int32.ofNat).Pairwise (· < ·) := by
  rw [List.pairwise_map, inIdOrder, List.pairwise_append]
  refine ⟨?_, ?_, ?_⟩
  · apply (List.pairwise_lt_range').imp_of_mem
    intro left right leftIn rightIn below
    rw [List.mem_range'_1] at leftIn rightIn
    rw [Int32.lt_iff_toInt_lt, toInt_ofNat (by omega), toInt_ofNat (by omega), if_neg (by omega),
      if_neg (by omega)]
    omega
  · apply List.pairwise_lt_range.imp_of_mem
    intro left right leftIn rightIn below
    rw [List.mem_range] at leftIn rightIn
    rw [Int32.lt_iff_toInt_lt, toInt_ofNat (by omega), toInt_ofNat (by omega), if_pos (by omega),
      if_pos (by omega)]
    omega
  · intro left leftIn right rightIn
    rw [List.mem_range'_1] at leftIn
    rw [List.mem_range] at rightIn
    rw [Int32.lt_iff_toInt_lt, toInt_ofNat (by omega), toInt_ofNat (by omega), if_neg (by omega),
      if_pos (by omega)]
    omega

theorem flatMap_chunkOf_from (content : Bytes) (start count : Nat) :
    (List.range' start count).flatMap (chunkOf content) =
      (content.drop (start * CHUNK_SIZE)).take (count * CHUNK_SIZE) := by
  induction count with
  | zero => simp
  | succ count ih =>
      have shifted : (start + 1 * count) * CHUNK_SIZE = start * CHUNK_SIZE + count * CHUNK_SIZE := by
        rw [Nat.one_mul, Nat.add_mul]
      rw [List.range'_concat, List.flatMap_append, ih, List.flatMap_singleton, chunkOf_eq, shifted,
        Nat.succ_mul, List.take_add, List.drop_drop]

theorem flatMap_inIdOrder (content : Bytes) :
    (inIdOrder (totalChunks content)).flatMap (chunkOf content) =
      content.drop (2 ^ 31 * CHUNK_SIZE) ++ content.take (2 ^ 31 * CHUNK_SIZE) := by
  have enough : content.length ≤ totalChunks content * CHUNK_SIZE := by
    simp only [totalChunks, CHUNK_SIZE]
    omega
  have back : (content.drop (2 ^ 31 * CHUNK_SIZE)).take
      ((totalChunks content - 2 ^ 31) * CHUNK_SIZE) = content.drop (2 ^ 31 * CHUNK_SIZE) := by
    apply List.take_of_length_le
    rw [List.length_drop, Nat.sub_mul]
    omega
  have front : content.take (min (totalChunks content) (2 ^ 31) * CHUNK_SIZE) =
      content.take (2 ^ 31 * CHUNK_SIZE) := by
    rw [List.take_eq_take_iff, ← Nat.mul_min_mul_right]
    omega
  rw [inIdOrder, List.flatMap_append, flatMap_chunkOf_from, flatMap_chunkOf, back, front]

end Order

section Upload

variable {replicationCount : Int} {fileName content : Bytes} {id : Int32} {bytes : Bytes}

theorem mem_of_lookup {uploads : List (Int32 × Bytes)} (found : uploads.lookup id = some bytes) :
    (id, bytes) ∈ uploads := by
  obtain ⟨front, back, rfl, _⟩ := List.lookup_eq_some_iff.mp found
  simp

theorem mem_uploadsAt {requests : Nat → WriteRequest replicationCount} {location : IpAddr} :
    (id, bytes) ∈ uploadsAt location (posts fileName content requests) ↔
      ∃ chunkId < totalChunks content, location ∈ locationsOf (requests chunkId) ∧
        atoi (digits chunkId) = id ∧ chunkOf content chunkId = bytes := by
  simp only [uploadsAt, posts, List.mem_map, List.mem_filter, List.mem_flatMap, List.mem_range,
    Prod.mk.injEq, decide_eq_true_eq]
  constructor
  · rintro ⟨post, ⟨⟨chunkId, bound, other, member, rfl⟩, rfl⟩, same⟩
    exact ⟨chunkId, bound, member, same⟩
  · rintro ⟨chunkId, bound, member, same⟩
    exact ⟨postOf fileName content chunkId location,
      ⟨⟨chunkId, bound, location, member, rfl⟩, rfl⟩, same⟩

theorem Fresh.uploading {storage : Storage} (fresh : storage.Fresh) (name : Bytes) :
    Uploading [] name storage := by
  have start := @Uploading.start name storage fresh.layout.dataDirectory
    (fresh.absent (List.cons_ne_nil name []))
  rwa [fresh.table] at start

end Upload

def Insertion.StillConnected {sent : Bytes → Option Bytes} {replicationCount : Int}
    {fileName content : Bytes} {nodes final : Nodes}
    (insertion : Insertion sent replicationCount fileName content nodes final)
    (registry : TcpStorage) : Prop :=
  ∀ chunkId < totalChunks content, ∀ connection ∈ (insertion.requests chunkId).storage.connections,
    ∃ other ∈ registry.connections, other.ip = connection.ip

section Read

variable {sent : Bytes → Option Bytes} {replicationCount : Int} {fileName content : Bytes}
  {nodes final : Nodes} {registry : TcpStorage} {random : Nat → Nat}
  (insertion : Insertion sent replicationCount fileName content nodes final)
  (fresh : ∀ location, (nodes location).Fresh) (reported : Reported final registry)

include insertion fresh reported

theorem read_uncarried (uncarried : sent fileName ≠ some fileName) :
    readFile registry registry fileName (readingFrom sent final random) = (false, []) := by
  apply read_unnamed reported
  rintro connection _ file member rfl
  rcases insertion.names connection.ip file member with old | new
  · simp [(fresh connection.ip).table, storageStateInit] at old
  · exact uncarried new

variable (valid : ValidName fileName) (carried : sent fileName = some fileName)

include valid carried

theorem fresh_serving : Serving (fun _ => []) fileName final registry ∧
    ∀ location id, stored (final location).disk fileName id =
      (uploadsAt location (posts fileName content insertion.requests)).lookup id := by
  have kept := @Insertion.kept _ (fun _ => []) _ _ _ _ (fun _ => True) _ _ insertion valid carried
    (fun location _ => Fresh.uploading (fresh location) fileName) (fun _ _ => trivial)
  refine ⟨⟨reported, fun connection _ => kept.uploading connection.ip trivial, by simp⟩, ?_⟩
  intro location id
  rw [kept.held location trivial, (fresh location).stored_eq_none, Option.none_or]

theorem stored_own {location : IpAddr} {id : Int32} {bytes : Bytes}
    (held : stored (final location).disk fileName id = some bytes) :
    ∃ chunkId < totalChunks content, atoi (digits chunkId) = id ∧ chunkOf content chunkId = bytes := by
  rw [(fresh_serving insertion fresh reported valid carried).2] at held
  obtain ⟨chunkId, bound, _, same⟩ := mem_uploadsAt.mp (mem_of_lookup held)
  exact ⟨chunkId, bound, same⟩

theorem listed_own {id : Int32} (listed : registry.Lists fileName id) :
    ∃ chunkId < totalChunks content, atoi (digits chunkId) = id := by
  rw [(fresh_serving insertion fresh reported valid carried).1.advertised.lists_iff] at listed
  obtain ⟨connection, _, present⟩ := listed
  obtain ⟨bytes, found⟩ := Option.isSome_iff_exists.mp present
  obtain ⟨chunkId, bound, same, _⟩ := stored_own insertion fresh reported valid carried found
  exact ⟨chunkId, bound, same⟩

theorem read_empty (empty : content = []) :
    readFile registry registry fileName (readingFrom sent final random) = (false, []) := by
  apply readFile_unlisted ⟨rfl, rfl, rfl, fun _ => rfl⟩
  rw [List.eq_nil_iff_forall_not_mem]
  intro id member
  obtain ⟨chunkId, bound, _⟩ := listed_own insertion fresh reported valid carried
    (mem_getChunksForFile.mp member)
  rw [empty, totalChunks, List.length_nil, CHUNK_SIZE] at bound
  omega

theorem read_large (large : 2 ^ 32 < totalChunks content) {output : Bytes}
    (read : readFile registry registry fileName (readingFrom sent final random) = (true, output)) :
    output.length < content.length := by
  by_cases listed : registry.getChunksForFile fileName = []
  · rw [readFile_unlisted ⟨rfl, rfl, rfl, fun _ => rfl⟩ listed] at read
    simp at read
  · have serving := (fresh_serving insertion fresh reported valid carried).1
    obtain ⟨bufs, again, all⟩ := @Advertised.read _ _ _ _ _ random serving.advertised
      (serving.fetches valid carried) listed
    rw [read, Prod.mk.injEq] at again
    rw [again.2]
    have sized := flatten_length_le (all.imp (by
      rintro id buf ⟨connection, _, held⟩
      obtain ⟨chunkId, _, _, same⟩ := stored_own insertion fresh reported valid carried held
      rw [← same]
      exact chunkOf_length_le content chunkId))
    have few := increasing_length_le (getChunksForFile_increasing registry fileName)
    simp only [totalChunks, CHUNK_SIZE] at large sized
    omega

variable (positive : 0 < replicationCount) (still : insertion.StillConnected registry)

include positive still

theorem fresh_lists_iff {id : Int32} : registry.Lists fileName id ↔
    ∃ chunkId < totalChunks content, atoi (digits chunkId) = id := by
  constructor
  · exact listed_own insertion fresh reported valid carried
  · rintro ⟨chunkId, bound, same⟩
    obtain ⟨serving, held⟩ := fresh_serving insertion fresh reported valid carried
    obtain ⟨location, asked⟩ := List.exists_mem_of_ne_nil _
      (locationsOf_ne_nil positive insertion.returned bound (insertion.connected chunkId bound))
    obtain ⟨connection, before, rfl⟩ := locationsOf_connected asked
    obtain ⟨other, belongs, address⟩ := still chunkId bound connection before
    rw [serving.advertised.lists_iff]
    refine ⟨other, belongs, ?_⟩
    rw [held, address, List.lookup_isSome_iff]
    exact ⟨_, mem_uploadsAt.mpr ⟨chunkId, bound, asked, same, rfl⟩, by simp⟩

theorem read_small (small : totalChunks content ≤ 2 ^ 32) (nonempty : content ≠ []) :
    readFile registry registry fileName (readingFrom sent final random) =
      (true, content.drop (2 ^ 31 * CHUNK_SIZE) ++ content.take (2 ^ 31 * CHUNK_SIZE)) := by
  have ids : registry.getChunksForFile fileName =
      (inIdOrder (totalChunks content)).map Int32.ofNat := by
    apply increasing_unique (getChunksForFile_increasing registry fileName)
      (inIdOrder_increasing small)
    intro id
    rw [mem_getChunksForFile,
      fresh_lists_iff insertion fresh reported valid carried positive still, List.mem_map]
    constructor
    · rintro ⟨chunkId, bound, rfl⟩
      exact ⟨chunkId, mem_inIdOrder.mpr bound, (atoi_digits (by omega)).symm⟩
    · rintro ⟨chunkId, member, rfl⟩
      have bound := mem_inIdOrder.mp member
      exact ⟨chunkId, bound, atoi_digits (by omega)⟩
  have some : 0 < totalChunks content := by
    have length := List.length_pos_iff.mpr nonempty
    simp only [totalChunks, CHUNK_SIZE]
    omega
  have listed : registry.getChunksForFile fileName ≠ [] := by
    rw [ids, ne_eq, List.map_eq_nil_iff]
    exact List.ne_nil_of_mem (mem_inIdOrder.mpr some)
  have inOrder : (inIdOrder (totalChunks content)).flatMap
      (fun chunkId => chunkOf content (chunkIndex (Int32.ofNat chunkId))) =
        (inIdOrder (totalChunks content)).flatMap (chunkOf content) := by
    apply List.flatMap_congr
    intro chunkId member
    have bound := mem_inIdOrder.mp member
    rw [chunkIndex_ofNat (by omega)]
  have serving := (fresh_serving insertion fresh reported valid carried).1
  rw [serving.advertised.read_eq (serving.fetches valid carried) listed
    fun id => chunkOf content (chunkIndex id)]
  · rw [ids, List.flatMap_map, inOrder, flatMap_inIdOrder]
  · intro connection _ id bytes held
    obtain ⟨chunkId, bound, rfl, same⟩ := stored_own insertion fresh reported valid carried held
    rw [atoi_digits (by omega), chunkIndex_ofNat (by omega), same]

end Read

def oneNode : TcpStorage := (TcpStorage.new 1).insert "a" (.v4 1)

def oneNodeConnected : WriteRequest 1 :=
  ⟨oneNode, (TcpStorage.Reachable.new).insert "a" (.v4 1), true, id, List.Perm.refl⟩

theorem oneNode_ip {connection : ConnectionData} (member : connection ∈ oneNode.connections) :
    connection.ip = .v4 1 := by
  rw [List.mem_singleton.mp member]

def oneByte (byte : UInt8) : Delivery where
  post := postOf (ascii "a") [byte] 0 (.v4 1)
  pieces := [[byte]]
  nonempty := by simp
  whole := rfl

def oneByteInserted {nodes final : Nodes} (byte : UInt8)
    (delivered : deliver some nodes (oneByte byte) = some (.status 200, final)) :
    Insertion some 1 (ascii "a") [byte] nodes final where
  requests := fun _ => oneNodeConnected
  connected := by
    intro chunkId _
    simp [oneNodeConnected, oneNode, TcpStorage.insert]
  responses := [.status 200]
  session := ⟨[], [((oneByte byte).post, .status 200)]⟩
  returned := by
    rw [insertFile_eq_ok]
    have one : totalChunks [byte] = 1 := by simp [totalChunks, CHUNK_SIZE]
    have asked : getChunkServerToAddChunkTo oneNodeConnected = some [.v4 1] := by decide
    rw [one, List.range_one, List.foldlM_cons, insertChunk, asked]
    exact ⟨rfl, rfl⟩
  deliveries := [oneByte byte]
  trace := [(oneByte byte, .status 200)]
  delivered := run_cons_of_step delivered rfl
  logged := rfl

def oneNodeReported (nodes : Nodes) : TcpStorage :=
  { oneNode with
    connections := [⟨"a", .v4 1, (nodes (.v4 1)).table.fileToChunkState.map mappingOf⟩] }

theorem oneNodeReported_ip {nodes : Nodes} {connection : ConnectionData}
    (member : connection ∈ (oneNodeReported nodes).connections) : connection.ip = .v4 1 := by
  rw [List.mem_singleton.mp member]

theorem oneNodeReported_reported (nodes : Nodes) : Reported nodes (oneNodeReported nodes) := by
  intro connection member
  rw [List.mem_singleton.mp member, returnCurrentState_eq]

end DistributedFileSystem.System
