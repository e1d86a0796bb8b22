import DistributedFileSystem.System.InsertThenRead

/-! One file, uploaded again and again to the one node that is connected. -/

namespace DistributedFileSystem.System

open ByteString Posix Transition Master StorageLayer Client

def uploads (content : Bytes) : List (Int32 × Bytes) :=
  (List.range (totalChunks content)).map fun chunkId =>
    (atoi (digits chunkId), chunkOf content chunkId)

def firstUploads (uploads : List (Int32 × Bytes)) : Bytes :=
  ((uploads.map Prod.fst).dedup.mergeSort fun left right => left ≤ right).flatMap fun id =>
    (uploads.lookup id).getD []

def Insertion.Only {sent : Bytes → Option Bytes} {replicationCount : Int}
    {fileName content : Bytes} {nodes final : Nodes}
    (insertion : Insertion sent replicationCount fileName content nodes final)
    (node : IpAddr) : Prop :=
  ∀ chunkId < totalChunks content, ∀ connection ∈ (insertion.requests chunkId).storage.connections,
    connection.ip = node

inductive Insertions (sent : Bytes → Option Bytes) (replicationCount : Int) (node : IpAddr)
    (fileName : Bytes) : Nodes → List Bytes → Nodes → Prop
  | done (nodes : Nodes) : Insertions sent replicationCount node fileName nodes [] nodes
  | next {nodes middle final : Nodes} {content : Bytes} {contents : List Bytes}
      (insertion : Insertion sent replicationCount fileName content nodes middle) :
      insertion.Only node →
      Insertions sent replicationCount node fileName middle contents final →
      Insertions sent replicationCount node fileName nodes (content :: contents) final

structure NewFile (storage : Storage) (fileName : Bytes) : Prop where
  data : DataDirectory storage.disk
  absent : storage.disk.node? (fileName :: dataName :: storage.disk.cwd) = none
  unlisted : ∀ file ∈ storage.table.fileToChunkState, file.filePath ≠ fileName

section Lookup

variable {Item : Type} {id : Int32}

theorem lookup_constant {block : List (Int32 × Bytes)} {entry : Int32 × Bytes}
    (nonempty : block ≠ []) (constant : ∀ upload ∈ block, upload = entry) :
    block.lookup id = [entry].lookup id := by
  obtain ⟨index, bytes⟩ := entry
  have same := List.eq_replicate_iff.mpr ⟨rfl, constant⟩
  have some : ¬block.length = 0 := by simpa using nonempty
  rw [same, List.lookup_replicate, if_neg some, List.lookup_cons, List.lookup_nil]
  split
  · rename_i equal
    simp [equal]
  · rename_i different
    simp [different]

theorem lookup_flatMap {items : List Item} {blocks : Item → List (Int32 × Bytes)}
    {entry : Item → Int32 × Bytes}
    (constant : ∀ item ∈ items, blocks item ≠ [] ∧ ∀ upload ∈ blocks item, upload = entry item) :
    (items.flatMap blocks).lookup id = (items.map entry).lookup id := by
  induction items with
  | nil => rfl
  | cons item items ih =>
      rw [List.forall_mem_cons] at constant
      have own := @lookup_constant id _ _ constant.1.1 constant.1.2
      rw [List.flatMap_cons, List.map_cons, List.lookup_append, own, ih constant.2,
        ← List.lookup_append, List.singleton_append]

end Lookup

section Repeat

variable {sent : Bytes → Option Bytes} {replicationCount : Int} {node : IpAddr}
  {fileName content : Bytes} {contents : List Bytes} {nodes final : Nodes} {registry : TcpStorage}
  {others : List FileStateCurrentInner} {random : Nat → Nat}

theorem Insertion.Only.location {insertion : Insertion sent replicationCount fileName content nodes final}
    (only : insertion.Only node) {chunkId : Nat} (bound : chunkId < totalChunks content)
    {location : IpAddr} (asked : location ∈ locationsOf (insertion.requests chunkId)) :
    location = node := by
  obtain ⟨connection, member, rfl⟩ := locationsOf_connected asked
  exact only chunkId bound connection member

theorem Insertion.Only.lookup {insertion : Insertion sent replicationCount fileName content nodes final}
    (only : insertion.Only node) (positive : 0 < replicationCount) (id : Int32) :
    (uploadsAt node (posts fileName content insertion.requests)).lookup id =
      (uploads content).lookup id := by
  rw [uploadsAt, posts, List.filter_flatMap, List.map_flatMap, uploads]
  apply lookup_flatMap
  intro chunkId member
  have bound := List.mem_range.mp member
  constructor
  · obtain ⟨location, asked⟩ := List.exists_mem_of_ne_nil _
      (locationsOf_ne_nil positive insertion.returned bound (insertion.connected chunkId bound))
    obtain rfl := only.location bound asked
    apply List.ne_nil_of_mem
    rw [List.mem_map]
    refine ⟨postOf fileName content chunkId location, ?_, rfl⟩
    rw [List.mem_filter]
    exact ⟨List.mem_map_of_mem asked, decide_eq_true rfl⟩
  · intro upload inBlock
    obtain ⟨post, kept, rfl⟩ := List.mem_map.mp inBlock
    obtain ⟨location, _, rfl⟩ := List.mem_map.mp (List.mem_filter.mp kept).1
    rfl

theorem Insertions.kept (positive : 0 < replicationCount) (valid : ValidName fileName)
    (carried : sent fileName = some fileName)
    (inserted : Insertions sent replicationCount node fileName nodes contents final)
    (uploading : Uploading others fileName (nodes node)) :
    ∃ posts, Kept (fun location => location = node) (fun _ => others) fileName nodes final posts ∧
      ∀ id, (uploadsAt node posts).lookup id = (contents.flatMap uploads).lookup id := by
  induction inserted with
  | done nodes =>
      refine ⟨[], Kept.nothing ?_, fun _ => rfl⟩
      rintro location rfl
      exact uploading
  | @next nodes middle final content contents insertion only _ ih =>
      have first := @Insertion.kept _ (fun _ => others) _ _ _ _ (fun location => location = node)
        _ _ insertion valid carried (by
          rintro location rfl
          exact uploading) (by
          intro event member
          obtain ⟨chunkId, bound, location, asked, same⟩ := insertion.trace_own event member
          rw [same]
          exact only.location bound asked)
      obtain ⟨later, rest, known⟩ := ih (first.uploading node rfl)
      refine ⟨_, first.trans rest, ?_⟩
      intro id
      rw [uploadsAt_append, List.lookup_append, only.lookup positive, known, List.flatMap_cons,
        List.lookup_append]

theorem Insertions.names (inserted : Insertions sent replicationCount node fileName nodes contents final)
    (location : IpAddr) : Names (sent fileName) (nodes location).table (final location).table := by
  induction inserted with
  | done nodes => exact Names.same rfl
  | next insertion _ _ ih => exact (insertion.names location).trans ih

theorem repeated_uncarried (uncarried : sent fileName ≠ some fileName)
    (unlisted : ∀ file ∈ (nodes node).table.fileToChunkState, file.filePath ≠ fileName)
    (inserted : Insertions sent replicationCount node fileName nodes contents final)
    (single : ∀ connection ∈ registry.connections, connection.ip = node)
    (reported : Reported final registry) :
    readFile registry registry fileName (readingFrom sent final random) = (false, []) := by
  apply read_unnamed reported
  rintro connection belongs file member rfl
  rw [single connection belongs] at member
  rcases inserted.names node file member with old | new
  · obtain ⟨other, present, same⟩ := List.mem_map.mp old
    exact unlisted other present same
  · exact uncarried new

/-- What the node holds under the name after the uploads, and what its report lists. -/
theorem repeated_serving (positive : 0 < replicationCount) (valid : ValidName fileName)
    (carried : sent fileName = some fileName) (new : NewFile (nodes node) fileName)
    (inserted : Insertions sent replicationCount node fileName nodes contents final)
    (single : ∀ connection ∈ registry.connections, connection.ip = node)
    (reported : Reported final registry) :
    Serving (fun _ => (nodes node).table.fileToChunkState) fileName final registry ∧
      ∀ id, stored (final node).disk fileName id = (contents.flatMap uploads).lookup id := by
  obtain ⟨posts, kept, known⟩ := inserted.kept positive valid carried
    (Uploading.start new.data new.absent)
  refine ⟨⟨reported, ?_, fun _ _ => new.unlisted⟩, ?_⟩
  · intro connection member
    rw [single connection member]
    exact kept.uploading node rfl
  · intro id
    rw [kept.held node rfl, stored_eq_none new.absent, Option.none_or, known]

theorem repeated_ids (serving : Serving (fun _ => others) fileName final registry)
    (held : ∀ id, stored (final node).disk fileName id = (contents.flatMap uploads).lookup id)
    (connected : registry.connections ≠ [])
    (single : ∀ connection ∈ registry.connections, connection.ip = node) :
    registry.getChunksForFile fileName =
      ((contents.flatMap uploads).map Prod.fst).dedup.mergeSort fun left right => left ≤ right := by
  apply increasing_unique (getChunksForFile_increasing registry fileName)
    (mergeSort_increasing (List.nodup_dedup _))
  intro id
  rw [mem_getChunksForFile, serving.advertised.lists_iff, List.mem_mergeSort, List.mem_dedup, List.mem_map]
  constructor
  · rintro ⟨connection, member, present⟩
    rw [single connection member, held, List.lookup_isSome_iff] at present
    obtain ⟨upload, uploaded, same⟩ := present
    exact ⟨upload, uploaded, (eq_of_beq same).symm⟩
  · rintro ⟨upload, uploaded, rfl⟩
    obtain ⟨connection, member⟩ := List.exists_mem_of_ne_nil _ connected
    refine ⟨connection, member, ?_⟩
    rw [single connection member, held, List.lookup_isSome_iff]
    exact ⟨upload, uploaded, BEq.rfl⟩

theorem uploads_ne_nil (nonempty : content ≠ []) : uploads content ≠ [] := by
  have length := List.length_pos_iff.mpr nonempty
  rw [uploads, ne_eq, List.map_eq_nil_iff, List.range_eq_nil, totalChunks, CHUNK_SIZE]
  omega

theorem repeated_carried (positive : 0 < replicationCount) (valid : ValidName fileName)
    (carried : sent fileName = some fileName) (new : NewFile (nodes node) fileName)
    (repeated : contents ≠ []) (nonempty : ∀ content ∈ contents, content ≠ [])
    (inserted : Insertions sent replicationCount node fileName nodes contents final)
    (connected : registry.connections ≠ [])
    (single : ∀ connection ∈ registry.connections, connection.ip = node)
    (reported : Reported final registry) :
    readFile registry registry fileName (readingFrom sent final random) =
      (true, firstUploads (contents.flatMap uploads)) := by
  obtain ⟨serving, held⟩ := repeated_serving positive valid carried new inserted single reported
  have ids := repeated_ids serving held connected single
  have listed : registry.getChunksForFile fileName ≠ [] := by
    obtain ⟨content, member⟩ := List.exists_mem_of_ne_nil _ repeated
    obtain ⟨upload, uploaded⟩ := List.exists_mem_of_ne_nil _
      (uploads_ne_nil (nonempty content member))
    apply @List.ne_nil_of_mem _ upload.1
    rw [ids, List.mem_mergeSort, List.mem_dedup]
    exact List.mem_map_of_mem (List.mem_flatMap.mpr ⟨content, member, uploaded⟩)
  rw [serving.advertised.read_eq (serving.fetches valid carried) listed fun id =>
    ((contents.flatMap uploads).lookup id).getD [], ids, firstUploads]
  intro connection member id bytes found
  rw [single connection member, held] at found
  rw [found, Option.getD_some]

end Repeat

theorem emptyStorage_new : NewFile emptyStorage (ascii "a") := by
  refine ⟨emptyStorage_fresh.layout.dataDirectory,
    emptyStorage_fresh.absent (List.cons_ne_nil (ascii "a") []), ?_⟩
  simp [emptyStorage_fresh.table, storageStateInit]

theorem twice_inserted : ∃ final, Insertions some 1 (.v4 1) (ascii "a") (fun _ => emptyStorage)
    [[120], [121]] final := by
  have accepted : ((deliver some (fun _ => emptyStorage) (oneByte 120)).bind fun (first, middle) =>
      (deliver some middle (oneByte 121)).map fun (second, _) => (first, second)) =
        some (.status 200, .status 200) := by decide +kernel
  obtain ⟨⟨_, middle⟩, early, rest⟩ := Option.bind_eq_some_iff.mp accepted
  obtain ⟨⟨_, final⟩, late, same⟩ := Option.map_eq_some_iff.mp rest
  obtain ⟨rfl, rfl⟩ := Prod.mk.inj same
  have only : ∀ chunkId < 1, ∀ connection ∈ oneNode.connections, connection.ip = .v4 1 :=
    fun _ _ _ member => oneNode_ip member
  exact ⟨final, Insertions.next (oneByteInserted 120 early) only
    (Insertions.next (oneByteInserted 121 late) only (Insertions.done final))⟩

end DistributedFileSystem.System
