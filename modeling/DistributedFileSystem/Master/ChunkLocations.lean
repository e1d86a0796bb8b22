import DistributedFileSystem.Master.FileLookup
import DistributedFileSystem.Master.TcpHandler

/-!
The list of the chunks of a file against their locations: every listed chunk is
located, and every located chunk is listed when no report hides it behind an
earlier mapping of the same name.
-/

namespace DistributedFileSystem.Master

open ByteString FirstOccurrences TcpStorage

def firstHolder (storage : TcpStorage) (fileName : Bytes) (chunkId : Int32) (ip : IpAddr) : Nat :=
  storage.connections.findIdx fun connection =>
    connection.ip = ip ∧ ∃ mapping ∈ connection.filesToChunks,
      mapping.filename = fileName ∧ chunkId ∈ mapping.chunkIds

theorem firstHolder_eq (storage : TcpStorage) (fileName : Bytes) (chunkId : Int32) (ip : IpAddr) :
    firstHolder storage fileName chunkId ip =
      firstAt (holder fileName chunkId) storage.connections ip := by
  rw [firstHolder, firstAt]
  congr
  funext connection
  rw [decide_eq_decide, holder_eq_some]

/-- The locations of a chunk are the addresses of the connections that list it in any
mapping of the file, each once, in the order of the first such connection. -/
theorem getLocation_exact (storage : TcpStorage) (fileName : Bytes) (chunkId : Int32) :
    (∀ ip, ip ∈ storage.getLocation fileName chunkId ↔ ∃ connection ∈ storage.connections,
      connection.ip = ip ∧ ∃ mapping ∈ connection.filesToChunks,
        mapping.filename = fileName ∧ chunkId ∈ mapping.chunkIds) ∧
    (storage.getLocation fileName chunkId).Nodup ∧
    (storage.getLocation fileName chunkId).Pairwise fun left right =>
      firstHolder storage fileName chunkId left < firstHolder storage fileName chunkId right := by
  refine ⟨fun ip => mem_getLocation, ?_, ?_⟩
  · rw [getLocation_eq_firsts]
    exact firsts_nodup _ _
  · simp only [firstHolder_eq, getLocation_eq_firsts]
    exact firsts_ordered _ _

/-- On one registry, the listed chunks come in increasing order and each of them with
locations, of which none are empty. -/
theorem chunk_list_located (storage : TcpStorage) (fileName : Bytes) :
    (storage.getChunksForFile fileName).Pairwise (· < ·) ∧
    (∀ id ∈ storage.getChunksForFile fileName, storage.getLocation fileName id ≠ []) ∧
    (storage.getMultipleChunks fileName (storage.getChunksForFile fileName)).length =
      (storage.getChunksForFile fileName).length ∧
    (∀ (i : Nat) (id : Int32), (storage.getChunksForFile fileName)[i]? = some id →
      (storage.getMultipleChunks fileName (storage.getChunksForFile fileName))[i]? =
        some (storage.getLocation fileName id)) ∧
    (storage.getMultipleChunks fileName (storage.getChunksForFile fileName)).any
      (fun loc => loc.length = 0) = false := by
  have located : ∀ id ∈ storage.getChunksForFile fileName,
      storage.getLocation fileName id ≠ [] :=
    fun id listed => getLocation_ne_nil (mem_getChunksForFile.mp listed)
  refine ⟨getChunksForFile_increasing storage fileName, located, ?_, ?_, ?_⟩
  · rw [getMultipleChunks_eq, List.length_map]
  · intro i id found
    rw [getMultipleChunks_eq, List.getElem?_map, found, Option.map_some]
  · rw [List.any_eq_false, getMultipleChunks_eq, List.forall_mem_map]
    intro id listed
    simpa using located id listed

def ListsLocated (storage : TcpStorage) : Prop :=
  ∀ fileName chunkId, storage.getLocation fileName chunkId ≠ [] →
    chunkId ∈ storage.getChunksForFile fileName

/-- The report has the chunk in a mapping of the file, but not in the first one. -/
def Skipped (fileMappings : List FileMappings) (fileName : Bytes) (chunkId : Int32) : Prop :=
  (∃ mapping ∈ fileMappings, mapping.filename = fileName ∧ chunkId ∈ mapping.chunkIds) ∧
    ∀ mapping, fileMappings.find? (fun mapping => mapping.filename = fileName) = some mapping →
      chunkId ∉ mapping.chunkIds

def NothingSkipped (fileMappings : List FileMappings) : Prop :=
  ∀ fileName chunkId, ¬Skipped fileMappings fileName chunkId

theorem listsLocated_iff (storage : TcpStorage) :
    ListsLocated storage ↔ ∀ connection ∈ storage.connections, ∀ fileName chunkId,
      Skipped connection.filesToChunks fileName chunkId → storage.Lists fileName chunkId := by
  constructor
  · rintro complete connection member fileName chunkId ⟨⟨mapping, within, named, holds⟩, _⟩
    apply mem_getChunksForFile.mp
    apply complete
    apply List.ne_nil_of_mem
    exact mem_getLocation.mpr ⟨connection, member, rfl, mapping, within, named, holds⟩
  · intro covered fileName chunkId somewhere
    obtain ⟨ip, located⟩ := List.exists_mem_of_ne_nil _ somewhere
    obtain ⟨connection, member, _, reported⟩ := mem_getLocation.mp located
    apply mem_getChunksForFile.mpr
    by_cases skipped : Skipped connection.filesToChunks fileName chunkId
    · exact covered connection member fileName chunkId skipped
    · have first : ∃ mapping, connection.filesToChunks.find?
          (fun mapping => mapping.filename = fileName) = some mapping ∧
            chunkId ∈ mapping.chunkIds := by
        by_contra none
        exact skipped ⟨reported, fun mapping found holds => none ⟨mapping, found, holds⟩⟩
      obtain ⟨mapping, found, holds⟩ := first
      exact ⟨connection, member, mapping, found, holds⟩

section Events

variable {address : ConnectionId → IpAddr} {replicationFactor : Int}

theorem mem_changeFirst {connectionId : ConnectionId} {change : ConnectionData → ConnectionData}
    {connections : List ConnectionData} {connection : ConnectionData}
    (member : connection ∈ changeFirst connectionId change connections) :
    connection ∈ connections ∨ ∃ before ∈ connections, connection = change before := by
  induction connections with
  | nil => simp [changeFirst] at member
  | cons first rest ih =>
      rw [changeFirst] at member
      split at member
      · rcases List.mem_cons.mp member with rfl | later
        · exact Or.inr ⟨first, List.mem_cons_self, rfl⟩
        · exact Or.inl (List.mem_cons_of_mem _ later)
      · rcases List.mem_cons.mp member with rfl | later
        · exact Or.inl List.mem_cons_self
        · rcases ih later with kept | ⟨before, within, rfl⟩
          · exact Or.inl (List.mem_cons_of_mem _ kept)
          · exact Or.inr ⟨before, List.mem_cons_of_mem _ within, rfl⟩

/-- What an event can put into the reports of the registry: nothing, or its payload. -/
theorem handle_report {handler : Handler} {event : Event} {connection : ConnectionData}
    (member : connection ∈ (handle address handler event).tcpStorage.connections) :
    connection.filesToChunks = [] ∨
      event.input.report = some connection.filesToChunks ∨
      connection ∈ handler.tcpStorage.connections := by
  obtain ⟨connectionId, input⟩ := event
  match input with
  | .frame none => exact Or.inr (Or.inr member)
  | .frame (some none) => exact Or.inr (Or.inr member)
  | .frame (some (some .join)) =>
      rcases List.mem_append.mp member with old | new
      · exact Or.inr (Or.inr old)
      · rw [List.mem_singleton.mp new]
        exact Or.inl rfl
  | .frame (some (some (.health fileState))) =>
      rcases mem_changeFirst member with kept | ⟨before, _, rfl⟩
      · exact Or.inr (Or.inr kept)
      · exact Or.inr (Or.inl rfl)
  | .closed => exact Or.inr (Or.inr (List.mem_filter.mp member).1)

theorem registry_reports {good : List FileMappings → Prop} (empty : good []) (events : List Event)
    (reported : ∀ event ∈ events, ∀ payload, event.input.report = some payload → good payload) :
    ∀ connection ∈ (registry address replicationFactor events).connections,
      good connection.filesToChunks := by
  induction events using List.reverseRecOn with
  | nil => simp [registry, serve, Handler.start, TcpStorage.new]
  | append_singleton events event ih =>
      intro connection member
      rw [registry, serve, List.foldl_append] at member
      rcases handle_report member with bare | own | old
      · rw [bare]
        exact empty
      · exact reported event (by simp) _ own
      · exact ih (fun other within => reported other (by simp [within])) connection old

end Events

theorem nothingSkipped_nil : NothingSkipped [] := by
  rintro fileName chunkId ⟨⟨mapping, member, _⟩, _⟩
  simp at member

/-- In a run whose reports hide no chunk behind the first mapping of its file, every state
lists every located chunk; a report that hides one is enough to lose it. -/
theorem located_chunks_listed (address : ConnectionId → IpAddr) (replicationFactor : Int) :
    (∀ events : List Event, (∀ event ∈ events, ∀ payload,
        event.input.report = some payload → NothingSkipped payload) →
      ∀ reached, reached <+: events → ListsLocated (registry address replicationFactor reached)) ∧
    (∀ connectionId payload, ListsLocated (registry address replicationFactor
        [⟨connectionId, joinInput⟩, ⟨connectionId, healthInput payload⟩]) ↔
      NothingSkipped payload) ∧
    ∀ events : List Event, ListsLocated (registry address replicationFactor events) ↔
      ∀ connection ∈ (registry address replicationFactor events).connections,
        ∀ fileName chunkId, Skipped connection.filesToChunks fileName chunkId →
          (registry address replicationFactor events).Lists fileName chunkId := by
  refine ⟨?_, ?_, fun events => listsLocated_iff _⟩
  · intro events reported reached early
    rw [listsLocated_iff]
    intro connection member fileName chunkId skipped
    have whole := registry_reports nothingSkipped_nil reached
      (fun event within => reported event (early.subset within)) connection member
    exact absurd skipped (whole fileName chunkId)
  · intro connectionId payload
    have single : (registry address replicationFactor
        [⟨connectionId, joinInput⟩, ⟨connectionId, healthInput payload⟩]).connections =
          [⟨connectionId, address connectionId, payload⟩] := by
      simp [registry, serve, handle, Handler.start, TcpStorage.new, TcpStorage.insert, joinInput,
        healthInput, TcpStorage.updateState, changeFirst, ConnectionData.updateState]
    rw [listsLocated_iff]
    unfold TcpStorage.Lists
    rw [single, List.forall_mem_singleton]
    constructor
    · intro covered fileName chunkId skipped
      obtain ⟨connection, member, mapping, found, holds⟩ := covered fileName chunkId skipped
      rw [List.mem_singleton.mp member] at found
      exact skipped.2 mapping found holds
    · intro whole fileName chunkId skipped
      exact absurd skipped (whole fileName chunkId)

def repeatedName : List Event :=
  [⟨"a", joinInput⟩,
    ⟨"a", healthInput [⟨ascii "f", [0]⟩, ⟨ascii "f", [1]⟩]⟩]

theorem repeatedName_unlisted :
    let storage := registry (fun _ => .v4 1) 1 repeatedName
    storage.getLocation (ascii "f") 1 = [.v4 1] ∧ storage.getChunksForFile (ascii "f") = [0] ∧
      ¬ListsLocated storage := by
  have located : (registry (fun _ => .v4 1) 1 repeatedName).getLocation (ascii "f") 1 =
      [.v4 1] := by decide
  have listed : (registry (fun _ => .v4 1) 1 repeatedName).getChunksForFile (ascii "f") =
      [0] := by
    have collected : collectChunks (ascii "f")
        (registry (fun _ => .v4 1) 1 repeatedName).connections [] = [0] := by decide
    rw [getChunksForFile_eq, collected, List.mergeSort_singleton]
  refine ⟨located, listed, ?_⟩
  intro complete
  have member := complete (ascii "f") 1 (by rw [located]; exact List.cons_ne_nil _ _)
  rw [listed] at member
  exact absurd member (by decide)

end DistributedFileSystem.Master
