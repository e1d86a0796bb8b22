import DistributedFileSystem.Master.FileLookup
import DistributedFileSystem.Master.TcpHandler
import Mathlib.Data.List.Duplicate

/-!
The entries that one connection has in the registry: they come from its own
messages alone, whatever the other connections send in between.
-/

namespace DistributedFileSystem.Master

open ByteString TcpStorage

def entries (connectionId : ConnectionId) (storage : TcpStorage) : List ConnectionData :=
  storage.connections.filter fun c => c.connectionId = connectionId

/-- What the next input of a connection makes of its entries: a `Join` adds one, a
`Health` changes the first, the end takes all of them. -/
def advance (connectionId : ConnectionId) (ip : IpAddr) (own : List ConnectionData) :
    Input → List ConnectionData
  | .frame (some (some .join)) => own ++ [⟨connectionId, ip, []⟩]
  | .frame (some (some (.health fileMappings))) =>
      own.modifyHead fun c => c.updateState fileMappings
  | .closed => []
  | _ => own

def ownEntries (connectionId : ConnectionId) (ip : IpAddr) (received : List Input) :
    List ConnectionData :=
  received.foldl (advance connectionId ip) []

theorem changeFirst_filter_own (connectionId : ConnectionId) (change : ConnectionData → ConnectionData)
    (keeps : ∀ c, (change c).connectionId = c.connectionId) (connections : List ConnectionData) :
    (changeFirst connectionId change connections).filter (fun c => c.connectionId = connectionId) =
      (connections.filter fun c => c.connectionId = connectionId).modifyHead change := by
  induction connections with
  | nil => rfl
  | cons connection rest ih =>
      by_cases same : connection.connectionId = connectionId
      · simp [changeFirst, same, keeps]
      · simp [changeFirst, same, ih]

theorem handle_entries_own (address : ConnectionId → IpAddr) (handler : Handler) (event : Event) :
    entries event.connectionId (handle address handler event).tcpStorage =
      advance event.connectionId (address event.connectionId)
        (entries event.connectionId handler.tcpStorage) event.input := by
  obtain ⟨connectionId, input⟩ := event
  match input with
  | .frame none => rfl
  | .frame (some none) => rfl
  | .frame (some (some .join)) => simp [handle, TcpStorage.insert, entries, advance]
  | .frame (some (some (.health fileMappings))) =>
      exact changeFirst_filter_own connectionId (fun c => c.updateState fileMappings)
        (fun _ => rfl) _
  | .closed => simp [handle, TcpStorage.remove, entries, advance]

theorem handle_entries_other {address : ConnectionId → IpAddr} {handler : Handler} {event : Event}
    {connectionId : ConnectionId} (different : event.connectionId ≠ connectionId) :
    entries connectionId (handle address handler event).tcpStorage =
      entries connectionId handler.tcpStorage := by
  have through : ∀ storage : TcpStorage, entries connectionId storage =
      (storage.connections.filter fun c => c.connectionId ≠ event.connectionId).filter
        fun c => c.connectionId = connectionId := by
    intro storage
    rw [List.filter_filter, entries]
    congr
    funext c
    by_cases own : c.connectionId = connectionId
    · simp [own, Ne.symm different]
    · simp [own]
  rw [through, through, handle_others]

theorem registry_entries (address : ConnectionId → IpAddr) (replicationFactor : Int)
    (connectionId : ConnectionId) (events : List Event) :
    entries connectionId (registry address replicationFactor events) =
      ownEntries connectionId (address connectionId) (inputs connectionId events) := by
  induction events using List.reverseRecOn with
  | nil => rfl
  | append_singleton events event ih =>
      rw [registry_concat, inputs_append]
      by_cases own : event.connectionId = connectionId
      · subst own
        rw [handle_entries_own, ← registry, ih, inputs_own, ownEntries, ownEntries,
          List.foldl_concat]
      · rw [handle_entries_other own, ← registry, ih, inputs_other own, List.append_nil]

section Unique

theorem ids_count (connectionId : ConnectionId) (storage : TcpStorage) :
    (storage.connections.map ConnectionData.connectionId).count connectionId =
      (entries connectionId storage).length := by
  rw [List.count, List.countP_map, entries, List.countP_eq_length_filter]
  rfl

theorem ownEntries_length_le (connectionId : ConnectionId) (ip : IpAddr) (received : List Input) :
    (ownEntries connectionId ip received).length ≤ received.count joinInput := by
  induction received using List.reverseRecOn with
  | nil => exact Nat.le_refl 0
  | append_singleton received input ih =>
      rw [ownEntries, List.foldl_concat, ← ownEntries, List.count_append]
      match input with
      | .frame none => exact ih.trans (Nat.le_add_right _ _)
      | .frame (some none) => exact ih.trans (Nat.le_add_right _ _)
      | .frame (some (some .join)) => simpa [advance, joinInput] using ih
      | .frame (some (some (.health fileMappings))) =>
          simp only [advance, List.length_modifyHead]
          exact ih.trans (Nat.le_add_right _ _)
      | .closed => exact Nat.zero_le _

theorem ownEntries_length (connectionId : ConnectionId) (ip : IpAddr) {received : List Input}
    (ongoing : .closed ∉ received) :
    (ownEntries connectionId ip received).length = received.count joinInput := by
  induction received using List.reverseRecOn with
  | nil => rfl
  | append_singleton received input ih =>
      simp only [List.mem_append, List.mem_singleton, not_or] at ongoing
      rw [ownEntries, List.foldl_concat, ← ownEntries, List.count_append]
      match input with
      | .frame none => simpa [advance, joinInput] using ih ongoing.1
      | .frame (some none) => simpa [advance, joinInput] using ih ongoing.1
      | .frame (some (some .join)) => simpa [advance, joinInput] using ih ongoing.1
      | .frame (some (some (.health fileMappings))) =>
          simpa [advance, joinInput] using ih ongoing.1
      | .closed => exact absurd rfl ongoing.2

theorem inputs_count (event : Event) (events : List Event) :
    (inputs event.connectionId events).count event.input = events.count event := by
  induction events with
  | nil => rfl
  | cons other events ih =>
      rw [← List.singleton_append, inputs_append, List.count_append, List.count_append, ih]
      by_cases own : other.connectionId = event.connectionId
      · obtain ⟨connectionId, input⟩ := event
        obtain ⟨otherId, otherInput⟩ := other
        simp only at own
        subst own
        simp [inputs_own ⟨otherId, otherInput⟩, List.count_singleton]
      · have different : other ≠ event := fun same => own (congrArg Event.connectionId same)
        simp [inputs_other own, different]

theorem exists_repeated {events : List Event} {event : Event} (twice : 2 ≤ events.count event) :
    ∃ earlier later, events = earlier ++ event :: later ∧ event ∈ earlier := by
  rw [← List.duplicate_iff_two_le_count, List.duplicate_iff_sublist, List.cons_sublist_iff] at twice
  obtain ⟨front, back, rfl, first, second⟩ := twice
  obtain ⟨middle, later, rfl⟩ := List.append_of_mem (List.singleton_sublist.mp second)
  exact ⟨front ++ middle, later, by simp, List.mem_append_left _ first⟩

/-- In every state that an interleaving passes through, no two entries have one id,
exactly when no connection sends a second `Join`. -/
theorem unique_entries_iff (address : ConnectionId → IpAddr) (replicationFactor : Int)
    (events : List Event) (wellFormed : WellFormed events) :
    (∀ earlier later, events = earlier ++ later →
      ((registry address replicationFactor earlier).connections.map
        ConnectionData.connectionId).Nodup) ↔
    ∀ connectionId, (inputs connectionId events).count joinInput ≤ 1 := by
  constructor
  · intro unique connectionId
    by_contra more
    have twice : 2 ≤ events.count ⟨connectionId, joinInput⟩ := by
      rw [← inputs_count]
      exact Nat.not_le.mp more
    obtain ⟨earlier, later, rfl, first⟩ := exists_repeated twice
    have nodup := unique (earlier ++ [⟨connectionId, joinInput⟩]) later (by simp)
    rw [List.nodup_iff_count_le_one] at nodup
    have once := nodup connectionId
    have ongoing := wellFormed.notEnded
    have before : 0 < (inputs connectionId earlier).count joinInput := by
      rw [inputs_count ⟨connectionId, joinInput⟩]
      exact List.count_pos_iff.mpr first
    have own : inputs connectionId (earlier ++ [⟨connectionId, joinInput⟩]) =
        inputs connectionId earlier ++ [joinInput] := by
      rw [inputs_append, inputs_own ⟨connectionId, joinInput⟩]
    rw [ids_count, registry_entries, own, ownEntries_length _ _ (by simpa [joinInput] using ongoing),
      List.count_append, List.count_singleton_self] at once
    omega
  · rintro once earlier later rfl
    rw [List.nodup_iff_count_le_one]
    intro connectionId
    have bound := once connectionId
    rw [inputs_append, List.count_append] at bound
    rw [ids_count, registry_entries]
    have few := ownEntries_length_le connectionId (address connectionId) (inputs connectionId earlier)
    omega

def joinedTwice : List Event := [⟨"a", joinInput⟩, ⟨"a", joinInput⟩, ⟨"a", .closed⟩]

theorem joinedTwice_wellFormed : WellFormed joinedTwice := by
  intro connectionId input member same
  subst same
  by_cases a : "a" = connectionId
  · subst a
    revert member
    decide
  · simp [inputs, joinedTwice, a] at member

theorem unique_entries_iff_joinedTwice :
    (∀ earlier later, joinedTwice = earlier ++ later →
      ((registry (fun _ => .v4 0) 1 earlier).connections.map ConnectionData.connectionId).Nodup) ↔
    ∀ connectionId, (inputs connectionId joinedTwice).count joinInput ≤ 1 :=
  unique_entries_iff (fun _ => .v4 0) 1 joinedTwice joinedTwice_wellFormed

theorem joinedTwice_repeats : ¬∀ (address : ConnectionId → IpAddr) (replicationFactor : Int)
    (events earlier later : List Event), WellFormed events → events = earlier ++ later →
    ((registry address replicationFactor earlier).connections.map
      ConnectionData.connectionId).Nodup := by
  intro unique
  have nodup := unique (fun _ => .v4 0) 1 joinedTwice (joinedTwice.take 2) (joinedTwice.drop 2)
    joinedTwice_wellFormed (by simp)
  revert nodup
  decide

end Unique

section Order

theorem mem_iff_mem_entries {storage : TcpStorage} {connection : ConnectionData} :
    connection ∈ storage.connections ↔
      connection ∈ entries connection.connectionId storage := by
  simp [entries]

section Same

variable {left right : TcpStorage}
  (same : ∀ connection, connection ∈ left.connections ↔ connection ∈ right.connections)
include same

theorem getChunksForFile_congr (fileName : Bytes) :
    left.getChunksForFile fileName = right.getChunksForFile fileName := by
  apply (getChunksForFile_increasing left fileName).eq_of_mem_iff
    (getChunksForFile_increasing right fileName)
  intro id
  simp only [mem_getChunksForFile, TcpStorage.Lists, same]

theorem getLocation_congr (fileName : Bytes) (chunkId : Int32) (ip : IpAddr) :
    ip ∈ left.getLocation fileName chunkId ↔ ip ∈ right.getLocation fileName chunkId := by
  simp only [mem_getLocation, same]

theorem getFileList_congr (name : Bytes) : name ∈ left.getFileList ↔ name ∈ right.getFileList := by
  simp only [mem_getFileList, same]

end Same

/-- Two interleavings of the same histories leave registries that answer alike. -/
theorem queries_order_independent (address : ConnectionId → IpAddr) (replicationFactor : Int)
    (first second : List Event)
    (histories : ∀ connectionId, inputs connectionId first = inputs connectionId second) :
    (∀ fileName, (registry address replicationFactor first).getChunksForFile fileName =
      (registry address replicationFactor second).getChunksForFile fileName) ∧
    (∀ fileName chunkId ip,
      ip ∈ (registry address replicationFactor first).getLocation fileName chunkId ↔
        ip ∈ (registry address replicationFactor second).getLocation fileName chunkId) ∧
    (∀ name, name ∈ (registry address replicationFactor first).getFileList ↔
      name ∈ (registry address replicationFactor second).getFileList) := by
  have same : ∀ connection,
      connection ∈ (registry address replicationFactor first).connections ↔
        connection ∈ (registry address replicationFactor second).connections := by
    intro connection
    rw [mem_iff_mem_entries, mem_iff_mem_entries, registry_entries, registry_entries, histories]
  exact ⟨getChunksForFile_congr same, getLocation_congr same, getFileList_congr same⟩

def otherFirst : List Event := [
  ⟨"b", healthInput []⟩,
  ⟨"b", joinInput⟩,
  ⟨"a", joinInput⟩,
  ⟨"a", healthInput [⟨ascii "f", [0]⟩]⟩,
  ⟨"b", .closed⟩,
  ⟨"a", joinInput⟩]

theorem otherFirst_inputs (connectionId : ConnectionId) :
    inputs connectionId twoConnections = inputs connectionId otherFirst := by
  by_cases a : "a" = connectionId
  · subst a
    decide
  · by_cases b : "b" = connectionId
    · subst b
      decide
    · simp [inputs, twoConnections, otherFirst, a, b]

theorem queries_order_independent_otherFirst :
    (∀ fileName, (registry (fun _ => .v4 0) 1 twoConnections).getChunksForFile fileName =
      (registry (fun _ => .v4 0) 1 otherFirst).getChunksForFile fileName) ∧
    (∀ fileName chunkId ip,
      ip ∈ (registry (fun _ => .v4 0) 1 twoConnections).getLocation fileName chunkId ↔
        ip ∈ (registry (fun _ => .v4 0) 1 otherFirst).getLocation fileName chunkId) ∧
    (∀ name, name ∈ (registry (fun _ => .v4 0) 1 twoConnections).getFileList ↔
      name ∈ (registry (fun _ => .v4 0) 1 otherFirst).getFileList) :=
  queries_order_independent (fun _ => .v4 0) 1 twoConnections otherFirst otherFirst_inputs

end Order

end DistributedFileSystem.Master
