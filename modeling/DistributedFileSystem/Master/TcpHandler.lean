import DistributedFileSystem.Master.StorageUnit
import Mathlib.Data.List.Induction
import Mathlib.Logic.Function.Basic

/-!
The tasks that read from the storage nodes (`tcp_connection_to_storage/tcp_handler.rs`)
and the registry they share, under any interleaving of their connections.
-/

namespace DistributedFileSystem.Master

/-- What the task of a connection comes to next: a frame as it is decoded (`none`
for an undecodable one, `some none` for an empty one), or the end. -/
inductive Input where
  | frame (decoded : Option (Option MsgType))
  | closed
  deriving DecidableEq, Repr

structure Event where
  connectionId : ConnectionId
  input : Input
  deriving DecidableEq, Repr

structure Handler where
  tcpStorage : TcpStorage
  sharedConnState : ConnectionId → Bool

def Handler.start (replicationFactor : Int) : Handler :=
  { tcpStorage := TcpStorage.new replicationFactor, sharedConnState := fun _ => true }

def handle (address : ConnectionId → IpAddr) (handler : Handler) (event : Event) : Handler :=
  match event.input with
  | .frame none => handler
  | .frame (some none) => handler
  | .frame (some (some .join)) =>
      { tcpStorage := handler.tcpStorage.insert event.connectionId (address event.connectionId)
        sharedConnState := Function.update handler.sharedConnState event.connectionId true }
  | .frame (some (some (.health fileState))) =>
      { handler with
        tcpStorage := handler.tcpStorage.updateState event.connectionId fileState }
  | .closed =>
      { tcpStorage := handler.tcpStorage.remove event.connectionId
        sharedConnState := Function.update handler.sharedConnState event.connectionId false }

def serve (address : ConnectionId → IpAddr) (handler : Handler) (events : List Event) : Handler :=
  events.foldl (handle address) handler

def registry (address : ConnectionId → IpAddr) (replicationFactor : Int) (events : List Event) :
    TcpStorage :=
  (serve address (Handler.start replicationFactor) events).tcpStorage

def joinInput : Input := .frame (some (some .join))

def healthInput (fileMappings : List FileMappings) : Input :=
  .frame (some (some (.health fileMappings)))

def Input.report : Input → Option (List FileMappings)
  | .frame (some (some (.health fileMappings))) => some fileMappings
  | _ => none

def inputs (connectionId : ConnectionId) (events : List Event) : List Input :=
  (events.filter fun event => event.connectionId = connectionId).map Event.input

def WellFormed (events : List Event) : Prop :=
  ∀ connectionId, ∀ input ∈ (inputs connectionId events).dropLast, input ≠ .closed

def Live (connectionId : ConnectionId) (events : List Event) : Prop :=
  joinInput ∈ inputs connectionId events ∧ .closed ∉ inputs connectionId events

def reports (received : List Input) : List (List FileMappings) :=
  (received.dropWhile fun input => input ≠ joinInput).filterMap Input.report

def latestReport (connectionId : ConnectionId) (events : List Event) : List FileMappings :=
  (reports (inputs connectionId events)).getLast?.getD []

theorem inputs_append (connectionId : ConnectionId) (earlier later : List Event) :
    inputs connectionId (earlier ++ later) =
      inputs connectionId earlier ++ inputs connectionId later := by
  simp [inputs]

theorem inputs_own (event : Event) : inputs event.connectionId [event] = [event.input] := by
  simp [inputs]

theorem inputs_other {connectionId : ConnectionId} {event : Event}
    (different : event.connectionId ≠ connectionId) : inputs connectionId [event] = [] := by
  simp [inputs, different]

theorem reports_concat (received : List Input) (input : Input) :
    reports (received ++ [input]) =
      if joinInput ∈ received then reports received ++ input.report.toList else [] := by
  unfold reports
  rw [List.dropWhile_append]
  by_cases joined : joinInput ∈ received
  · have remains : (received.dropWhile fun input => input ≠ joinInput) ≠ [] := by
      rw [ne_eq, List.dropWhile_eq_nil_iff]
      intro all
      simpa using all joinInput joined
    rw [if_neg (by simpa using remains), if_pos joined, List.filterMap_append]
    cases found : input.report <;> simp [found]
  · have gone : (received.dropWhile fun input => input ≠ joinInput) = [] := by
      rw [List.dropWhile_eq_nil_iff]
      intro input member
      rw [decide_eq_true_eq]
      rintro rfl
      exact joined member
    rw [gone, if_pos List.isEmpty_nil, if_neg joined]
    by_cases join : input = joinInput
    · simp [join, joinInput, Input.report]
    · simp [join]

theorem WellFormed.initial {earlier later : List Event}
    (wellFormed : WellFormed (earlier ++ later)) : WellFormed earlier := by
  intro connectionId input member
  apply wellFormed connectionId input
  rw [inputs_append]
  by_cases ended : inputs connectionId later = []
  · simpa [ended] using member
  · rw [List.dropLast_append_of_ne_nil ended]
    exact List.mem_append_left _ ((List.dropLast_sublist _).subset member)

theorem WellFormed.notEnded {earlier later : List Event} {event : Event}
    (wellFormed : WellFormed (earlier ++ event :: later)) :
    .closed ∉ inputs event.connectionId earlier := by
  intro ended
  have rest : inputs event.connectionId (event :: later) ≠ [] := by simp [inputs]
  apply wellFormed event.connectionId .closed _ rfl
  rw [inputs_append, List.dropLast_append_of_ne_nil rest]
  exact List.mem_append_left _ ended

structure Tracks (events : List Event) (storage : TcpStorage) : Prop where
  live : ∀ connectionId, (storage.find connectionId).isSome ↔ Live connectionId events
  report : ∀ connectionId entry, storage.find connectionId = some entry →
    entry.filesToChunks = latestReport connectionId events

theorem handle_others (address : ConnectionId → IpAddr) (handler : Handler) (event : Event) :
    (handle address handler event).tcpStorage.connections.filter
        (fun c => c.connectionId ≠ event.connectionId) =
      handler.tcpStorage.connections.filter fun c => c.connectionId ≠ event.connectionId := by
  obtain ⟨connectionId, input⟩ := event
  match input with
  | .frame none => rfl
  | .frame (some none) => rfl
  | .frame (some (some .join)) => simp [handle, TcpStorage.insert]
  | .frame (some (some (.health fileState))) =>
      exact changeFirst_filter _ fun _ => rfl
  | .closed => simp [handle, TcpStorage.remove]

theorem handle_find_other {address : ConnectionId → IpAddr} {handler : Handler} {event : Event}
    {connectionId : ConnectionId} (different : connectionId ≠ event.connectionId) :
    (handle address handler event).tcpStorage.find connectionId =
      handler.tcpStorage.find connectionId :=
  find_of_filter different (handle_others address handler event)

theorem handle_find_own (address : ConnectionId → IpAddr) (handler : Handler) (event : Event) :
    (handle address handler event).tcpStorage.find event.connectionId =
      match event.input with
      | .frame (some (some .join)) => (handler.tcpStorage.find event.connectionId).or
          (some ⟨event.connectionId, address event.connectionId, []⟩)
      | .frame (some (some (.health fileState))) =>
          (handler.tcpStorage.find event.connectionId).map fun c => c.updateState fileState
      | .closed => none
      | _ => handler.tcpStorage.find event.connectionId := by
  obtain ⟨connectionId, input⟩ := event
  match input with
  | .frame none => rfl
  | .frame (some none) => rfl
  | .frame (some (some .join)) => simp [handle, TcpStorage.insert, TcpStorage.find]
  | .frame (some (some (.health fileState))) =>
      exact changeFirst_find _ fun _ => rfl
  | .closed => simp [handle, TcpStorage.remove, TcpStorage.find]

theorem inputs_concat_other {connectionId : ConnectionId} {events : List Event} {event : Event}
    (different : event.connectionId ≠ connectionId) :
    inputs connectionId (events ++ [event]) = inputs connectionId events := by
  rw [inputs_append, inputs_other different, List.append_nil]

section Handle

variable {address : ConnectionId → IpAddr} {handler : Handler} {events : List Event} {event : Event}

theorem inputs_event (events : List Event) (event : Event) :
    inputs event.connectionId (events ++ [event]) =
      inputs event.connectionId events ++ [event.input] := by
  rw [inputs_append, inputs_own]

theorem Tracks.joined_iff {storage : TcpStorage} {connectionId : ConnectionId}
    (tracks : Tracks events storage) (ongoing : .closed ∉ inputs connectionId events) :
    (storage.find connectionId).isSome ↔ joinInput ∈ inputs connectionId events := by
  rw [tracks.live, Live]
  exact and_iff_left ongoing

theorem Tracks.handle_live (tracks : Tracks events handler.tcpStorage)
    (ongoing : .closed ∉ inputs event.connectionId events) :
    ((handle address handler event).tcpStorage.find event.connectionId).isSome ↔
      Live event.connectionId (events ++ [event]) := by
  have joined := tracks.joined_iff ongoing
  rw [handle_find_own address handler event, Live, inputs_event]
  match event.input with
  | .frame none => simpa [joinInput, ongoing] using joined
  | .frame (some none) => simpa [joinInput, ongoing] using joined
  | .frame (some (some .join)) => simp [joinInput, ongoing]
  | .frame (some (some (.health fileState))) => simpa [joinInput, ongoing] using joined
  | .closed => simp

theorem Tracks.handle_report (tracks : Tracks events handler.tcpStorage)
    (ongoing : .closed ∉ inputs event.connectionId events) {entry : ConnectionData}
    (found : (handle address handler event).tcpStorage.find event.connectionId = some entry) :
    entry.filesToChunks = latestReport event.connectionId (events ++ [event]) := by
  have joined := tracks.joined_iff ongoing
  have before := tracks.report event.connectionId
  rw [handle_find_own address handler event] at found
  rw [latestReport, inputs_event, reports_concat]
  match input : event.input with
  | .frame none =>
      simp only [input] at found
      rw [if_pos (joined.mp (by simp [found]))]
      simpa [Input.report, latestReport] using before entry found
  | .frame (some none) =>
      simp only [input] at found
      rw [if_pos (joined.mp (by simp [found]))]
      simpa [Input.report, latestReport] using before entry found
  | .frame (some (some .join)) =>
      simp only [input] at found
      cases known : handler.tcpStorage.find event.connectionId with
      | some old =>
          rw [known, Option.or_some, Option.getD_some, Option.some.injEq] at found
          rw [if_pos (joined.mp (by simp [known])), ← found]
          simpa [Input.report, latestReport] using before old known
      | none =>
          rw [known, Option.none_or, Option.some.injEq] at found
          have unjoined : joinInput ∉ inputs event.connectionId events := by
            rw [← joined, known]
            simp
          rw [if_neg unjoined, ← found]
          rfl
  | .frame (some (some (.health fileState))) =>
      simp only [input] at found
      obtain ⟨old, known, rfl⟩ := Option.map_eq_some_iff.mp found
      rw [if_pos (joined.mp (by simp [known]))]
      simp [Input.report, ConnectionData.updateState]
  | .closed => simp [input] at found

theorem Tracks.handle (tracks : Tracks events handler.tcpStorage)
    (ongoing : .closed ∉ inputs event.connectionId events) :
    Tracks (events ++ [event]) (handle address handler event).tcpStorage := by
  constructor
  · intro connectionId
    by_cases same : connectionId = event.connectionId
    · rw [same]
      exact tracks.handle_live ongoing
    · rw [handle_find_other same, tracks.live, Live, Live, inputs_concat_other (Ne.symm same)]
  · intro connectionId entry found
    by_cases same : connectionId = event.connectionId
    · subst same
      exact tracks.handle_report ongoing found
    · rw [handle_find_other same] at found
      rw [latestReport, inputs_concat_other (Ne.symm same)]
      exact tracks.report connectionId entry found

end Handle

theorem registry_concat (address : ConnectionId → IpAddr) (replicationFactor : Int)
    (events : List Event) (event : Event) :
    registry address replicationFactor (events ++ [event]) =
      (handle address (serve address (Handler.start replicationFactor) events) event).tcpStorage := by
  simp [registry, serve]

theorem registry_tracks (address : ConnectionId → IpAddr) (replicationFactor : Int)
    (events : List Event) (wellFormed : WellFormed events) :
    Tracks events (registry address replicationFactor events) := by
  induction events using List.reverseRecOn with
  | nil =>
      constructor
      · intro connectionId
        simp [registry, serve, Handler.start, TcpStorage.new, TcpStorage.find, Live, inputs]
      · intro connectionId entry found
        simp [registry, serve, Handler.start, TcpStorage.new, TcpStorage.find] at found
  | append_singleton events event ih =>
      rw [registry_concat]
      exact (ih wellFormed.initial).handle wellFormed.notEnded

theorem mem_ids_iff (storage : TcpStorage) (connectionId : ConnectionId) :
    connectionId ∈ storage.connections.map ConnectionData.connectionId ↔
      (storage.find connectionId).isSome := by
  simp [TcpStorage.find, List.find?_isSome]

theorem live_of_join_first {connectionId : ConnectionId} {earlier later : List Event}
    {report : List FileMappings}
    (wellFormed : WellFormed (earlier ++ ⟨connectionId, healthInput report⟩ :: later))
    (first : (inputs connectionId (earlier ++ ⟨connectionId, healthInput report⟩ :: later)).head? =
      some joinInput) : Live connectionId earlier := by
  refine ⟨?_, wellFormed.notEnded⟩
  rw [inputs_append] at first
  cases received : inputs connectionId earlier with
  | nil =>
      rw [received, List.nil_append] at first
      simp [inputs, healthInput, joinInput] at first
  | cons input rest =>
      simp only [received, List.cons_append, List.head?_cons, Option.some.injEq] at first
      simp [first]

/-- After every step of every interleaving: the registered ids are those of the
connections that have joined and not ended, the entry that would be found has the
latest report, no connection touches another's entries, and after a `Join` that
came first no `Health` is dropped. -/
theorem registry_tracks_connections (address : ConnectionId → IpAddr) (replicationFactor : Int)
    (earlier later : List Event) (wellFormed : WellFormed (earlier ++ later)) :
    (∀ connectionId,
      connectionId ∈ (registry address replicationFactor earlier).connections.map
          ConnectionData.connectionId ↔ Live connectionId earlier) ∧
    (∀ connectionId, Live connectionId earlier →
      ((registry address replicationFactor earlier).find connectionId).map
        ConnectionData.filesToChunks = some (latestReport connectionId earlier)) ∧
    (∀ event,
      (registry address replicationFactor (earlier ++ [event])).connections.filter
          (fun c => c.connectionId ≠ event.connectionId) =
        (registry address replicationFactor earlier).connections.filter
          fun c => c.connectionId ≠ event.connectionId) ∧
    (∀ connectionId report rest, later = ⟨connectionId, healthInput report⟩ :: rest →
      (inputs connectionId (earlier ++ later)).head? = some joinInput →
      ((registry address replicationFactor
        (earlier ++ [⟨connectionId, healthInput report⟩])).find connectionId).map
          ConnectionData.filesToChunks = some report) := by
  have tracks := registry_tracks address replicationFactor earlier wellFormed.initial
  refine ⟨?_, ?_, ?_, ?_⟩
  · intro connectionId
    rw [mem_ids_iff]
    exact tracks.live connectionId
  · intro connectionId live
    obtain ⟨entry, found⟩ := Option.isSome_iff_exists.mp ((tracks.live connectionId).mpr live)
    rw [found, Option.map_some, tracks.report connectionId entry found]
  · intro event
    rw [registry_concat]
    exact handle_others address _ event
  · rintro connectionId report rest rfl first
    have live := live_of_join_first wellFormed first
    obtain ⟨entry, found⟩ := Option.isSome_iff_exists.mp ((tracks.live connectionId).mpr live)
    have own := handle_find_own address (serve address (Handler.start replicationFactor) earlier)
      ⟨connectionId, healthInput report⟩
    rw [registry] at found
    rw [registry_concat, own, found]
    rfl

def twoConnections : List Event := [
  ⟨"a", joinInput⟩,
  ⟨"b", healthInput []⟩,
  ⟨"a", healthInput [⟨ByteString.ascii "f", [0]⟩]⟩,
  ⟨"b", joinInput⟩,
  ⟨"a", joinInput⟩,
  ⟨"b", .closed⟩]

theorem twoConnections_wellFormed : WellFormed (twoConnections ++ [⟨"a", .closed⟩]) := by
  intro connectionId input member same
  subst same
  by_cases a : "a" = connectionId
  · subst a
    revert member
    decide
  · by_cases b : "b" = connectionId
    · subst b
      revert member
      decide
    · simp [inputs, twoConnections, a, b] at member

theorem registry_tracks_twoConnections :
    (∀ connectionId,
      connectionId ∈ (registry (fun _ => .v4 0) 1 twoConnections).connections.map
          ConnectionData.connectionId ↔ Live connectionId twoConnections) ∧
    (registry (fun _ => .v4 0) 1 twoConnections).connections.map ConnectionData.connectionId =
      ["a", "a"] :=
  ⟨(registry_tracks_connections (fun _ => .v4 0) 1 twoConnections [⟨"a", .closed⟩]
    twoConnections_wellFormed).1, by decide⟩

end DistributedFileSystem.Master
