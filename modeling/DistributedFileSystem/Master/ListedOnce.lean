import DistributedFileSystem.Master.Catalogue

/-!
Addresses that are listed twice for a file: a node that has connected again while its
old connection stays registered is reported by both.
-/

namespace DistributedFileSystem.Master

open ByteString TcpStorage

def walked (storage : TcpStorage) (fileName : Bytes) : List ConnectionData :=
  (reporters storage fileName).takeWhile fun connection => connection.ip.toString ≠ fileName

def AddressesDiffer (connections : List ConnectionData) : Prop :=
  connections.Pairwise fun left right => left.ip.toString ≠ right.ip.toString

theorem addressesDiffer_iff_nodup {connections : List ConnectionData} :
    AddressesDiffer connections ↔
      (connections.map fun connection => connection.ip.toString).Nodup := by
  rw [AddressesDiffer, List.Nodup, List.pairwise_map]

theorem getFileLocations_nodup_iff (storage : TcpStorage) (fileName : Bytes) :
    (storage.getFileLocations fileName).Nodup ↔ AddressesDiffer (walked storage fileName) := by
  rw [getFileLocations_eq, foldl_showUntil _ _ _ List.not_mem_nil, List.nil_append,
    addressesDiffer_iff_nodup, walked, List.nodup_append]
  apply and_iff_left
  cases rest : (reporters storage fileName).dropWhile
      fun connection => connection.ip.toString ≠ fileName with
  | nil => simp
  | cons last later =>
      have reads : last.ip.toString = fileName := by
        have stopped := List.head?_dropWhile_not
          (fun connection : ConnectionData => decide (connection.ip.toString ≠ fileName))
          (reporters storage fileName)
        rw [rest, List.head?_cons] at stopped
        simpa using stopped
      refine ⟨List.nodup_singleton _, ?_⟩
      intro earlier shown final own
      obtain ⟨connection, before, rfl⟩ := List.mem_map.mp shown
      have going := List.mem_takeWhile_imp before
      rw [List.mem_singleton.mp own]
      simpa [reads] using going

section Steps

variable {address : ConnectionId → IpAddr} {fileName : Bytes}

theorem changeFirst_cases (connectionId : ConnectionId) (change : ConnectionData → ConnectionData)
    (connections : List ConnectionData) :
    (changeFirst connectionId change connections = connections ∧
      ∀ c ∈ connections, c.connectionId ≠ connectionId) ∨
    ∃ before own after, connections = before ++ own :: after ∧
      own.connectionId = connectionId ∧ (∀ c ∈ before, c.connectionId ≠ connectionId) ∧
      changeFirst connectionId change connections = before ++ change own :: after := by
  induction connections with
  | nil => exact Or.inl ⟨rfl, by simp⟩
  | cons connection rest ih =>
      by_cases same : connection.connectionId = connectionId
      · exact Or.inr ⟨[], connection, rest, rfl, same, by simp, by simp [changeFirst, same]⟩
      · rw [changeFirst, if_neg same]
        rcases ih with ⟨kept, none⟩ | ⟨before, own, after, rfl, named, earlier, changed⟩
        · exact Or.inl ⟨by rw [kept], List.forall_mem_cons.mpr ⟨same, none⟩⟩
        · exact Or.inr ⟨connection :: before, own, after, rfl, named,
            List.forall_mem_cons.mpr ⟨same, earlier⟩, by rw [changed, List.cons_append]⟩

theorem ownEntries_regular (connectionId : ConnectionId) (ip : IpAddr) (received : List Input) :
    (∀ c ∈ ownEntries connectionId ip received, c.ip = ip) ∧
      ∀ c ∈ (ownEntries connectionId ip received).tail, c.filesToChunks = [] := by
  induction received using List.reverseRecOn with
  | nil => exact ⟨by simp [ownEntries], by simp [ownEntries]⟩
  | append_singleton received input ih =>
      rw [ownEntries, List.foldl_concat, ← ownEntries]
      rcases input with (undecoded | unset | joined | fileMappings) | closed
      · exact ih
      · exact ih
      · cases own : ownEntries connectionId ip received with
        | nil => simp [advance]
        | cons first rest =>
            rw [own] at ih
            simp only [advance, List.cons_append, List.tail_cons, List.forall_mem_cons,
              List.forall_mem_append] at ih ⊢
            exact ⟨⟨ih.1.1, ih.1.2, by simp⟩, ih.2, by simp⟩
      · cases own : ownEntries connectionId ip received with
        | nil => simp [advance]
        | cons first rest =>
            rw [own] at ih
            simp only [advance, List.modifyHead_cons, List.tail_cons,
              List.forall_mem_cons] at ih ⊢
            exact ih
      · simp [advance]

structure Regular (address : ConnectionId → IpAddr) (storage : TcpStorage) : Prop where
  located : ∀ c ∈ storage.connections, c.ip = address c.connectionId
  silent : ∀ connectionId, ∀ c ∈ (entries connectionId storage).tail, c.filesToChunks = []

theorem registry_regular (address : ConnectionId → IpAddr) (replicationFactor : Int)
    (events : List Event) : Regular address (registry address replicationFactor events) := by
  constructor
  · intro c member
    rw [mem_iff_mem_entries, registry_entries] at member
    exact (ownEntries_regular _ _ _).1 c member
  · intro connectionId
    rw [registry_entries]
    exact (ownEntries_regular _ _ _).2

/-- A `Health` message that names the file, of a registered connection, comes while no other
connection with the same address reports the file. -/
def FirstAtAddress (address : ConnectionId → IpAddr) (fileName : Bytes) (storage : TcpStorage)
    (event : Event) : Prop :=
  ∀ payload, event.input.report = some payload →
    (∃ mapping ∈ payload, mapping.filename = fileName) →
    (∃ own ∈ storage.connections, own.connectionId = event.connectionId) →
    ∀ other ∈ storage.connections, other.connectionId ≠ event.connectionId →
      other.ip.toString = (address event.connectionId).toString → ¬Reports fileName other

def Apart (fileName : Bytes) (left right : ConnectionData) : Prop :=
  Reports fileName left → Reports fileName right → left.ip.toString ≠ right.ip.toString

theorem addressesDiffer_reporters_iff {storage : TcpStorage} {fileName : Bytes} :
    AddressesDiffer (reporters storage fileName) ↔
      storage.connections.Pairwise (Apart fileName) := by
  simp only [AddressesDiffer, reporters, List.pairwise_filter, decide_eq_true_eq]
  rfl

theorem mem_tail_entries {connectionId : ConnectionId} {before after : List ConnectionData}
    {own other : ConnectionData} (named : own.connectionId = connectionId)
    (earlier : ∀ c ∈ before, c.connectionId ≠ connectionId) (member : other ∈ before ++ after)
    (same : other.connectionId = connectionId) :
    other ∈ ((before ++ own :: after).filter fun c => c.connectionId = connectionId).tail := by
  have later : other ∈ after := by
    rcases List.mem_append.mp member with sooner | later
    · exact absurd same (earlier other sooner)
    · exact later
  have none : before.filter (fun c => c.connectionId = connectionId) = [] := by
    simpa [List.filter_eq_nil_iff] using earlier
  rw [List.filter_append, none, List.nil_append, List.filter_cons_of_pos (by simpa using named),
    List.tail_cons, List.mem_filter]
  exact ⟨later, by simpa using same⟩

theorem FirstAtAddress.kept {handler : Handler} {event : Event}
    (regular : Regular address handler.tcpStorage)
    (first : FirstAtAddress address fileName handler.tcpStorage event)
    (apart : handler.tcpStorage.connections.Pairwise (Apart fileName)) :
    (handle address handler event).tcpStorage.connections.Pairwise (Apart fileName) := by
  obtain ⟨connectionId, input⟩ := event
  match input with
  | .frame none => exact apart
  | .frame (some none) => exact apart
  | .frame (some (some .join)) =>
      rw [handle, TcpStorage.insert, List.pairwise_append]
      refine ⟨apart, List.pairwise_singleton _ _, ?_⟩
      intro earlier _ new own _ reports
      rw [List.mem_singleton.mp own] at reports
      simp [Reports] at reports
  | .frame (some (some (.health payload))) =>
      change (changeFirst connectionId (fun c => c.updateState payload)
        handler.tcpStorage.connections).Pairwise (Apart fileName)
      rcases changeFirst_cases connectionId (fun c => c.updateState payload)
          handler.tcpStorage.connections with ⟨kept, _⟩ |
        ⟨before, own, after, split, named, earlier, changed⟩
      · rw [kept]
        exact apart
      · have fresh : ∀ other ∈ before ++ after, Apart fileName (own.updateState payload) other := by
          intro other member reports otherReports same
          have among : other ∈ handler.tcpStorage.connections := by
            rw [split]
            simp only [List.mem_append, List.mem_cons] at member ⊢
            exact member.imp_right Or.inr
          have present : own ∈ handler.tcpStorage.connections := by simp [split]
          by_cases ours : other.connectionId = connectionId
          · have silent := regular.silent connectionId other (by
              rw [entries, split]
              exact mem_tail_entries named earlier member ours)
            simp [Reports, silent] at otherReports
          · refine first payload rfl reports ⟨own, present, named⟩ other among ours ?_ otherReports
            rw [← same, ← named, ← regular.located own present]
            rfl
        rw [split, List.pairwise_append, List.pairwise_cons] at apart
        obtain ⟨front, ⟨_, back⟩, across⟩ := apart
        rw [changed, List.pairwise_append, List.pairwise_cons]
        refine ⟨front, ⟨fun other later => fresh other (by simp [later]), back⟩, ?_⟩
        intro other sooner next member
        rcases List.mem_cons.mp member with rfl | later
        · intro reports otherReports same
          exact fresh other (by simp [sooner]) otherReports reports same.symm
        · exact across other sooner next (List.mem_cons_of_mem _ later)
  | .closed => exact apart.filter _

/-- A report that breaks the condition makes the next answer repeat an address. -/
theorem repeated_of_not_first {handler : Handler} {event : Event}
    (regular : Regular address handler.tcpStorage)
    (second : ¬FirstAtAddress address fileName handler.tcpStorage event)
    (unlike : ∀ connection ∈ reporters (handle address handler event).tcpStorage fileName,
      connection.ip.toString ≠ fileName) :
    ¬((handle address handler event).tcpStorage.getFileLocations fileName).Nodup := by
  obtain ⟨connectionId, input⟩ := event
  simp only [FirstAtAddress, not_forall, not_not] at second
  obtain ⟨payload, reported, naming, registered, other, among, different, same, reports⟩ := second
  have health : input = healthInput payload := by
    match input with
    | .frame (some (some (.health _))) => rw [healthInput, Option.some.inj reported]
  subst health
  rcases changeFirst_cases connectionId (fun c => c.updateState payload)
      handler.tcpStorage.connections with ⟨_, none⟩ |
    ⟨before, own, after, split, named, _, changed⟩
  · obtain ⟨own, member, named⟩ := registered
    exact absurd named (none own member)
  · have updated : (handle address handler ⟨connectionId, healthInput payload⟩).tcpStorage.connections
        = before ++ own.updateState payload :: after := changed
    have ownIn : own.updateState payload ∈ reporters
        (handle address handler ⟨connectionId, healthInput payload⟩).tcpStorage fileName := by
      rw [mem_reporters, updated]
      exact ⟨by simp, naming⟩
    have otherIn : other ∈ reporters
        (handle address handler ⟨connectionId, healthInput payload⟩).tcpStorage fileName := by
      rw [mem_reporters, updated]
      refine ⟨?_, reports⟩
      rw [split, List.mem_append, List.mem_cons] at among
      rw [List.mem_append, List.mem_cons]
      refine among.imp_right (Or.imp_left ?_)
      rintro rfl
      exact absurd named different
    rw [getFileLocations_nodup_iff, addressesDiffer_iff_nodup, walked,
      List.takeWhile_eq_self_iff.mpr (by simpa using unlike)]
    intro nodup
    have equal := List.inj_on_of_nodup_map nodup ownIn otherIn (by
      rw [same, ← named, ← regular.located own (by simp [split])]
      rfl)
    apply different
    rw [← equal]
    exact named

end Steps

theorem addressesDiffer_reporters (address : ConnectionId → IpAddr) (replicationFactor : Int)
    (fileName : Bytes) (events : List Event)
    (first : ∀ earlier event later, events = earlier ++ event :: later →
      FirstAtAddress address fileName (registry address replicationFactor earlier) event) :
    AddressesDiffer (reporters (registry address replicationFactor events) fileName) := by
  rw [addressesDiffer_reporters_iff]
  induction events using List.reverseRecOn with
  | nil => exact List.Pairwise.nil
  | append_singleton events event ih =>
      rw [registry_concat]
      apply (first events event [] rfl).kept (registry_regular address replicationFactor events)
      apply ih
      rintro earlier other later rfl
      exact first earlier other (later ++ [event]) (by simp)

/-- No address is listed twice exactly when no two connections report the file from one address
before the first whose address reads like its name. Every state of a run is so when
each report of the file comes from the only connection at its address that reports it; a report
that does not is enough to repeat the address. -/
theorem listed_once_iff (address : ConnectionId → IpAddr) (replicationFactor : Int)
    (fileName : Bytes) :
    (∀ storage : TcpStorage, (storage.getFileLocations fileName).Nodup ↔
      AddressesDiffer (walked storage fileName)) ∧
    (∀ events : List Event, (∀ earlier event later, events = earlier ++ event :: later →
        FirstAtAddress address fileName (registry address replicationFactor earlier) event) →
      ∀ reached, reached <+: events →
        ((registry address replicationFactor reached).getFileLocations fileName).Nodup) ∧
    ∀ (earlier : List Event) (event : Event),
      ¬FirstAtAddress address fileName (registry address replicationFactor earlier) event →
      (∀ connection ∈ reporters (registry address replicationFactor (earlier ++ [event])) fileName,
        connection.ip.toString ≠ fileName) →
      ¬((registry address replicationFactor (earlier ++ [event])).getFileLocations
        fileName).Nodup := by
  refine ⟨fun storage => getFileLocations_nodup_iff storage fileName, ?_, ?_⟩
  · rintro _ first reached ⟨later, rfl⟩
    rw [getFileLocations_nodup_iff]
    have differ := addressesDiffer_reporters address replicationFactor fileName reached (by
      rintro earlier event between rfl
      exact first earlier event (between ++ later) (by simp))
    exact differ.sublist (List.takeWhile_sublist _)
  · intro earlier event second unlike
    rw [registry_concat] at unlike ⊢
    exact repeated_of_not_first (registry_regular address replicationFactor earlier) second unlike

def connectedAgain : List Event := [
  ⟨"a", joinInput⟩,
  ⟨"a", healthInput [⟨ascii "f", [0]⟩]⟩,
  ⟨"b", joinInput⟩,
  ⟨"b", healthInput [⟨ascii "f", [0]⟩]⟩,
  ⟨"a", .closed⟩]

theorem connectedAgain_wellFormed : WellFormed connectedAgain := by
  intro connectionId input member same
  subst same
  by_cases a : "a" = connectionId
  · subst a
    revert member
    decide
  · by_cases b : "b" = connectionId
    · subst b
      revert member
      decide
    · simp [inputs, connectedAgain, a, b] at member

theorem connectedAgain_repeats :
    (registry (fun _ => .v4 0x0a000001) 1 (connectedAgain.take 4)).getFileLocations (ascii "f") =
      [ascii "10.0.0.1", ascii "10.0.0.1"] ∧
    ¬∀ (address : ConnectionId → IpAddr) (replicationFactor : Int) (events reached : List Event)
      (fileName : Bytes), WellFormed events → reached <+: events →
      ((registry address replicationFactor reached).getFileLocations fileName).Nodup := by
  have twice : (registry (fun _ => .v4 0x0a000001) 1 (connectedAgain.take 4)).getFileLocations
      (ascii "f") = [ascii "10.0.0.1", ascii "10.0.0.1"] := by decide
  refine ⟨twice, ?_⟩
  intro once
  have nodup := once (fun _ => .v4 0x0a000001) 1 connectedAgain (connectedAgain.take 4) (ascii "f")
    connectedAgain_wellFormed (List.take_prefix 4 _)
  rw [twice] at nodup
  simp at nodup

end DistributedFileSystem.Master
