import DistributedFileSystem.Library.Interleaving
import DistributedFileSystem.Master.ConnectionEntries
import DistributedFileSystem.Master.DataDecode
import DistributedFileSystem.Master.ReadLoop

/-!
The tasks of `accept_connections` (`tcp_connection_to_storage/tcp_handler.rs`) over the bytes
of their sockets: each reads a length and a buffer in turn, as far as its bytes go, while the
other tasks go on too. The registry is what the whole frames of each stream make of it.
-/

namespace DistributedFileSystem.Master

open ByteString Framing Transition

/-- Where a task stands: in `read_u32`, in `read_exact`, or past its loop. -/
inductive Reading where
  | size
  | payload (size : Nat)
  | ended
  deriving DecidableEq, Repr

structure ConnectionTask where
  /-- What the socket has delivered and the task has not read. -/
  unread : Bytes
  /-- The peer has closed: nothing comes after `unread`. -/
  finished : Bool
  reading : Reading
  deriving DecidableEq, Repr

inductive Activity where
  | delivers (bytes : Bytes)
  | finishes
  /-- The read that the task is in fails, as on a reset connection. -/
  | fails
  /-- The task goes on with its read, if the bytes are there. -/
  | reads
  deriving DecidableEq, Repr

namespace ConnectionTask

def start : ConnectionTask := { unread := [], finished := false, reading := .size }

def close (task : ConnectionTask) : Option Input × ConnectionTask :=
  (some .closed, { task with reading := .ended })

/-- A read that has too few bytes waits for more, or fails at the end of the stream. -/
def wait (task : ConnectionTask) : Option Input × ConnectionTask :=
  if task.finished then task.close else (none, task)

def goOn (task : ConnectionTask) : Option Input × ConnectionTask :=
  match task.reading with
  | .ended => (none, task)
  | .size =>
      match readU32 task.unread with
      | some (size, rest) =>
          (none,
            { task with
              unread := rest
              reading := .payload size })
      | none => task.wait
  | .payload size =>
      match readExact size task.unread with
      | some (buf, rest) =>
          (some (.frame (MessageFromStorageToMaster.decode buf)),
            { task with
              unread := rest
              reading := .size })
      | none => task.wait

def act (task : ConnectionTask) : Activity → Option Input × ConnectionTask
  | .delivers bytes =>
      (none, if task.finished then task else { task with unread := task.unread ++ bytes })
  | .finishes => (none, { task with finished := true })
  | .fails => if task.reading = .ended then (none, task) else task.close
  | .reads => task.goOn

end ConnectionTask

structure Turn where
  connectionId : ConnectionId
  activity : Activity
  deriving DecidableEq, Repr

structure Listener where
  handler : Handler
  tasks : ConnectionId → ConnectionTask

def Listener.start (replicationFactor : Int) : Listener where
  handler := Handler.start replicationFactor
  tasks _ := ConnectionTask.start

def turn (address : ConnectionId → IpAddr) (listener : Listener) (turn : Turn) :
    Option (Option Input × Listener) :=
  let acted := (listener.tasks turn.connectionId).act turn.activity
  some (acted.1,
    { handler := serve address listener.handler
        (acted.1.toList.map fun input => ⟨turn.connectionId, input⟩)
      tasks := Function.update listener.tasks turn.connectionId acted.2 })

def handled (trace : List (Turn × Option Input)) : List Event :=
  trace.flatMap fun entry => entry.2.toList.map fun input => ⟨entry.1.connectionId, input⟩

def activities (connectionId : ConnectionId) (turns : List Turn) : List Activity :=
  (ofParty Turn.connectionId connectionId turns).map Turn.activity

def delivered : List Activity → Bytes
  | [] => []
  | .delivers bytes :: rest => bytes ++ delivered rest
  | .finishes :: _ => []
  | _ :: rest => delivered rest

def frameInput (buf : Bytes) : Input := .frame (MessageFromStorageToMaster.decode buf)

def ConnectionTask.Idle (task : ConnectionTask) : Prop := task.goOn = (none, task)

def remaining : Reading → Bytes → List Bytes
  | .size, stream => readLoop stream
  | .payload size, stream =>
      match readExact size stream with
      | some (buf, rest) => buf :: readLoop rest
      | none => []
  | .ended, _ => []

theorem readLoop_of_size {stream rest : Bytes} {size : Nat}
    (read : readU32 stream = some (size, rest)) :
    readLoop stream = remaining (.payload size) rest := by
  have framed := readFrame_of_size read
  cases found : readExact size rest with
  | none =>
      rw [found] at framed
      rw [readLoop_of_cut framed]
      simp only [remaining, found]
  | some pair =>
      obtain ⟨buf, later⟩ := pair
      rw [found] at framed
      rw [readLoop_of_frame framed]
      simp only [remaining, found]

theorem readLoop_extend (stream more : Bytes) : readLoop stream <+: readLoop (stream ++ more) := by
  induction stream using readLoop.induct with
  | case1 stream buf rest found ih =>
      rw [readLoop_of_frame found, readLoop_of_frame (readFrame_extend found more)]
      exact List.cons_prefix_cons.mpr ⟨rfl, ih⟩
  | case2 stream found =>
      rw [readLoop_of_cut found]
      exact List.nil_prefix

section Activities

theorem delivered_concat (own : List Activity) (activity : Activity) :
    delivered (own ++ [activity]) = delivered own ++
      if .finishes ∈ own then [] else match activity with
        | .delivers bytes => bytes
        | _ => [] := by
  induction own with
  | nil => cases activity <;> simp [delivered]
  | cons first own ih =>
      cases first with
      | delivers bytes => simp [delivered, ih, List.append_assoc]
      | finishes => simp [delivered]
      | fails => simp [delivered, ih]
      | reads => simp [delivered, ih]

end Activities

theorem goOn_cases (task : ConnectionTask) :
    task.goOn = (none, task) ∧
        (task.reading = .ended ∨
          task.finished = false ∧ remaining task.reading task.unread = []) ∨
      (∃ size rest, task.reading = .size ∧ readU32 task.unread = some (size, rest) ∧
        task.goOn = (none, ⟨rest, task.finished, .payload size⟩)) ∨
      (∃ size buf rest, task.reading = .payload size ∧
        readExact size task.unread = some (buf, rest) ∧
        task.goOn = (some (frameInput buf), ⟨rest, task.finished, .size⟩)) ∨
      task.finished = true ∧ task.reading ≠ .ended ∧ remaining task.reading task.unread = [] ∧
        task.goOn = task.close := by
  obtain ⟨unread, finished, reading⟩ := task
  cases reading with
  | ended => exact Or.inl ⟨rfl, Or.inl rfl⟩
  | size =>
      cases read : readU32 unread with
      | some pair =>
          obtain ⟨size, rest⟩ := pair
          refine Or.inr (Or.inl ⟨size, rest, rfl, rfl, ?_⟩)
          simp only [ConnectionTask.goOn, read]
      | none =>
          have nothing : readLoop unread = [] := readLoop_of_cut (by rw [readFrame, read])
          cases finished with
          | false => exact Or.inl ⟨by simp [ConnectionTask.goOn, read, ConnectionTask.wait],
              Or.inr ⟨rfl, nothing⟩⟩
          | true => exact Or.inr (Or.inr (Or.inr ⟨rfl, by simp, nothing,
              by simp [ConnectionTask.goOn, read, ConnectionTask.wait]⟩))
  | payload size =>
      cases read : readExact size unread with
      | some pair =>
          obtain ⟨buf, rest⟩ := pair
          refine Or.inr (Or.inr (Or.inl ⟨size, buf, rest, rfl, read, ?_⟩))
          simp only [ConnectionTask.goOn, read, frameInput]
      | none =>
          have nothing : remaining (.payload size) unread = [] := by simp only [remaining, read]
          cases finished with
          | false => exact Or.inl ⟨by simp [ConnectionTask.goOn, read, ConnectionTask.wait],
              Or.inr ⟨rfl, nothing⟩⟩
          | true => exact Or.inr (Or.inr (Or.inr ⟨rfl, by simp, nothing,
              by simp [ConnectionTask.goOn, read, ConnectionTask.wait]⟩))

/-- What a task has come to when its connection has seen these activities: it has handed on the
buffers, and it will fill the others of its stream. -/
structure HasRead (own : List Activity) (task : ConnectionTask) (bufs : List Bytes) : Prop where
  finished : task.finished = true ↔ .finishes ∈ own
  goesOn : task.reading ≠ .ended → ∀ more, (task.finished = true → more = []) →
    readLoop (delivered own ++ more) = bufs ++ remaining task.reading (task.unread ++ more)
  part : bufs <+: readLoop (delivered own)
  whole : task.reading = .ended → .fails ∉ own →
    task.finished = true ∧ bufs = readLoop (delivered own)

theorem HasRead.start : HasRead [] ConnectionTask.start [] where
  finished := by simp [ConnectionTask.start]
  goesOn _ more _ := rfl
  part := List.nil_prefix
  whole ended := by simp [ConnectionTask.start] at ended

def closing (task : ConnectionTask) : List Input := if task.reading = .ended then [.closed] else []

theorem closing_congr {task next : ConnectionTask} (same : task.reading = next.reading) :
    closing task = closing next := by
  rw [closing, closing, same]

section Act

variable {own : List Activity} {task : ConnectionTask} {bufs : List Bytes}

theorem delivered_reads (own : List Activity) : delivered (own ++ [.reads]) = delivered own := by
  rw [delivered_concat]
  split <;> simp

theorem HasRead.idle {activity : Activity} (hasRead : HasRead own task bufs)
    (same : delivered (own ++ [activity]) = delivered own)
    (finishes : activity = .finishes → .finishes ∈ own) :
    HasRead (own ++ [activity]) task (bufs ++ []) := by
  rw [List.append_nil]
  refine ⟨?_, ?_, ?_, ?_⟩
  · rw [hasRead.finished, List.mem_append, List.mem_singleton]
    exact ⟨Or.inl, fun either => either.elim id fun last => finishes last.symm⟩
  · rw [same]
    exact hasRead.goesOn
  · rw [same]
    exact hasRead.part
  · intro ended calm
    rw [same]
    exact hasRead.whole ended fun failed => calm (List.mem_append_left _ failed)

theorem HasRead.goOn (hasRead : HasRead own task bufs) :
    ∃ filled, HasRead (own ++ [.reads]) task.goOn.2 (bufs ++ filled) ∧
      closing task ++ task.goOn.1.toList = filled.map frameInput ++ closing task.goOn.2 := by
  have same := delivered_reads own
  rcases goOn_cases task with ⟨still, _⟩ | ⟨size, rest, reading, read, went⟩ |
    ⟨size, buf, rest, reading, read, went⟩ | ⟨finished, ongoing, nothing, went⟩
  · rw [still]
    exact ⟨[], hasRead.idle same (by simp), by simp⟩
  · rw [went]
    refine ⟨[], ⟨by simp [hasRead.finished], ?_, ?_, ?_⟩, ?_⟩
    · intro _ more last
      rw [same, List.append_nil, hasRead.goesOn (by simp [reading]) more last, reading]
      exact congrArg (bufs ++ ·) (readLoop_of_size (readU32_extend read more))
    · rw [same, List.append_nil]
      exact hasRead.part
    · simp
    · simp [closing, reading]
  · rw [went]
    have goesOn : ∀ more, (task.finished = true → more = []) →
        readLoop (delivered own ++ more) = bufs ++ [buf] ++ readLoop (rest ++ more) := by
      intro more last
      rw [hasRead.goesOn (by simp [reading]) more last, reading, remaining]
      simp only [readExact_extend read more, List.append_assoc, List.singleton_append]
    refine ⟨[buf], ⟨by simp [hasRead.finished], ?_, ?_, ?_⟩, ?_⟩
    · intro _ more last
      rw [same]
      exact goesOn more last
    · rw [same, ← List.append_nil (delivered own), goesOn [] fun _ => rfl]
      exact List.prefix_append _ _
    · simp
    · simp [closing, reading]
  · rw [went]
    refine ⟨[], ⟨by simp [ConnectionTask.close, hasRead.finished], ?_, ?_, ?_⟩, ?_⟩
    · simp [ConnectionTask.close]
    · rw [same, List.append_nil]
      exact hasRead.part
    · intro _ _
      have all := hasRead.goesOn ongoing [] fun _ => rfl
      rw [List.append_nil, List.append_nil, nothing, List.append_nil] at all
      exact ⟨finished, by rw [same, List.append_nil, all]⟩
    · simp [closing, ongoing, ConnectionTask.close]

theorem HasRead.act (hasRead : HasRead own task bufs) (activity : Activity) :
    ∃ filled, HasRead (own ++ [activity]) (task.act activity).2 (bufs ++ filled) ∧
      closing task ++ (task.act activity).1.toList =
        filled.map frameInput ++ closing (task.act activity).2 := by
  cases activity with
  | reads => exact hasRead.goOn
  | delivers bytes =>
      refine ⟨[], ?_, ?_⟩
      · cases finished : task.finished with
        | true =>
            have past := hasRead.finished.mp finished
            have same : delivered (own ++ [.delivers bytes]) = delivered own := by
              rw [delivered_concat, if_pos past, List.append_nil]
            simp only [ConnectionTask.act, finished, if_true]
            exact hasRead.idle same (by simp)
        | false =>
            have unfinished : .finishes ∉ own := fun past => by simp [hasRead.finished.mpr past] at finished
            have more : delivered (own ++ [.delivers bytes]) = delivered own ++ bytes := by
              rw [delivered_concat, if_neg unfinished]
            simp only [ConnectionTask.act, finished, Bool.false_eq_true, if_false]
            refine ⟨by simp [unfinished], ?_, ?_, ?_⟩
            · intro ongoing later _
              rw [more, List.append_nil, List.append_assoc, List.append_assoc]
              exact hasRead.goesOn ongoing (bytes ++ later) (by simp [finished])
            · rw [more, List.append_nil]
              exact hasRead.part.trans (readLoop_extend _ _)
            · intro ended calm
              have past := (hasRead.whole ended (by simpa using calm)).1
              simp [finished] at past
      · rw [ConnectionTask.act, Option.toList_none, List.append_nil, List.map_nil, List.nil_append]
        apply closing_congr
        split <;> rfl
  | finishes =>
      have same : delivered (own ++ [.finishes]) = delivered own := by
        rw [delivered_concat]
        split <;> simp
      refine ⟨[], ⟨by simp [ConnectionTask.act], ?_, ?_, ?_⟩, ?_⟩
      · intro ongoing more last
        obtain rfl := last rfl
        rw [same, List.append_nil bufs]
        exact hasRead.goesOn ongoing [] fun _ => rfl
      · rw [same, List.append_nil]
        exact hasRead.part
      · intro ended calm
        rw [same, List.append_nil]
        exact ⟨rfl, (hasRead.whole ended (by simpa using calm)).2⟩
      · rw [ConnectionTask.act, Option.toList_none, List.append_nil, List.map_nil, List.nil_append]
        exact closing_congr rfl
  | fails =>
      have same : delivered (own ++ [.fails]) = delivered own := by
        rw [delivered_concat]
        split <;> simp
      by_cases ended : task.reading = .ended
      · simp only [ConnectionTask.act, ended, if_true]
        refine ⟨[], hasRead.idle same (by simp), by simp⟩
      · simp only [ConnectionTask.act, ended, if_false]
        refine ⟨[], ⟨by simp [ConnectionTask.close, hasRead.finished], ?_, ?_, ?_⟩,
          by simp [closing, ended, ConnectionTask.close]⟩
        · simp [ConnectionTask.close]
        · rw [same, List.append_nil]
          exact hasRead.part
        · intro _ calm
          simp at calm

end Act

theorem ConnectionTask.Idle.next {task : ConnectionTask} (idle : task.Idle) :
    task.goOn.2.Idle := by
  have still := idle
  rw [ConnectionTask.Idle] at still
  rwa [still]

theorem ConnectionTask.Idle.cases {task : ConnectionTask} (idle : task.Idle) :
    task.reading = .ended ∨ task.finished = false ∧ remaining task.reading task.unread = [] := by
  rcases goOn_cases task with ⟨_, waits⟩ | ⟨size, rest, reading, _, went⟩ |
    ⟨size, buf, rest, _, _, went⟩ | ⟨_, _, _, went⟩
  · exact waits
  · rw [ConnectionTask.Idle, went] at idle
    rw [← (Prod.mk.inj idle).2] at reading
    contradiction
  · rw [ConnectionTask.Idle, went] at idle
    simp at idle
  · rw [ConnectionTask.Idle, went] at idle
    simp [ConnectionTask.close] at idle

/-- Of the whole frames of its stream, those that a task has not handed on are the ones it
will still read. -/
theorem HasRead.left {own : List Activity} {task : ConnectionTask} {bufs : List Bytes}
    (hasRead : HasRead own task bufs) (ongoing : task.reading ≠ .ended) :
    readLoop (delivered own) = bufs ++ remaining task.reading task.unread := by
  have all := hasRead.goesOn ongoing [] fun _ => rfl
  rwa [List.append_nil, List.append_nil] at all

/-- A task that has nothing left to read has handed on the whole frames of its stream, and the
end if the peer has closed. -/
theorem HasRead.of_idle {own : List Activity} {task : ConnectionTask} {bufs : List Bytes}
    (hasRead : HasRead own task bufs) (idle : task.Idle) (calm : .fails ∉ own) :
    bufs = readLoop (delivered own) ∧
      closing task = if .finishes ∈ own then [.closed] else [] := by
  by_cases ended : task.reading = .ended
  · obtain ⟨finished, whole⟩ := hasRead.whole ended calm
    exact ⟨whole, by rw [closing, if_pos ended, if_pos (hasRead.finished.mp finished)]⟩
  · obtain ⟨finished, nothing⟩ := idle.cases.resolve_left ended
    have unfinished : .finishes ∉ own := fun past => by
      simp [hasRead.finished.mpr past] at finished
    have all := hasRead.left ended
    rw [nothing, List.append_nil] at all
    exact ⟨all.symm, by rw [closing, if_neg ended, if_neg unfinished]⟩

def ConnectionTask.left (task : ConnectionTask) : Nat :=
  match task.reading with
  | .ended => 0
  | .size => 2 * task.unread.length + 1
  | .payload _ => 2 * task.unread.length + 2

theorem goOn_left (task : ConnectionTask) : task.Idle ∨ task.goOn.2.left < task.left := by
  rcases goOn_cases task with ⟨still, _⟩ | ⟨size, rest, reading, read, went⟩ |
    ⟨size, buf, rest, reading, read, went⟩ | ⟨_, ongoing, _, went⟩
  · exact Or.inl still
  · have shorter := readU32_length read
    refine Or.inr ?_
    simp only [went, ConnectionTask.left, reading]
    omega
  · have shorter := readExact_length read
    refine Or.inr ?_
    simp only [went, ConnectionTask.left, reading]
    omega
  · refine Or.inr ?_
    rw [went]
    cases reading : task.reading with
    | ended => exact absurd reading ongoing
    | size => simp [ConnectionTask.close, ConnectionTask.left, reading]
    | payload size => simp [ConnectionTask.close, ConnectionTask.left, reading]

section Run

variable {address : ConnectionId → IpAddr} {replicationFactor : Int}

structure Tracked (address : ConnectionId → IpAddr) (replicationFactor : Int)
    (history : List (Turn × Option Input)) (listener : Listener) : Prop where
  handler : listener.handler = serve address (Handler.start replicationFactor) (handled history)
  streams : ∀ connectionId, ∃ bufs,
    HasRead (activities connectionId (history.map Prod.fst)) (listener.tasks connectionId) bufs ∧
    inputs connectionId (handled history) =
      bufs.map frameInput ++ closing (listener.tasks connectionId)

theorem start_tracked : Tracked address replicationFactor [] (Listener.start replicationFactor) :=
  ⟨rfl, fun _ => ⟨[], HasRead.start, rfl⟩⟩

theorem activities_concat (connectionId : ConnectionId) (turns : List Turn) (turn : Turn) :
    activities connectionId (turns ++ [turn]) = activities connectionId turns ++
      if turn.connectionId = connectionId then [turn.activity] else [] := by
  unfold activities ofParty
  rw [List.filter_append, List.map_append]
  by_cases own : turn.connectionId = connectionId
  · simp [own]
  · simp [own]

theorem handled_concat (history : List (Turn × Option Input)) (event : Turn × Option Input) :
    handled (history ++ [event]) = handled history ++
      event.2.toList.map fun input => ⟨event.1.connectionId, input⟩ := by
  simp [handled]

theorem inputs_handedOn (connectionId other : ConnectionId) (input : Option Input) :
    inputs connectionId (input.toList.map fun input => ⟨other, input⟩) =
      if other = connectionId then input.toList else [] := by
  cases input with
  | none => simp [inputs]
  | some input =>
      by_cases own : other = connectionId
      · simp [inputs, own]
      · simp [inputs, own]

theorem Tracked.turn {history : List (Turn × Option Input)} {listener next : Listener}
    {action : Turn} {output : Option Input}
    (tracked : Tracked address replicationFactor history listener)
    (turned : turn address listener action = some (output, next)) :
    Tracked address replicationFactor (history ++ [(action, output)]) next := by
  simp only [Master.turn, Option.some.injEq, Prod.mk.injEq] at turned
  obtain ⟨rfl, rfl⟩ := turned
  constructor
  · simp only [handled_concat, serve, List.foldl_append, tracked.handler]
  · intro connectionId
    obtain ⟨bufs, hasRead, received⟩ := tracked.streams connectionId
    rw [List.map_append, List.map_singleton, activities_concat, handled_concat, inputs_append,
      received]
    by_cases own : action.connectionId = connectionId
    · subst own
      obtain ⟨filled, still, handsOn⟩ := hasRead.act action.activity
      refine ⟨bufs ++ filled, ?_, ?_⟩
      · simpa using still
      · simp only [inputs_handedOn, Function.update_self, if_true, List.map_append,
          List.append_assoc, handsOn]
    · refine ⟨bufs, ?_, ?_⟩
      · simpa [own, Function.update_of_ne (Ne.symm own)] using hasRead
      · simp only [inputs_handedOn, own, Function.update_of_ne (Ne.symm own), if_false,
          List.append_nil]

theorem Tracked.wellFormed {history : List (Turn × Option Input)} {listener : Listener}
    (tracked : Tracked address replicationFactor history listener) :
    WellFormed (handled history) := by
  intro connectionId input member
  obtain ⟨bufs, _, received⟩ := tracked.streams connectionId
  rw [received] at member
  have framed : input ∈ bufs.map frameInput := by
    unfold closing at member
    split at member
    · simpa using member
    · rw [List.append_nil] at member
      exact List.dropLast_subset _ member
  obtain ⟨buf, _, rfl⟩ := List.mem_map.mp framed
  simp [frameInput]

theorem run_turns (listener : Listener) (turns : List Turn) :
    ∃ trace final, run (turn address) listener turns = some (trace, final) ∧
      trace.map Prod.fst = turns := by
  induction turns generalizing listener with
  | nil => exact ⟨[], listener, rfl, rfl⟩
  | cons action rest ih =>
      obtain ⟨trace, final, ran, same⟩ := ih _
      exact ⟨_, final, run_cons_of_step rfl ran, by rw [List.map_cons, same]⟩

theorem run_tracked (address : ConnectionId → IpAddr) (replicationFactor : Int)
    (turns : List Turn) :
    ∃ trace final, run (turn address) (Listener.start replicationFactor) turns =
        some (trace, final) ∧ trace.map Prod.fst = turns ∧
      Tracked address replicationFactor trace final := by
  obtain ⟨trace, final, ran, same⟩ := @run_turns address (Listener.start replicationFactor) turns
  have tracked : Tracked address replicationFactor ([] ++ trace) final :=
    @run_invariant _ _ _ _ (Tracked address replicationFactor) (fun _ _ _ _ _ => Tracked.turn)
      _ _ _ _ _ start_tracked ran
  exact ⟨trace, final, ran, same, tracked⟩

theorem Tracked.entries {history : List (Turn × Option Input)} {listener : Listener}
    (tracked : Tracked address replicationFactor history listener) {connectionId : ConnectionId}
    {bufs : List Bytes} (received : inputs connectionId (handled history) =
      bufs.map frameInput ++ closing (listener.tasks connectionId)) :
    entries connectionId listener.handler.tcpStorage =
      ownEntries connectionId (address connectionId)
        (bufs.map frameInput ++ closing (listener.tasks connectionId)) := by
  rw [tracked.handler, ← received]
  exact registry_entries address replicationFactor connectionId (handled history)

theorem idle_of_left {task : ConnectionTask} (spent : task.left = 0) : task.Idle := by
  obtain ⟨unread, finished, reading⟩ := task
  cases reading with
  | ended => rfl
  | size => simp [ConnectionTask.left] at spent
  | payload size => simp [ConnectionTask.left] at spent

theorem run_reads_idle (listener : Listener) (connectionId : ConnectionId) (count : Nat)
    (enough : (listener.tasks connectionId).Idle ∨ (listener.tasks connectionId).left ≤ count) :
    ∃ trace final, run (turn address) listener (List.replicate count ⟨connectionId, .reads⟩) =
      some (trace, final) ∧ (final.tasks connectionId).Idle := by
  induction count generalizing listener with
  | zero =>
      exact ⟨[], listener, rfl, enough.elim id fun spent => idle_of_left (Nat.le_zero.mp spent)⟩
  | succ count ih =>
      have later : ((listener.tasks connectionId).goOn.2).Idle ∨
          ((listener.tasks connectionId).goOn.2).left ≤ count := by
        rcases goOn_left (listener.tasks connectionId) with idle | less
        · exact Or.inl idle.next
        · exact enough.imp (fun idle => idle.next) fun bound => by omega
      obtain ⟨trace, final, ran, idle⟩ := ih
        { handler := serve address listener.handler
            ((listener.tasks connectionId).goOn.1.toList.map fun input => ⟨connectionId, input⟩)
          tasks := Function.update listener.tasks connectionId
            (listener.tasks connectionId).goOn.2 }
        (by simpa using later)
      exact ⟨_, final, run_cons_of_step rfl ran, idle⟩

/-- Whatever the pieces in which the streams arrive and the order in which the tasks go on: the
registry is that of the events of the tasks, no connection has an event after its end, and each
connection has the entries that the whole frames of its own stream make, as far as its task has
read: the others are those that it will still read, of which none are left when it has nothing
to do, which it comes to by itself. -/
theorem registry_of_streams (address : ConnectionId → IpAddr) (replicationFactor : Int)
    (turns : List Turn) :
    ∃ trace final, run (turn address) (Listener.start replicationFactor) turns =
        some (trace, final) ∧
      final.handler = serve address (Handler.start replicationFactor) (handled trace) ∧
      WellFormed (handled trace) ∧
      ∀ connectionId,
        (∃ bufs, bufs <+: readLoop (delivered (activities connectionId turns)) ∧
          inputs connectionId (handled trace) =
            bufs.map frameInput ++ closing (final.tasks connectionId) ∧
          ((final.tasks connectionId).reading ≠ .ended →
            readLoop (delivered (activities connectionId turns)) =
              bufs ++ remaining (final.tasks connectionId).reading
                (final.tasks connectionId).unread) ∧
          entries connectionId final.handler.tcpStorage =
            ownEntries connectionId (address connectionId)
              (bufs.map frameInput ++ closing (final.tasks connectionId))) ∧
        ((final.tasks connectionId).Idle → .fails ∉ activities connectionId turns →
          entries connectionId final.handler.tcpStorage =
            ownEntries connectionId (address connectionId)
              ((readLoop (delivered (activities connectionId turns))).map frameInput ++
                if .finishes ∈ activities connectionId turns then [.closed] else [])) ∧
        ∀ count, 2 * (final.tasks connectionId).unread.length + 2 ≤ count →
          ∃ later last, run (turn address) final
              (List.replicate count ⟨connectionId, .reads⟩) = some (later, last) ∧
            (last.tasks connectionId).Idle := by
  obtain ⟨trace, final, ran, same, tracked⟩ := run_tracked address replicationFactor turns
  refine ⟨trace, final, ran, tracked.handler, tracked.wellFormed, fun connectionId => ?_⟩
  obtain ⟨bufs, hasRead, received⟩ := tracked.streams connectionId
  have own := tracked.entries received
  rw [same] at hasRead
  refine ⟨⟨bufs, hasRead.part, received, hasRead.left, own⟩, ?_, ?_⟩
  · intro idle calm
    obtain ⟨whole, ends⟩ := hasRead.of_idle idle calm
    rw [own, whole, ends]
  · intro count enough
    refine run_reads_idle final connectionId count (Or.inr ?_)
    have bound : (final.tasks connectionId).left ≤
        2 * (final.tasks connectionId).unread.length + 2 := by
      unfold ConnectionTask.left
      split <;> omega
    exact bound.trans enough

end Run

end DistributedFileSystem.Master
