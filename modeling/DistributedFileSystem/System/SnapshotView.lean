import DistributedFileSystem.Library.Positions
import DistributedFileSystem.Library.Transition
import DistributedFileSystem.Master.TcpHandler
import DistributedFileSystem.StorageLayer.FileState

/-!
One storage node and the master, joined by a channel that keeps the order of
the messages: what the master holds of the table of the node.
-/

namespace DistributedFileSystem.System

open ByteString Master Positions StorageLayer Transition

structure World where
  table : StorageStateOuter
  channel : List MsgType
  master : Handler

inductive Action where
  | insert (allocated : Bool) (filePath : Bytes) (chunkId : Int32) (directoryHasFile : Bool)
  | remove (filePath : Bytes)
  | send
  | deliver
  deriving DecidableEq, Repr

structure Observation where
  table : StorageStateOuter
  taken : Option MsgType
  deriving DecidableEq, Repr

abbrev Trace := List (Action × Observation)

section Steps

variable (connectionId : ConnectionId) (address : ConnectionId → IpAddr)

def observe (taken : Option MsgType) (world : World) : Observation × World :=
  ({ table := world.table, taken := taken }, world)

def step (world : World) : Action → Option (Observation × World)
  | .insert allocated filePath chunkId directoryHasFile =>
      (insertToStruct allocated world.table filePath chunkId directoryHasFile).map fun table =>
        observe none { world with table := table }
  | .remove filePath => some (observe none { world with table := removeFromStruct world.table filePath })
  | .send =>
      some (observe none { world with
        channel := world.channel ++ [returnCurrentState world.table] })
  | .deliver =>
      match world.channel with
      | [] => some (observe none world)
      | message :: rest =>
          some (observe (some message) { world with
            channel := rest
            master := handle address world.master ⟨connectionId, .frame (some (some message))⟩ })

structure World.Initial (world : World) : Prop where
  channel : world.channel = [.join]
  unknown : world.master.tcpStorage.find connectionId = none

def view (world : World) : Option (List FileMappings) :=
  (world.master.tcpStorage.find connectionId).map ConnectionData.filesToChunks

end Steps

def isSend (event : Action × Observation) : Bool := event.1 = .send

def sendTimes (trace : Trace) : List Nat := positions isSend trace

def tableAt (history : Trace) (time : Nat) : Option StorageStateOuter :=
  (history[time]?).map fun event => event.2.table

def taken (trace : Trace) : List MsgType := trace.filterMap fun event => event.2.taken

def processed (trace : Trace) : Nat := (taken trace).countP fun message => message ≠ .join

/-- When the `Health` message was sent that was processed last. -/
def viewTime (trace : Trace) : Option Nat :=
  match processed trace with
  | 0 => none
  | count + 1 => (sendTimes trace)[count]?

def mappings (table : StorageStateOuter) : List FileMappings :=
  table.fileToChunkState.map mappingOf

def sent (trace : Trace) : List StorageStateOuter :=
  (trace.filter isSend).map fun event => event.2.table

theorem sent_concat (trace : Trace) (event : Action × Observation) :
    sent (trace ++ [event]) = sent trace ++ if isSend event then [event.2.table] else [] := by
  cases same : isSend event <;> simp [sent, same]

theorem taken_concat (trace : Trace) (event : Action × Observation) :
    taken (trace ++ [event]) = taken trace ++ event.2.taken.toList := by
  cases same : event.2.taken <;> simp [taken, same]

theorem tableAt_sendTimes (trace : Trace) : (sendTimes trace).map (tableAt trace) =
    (sent trace).map some := by
  induction trace using List.reverseRecOn with
  | nil => rfl
  | append_singleton trace event ih =>
      have earlier : (sendTimes trace).map (tableAt (trace ++ [event])) =
          (sendTimes trace).map (tableAt trace) := by
        rw [List.map_inj_left]
        intro time member
        rw [tableAt, tableAt, List.getElem?_append_left (positions_lt _ member)]
      rw [sendTimes, positions_concat, ← sendTimes, sent_concat, List.map_append, List.map_append,
        earlier, ih]
      cases isSend event with
      | false => rfl
      | true => simp [tableAt]

/-- All that was sent, in order, is what was taken and what is on its way; the
master holds the last report of what was taken. -/
structure Synced (connectionId : ConnectionId) (trace : Trace) (world : World) : Prop where
  order : .join :: (sent trace).map (fun table => .health (mappings table)) =
    taken trace ++ world.channel
  view : view connectionId world =
    (taken trace).getLast?.map fun
      | .join => []
      | .health fileMappings => fileMappings

theorem Synced.start {connectionId : ConnectionId} {world : World}
    (initial : world.Initial connectionId) : Synced connectionId [] world := by
  refine ⟨by simp [initial.channel, sent, taken], ?_⟩
  simp [System.view, initial.unknown, taken]

theorem Synced.idle {connectionId : ConnectionId} {trace : Trace} {world next : World}
    {event : Action × Observation} (synced : Synced connectionId trace world)
    (unsent : isSend event = false) (untaken : event.2.taken = none)
    (channel : next.channel = world.channel) (master : next.master = world.master) :
    Synced connectionId (trace ++ [event]) next := by
  constructor
  · rw [sent_concat, taken_concat, unsent, untaken, channel]
    simpa using synced.order
  · rw [taken_concat, untaken, System.view, master]
    simpa [System.view] using synced.view

theorem Synced.send {connectionId : ConnectionId} {trace : Trace} {world : World}
    (synced : Synced connectionId trace world) :
    Synced connectionId (trace ++ [(.send, ⟨world.table, none⟩)]) { world with
      channel := world.channel ++ [returnCurrentState world.table] } := by
  constructor
  · have order := synced.order
    rw [sent_concat, taken_concat, returnCurrentState_eq]
    simp only [isSend, decide_true, if_true, List.map_append, Option.toList_none,
      List.append_nil, ← List.append_assoc, ← order]
    rfl
  · rw [taken_concat]
    simpa [System.view] using synced.view

theorem Synced.known_iff {connectionId : ConnectionId} {trace : Trace} {world : World}
    (synced : Synced connectionId trace world) :
    (world.master.tcpStorage.find connectionId).isSome ↔ taken trace ≠ [] := by
  have view := congrArg Option.isSome synced.view
  rw [System.view, Option.isSome_map, Option.isSome_map] at view
  rw [view, List.getLast?_isSome]

/-- A `Join` is taken only as the first message. -/
theorem Synced.join_first {connectionId : ConnectionId} {trace : Trace} {world : World}
    {rest : List MsgType} (synced : Synced connectionId trace world)
    (waiting : world.channel = .join :: rest) : taken trace = [] := by
  have order := synced.order
  rw [waiting] at order
  cases earlier : taken trace with
  | nil => rfl
  | cons head tail =>
      rw [earlier, List.cons_append, List.cons.injEq] at order
      have joined : MsgType.join ∈
          (sent trace).map fun table => .health (mappings table) := by
        rw [order.2]
        simp
      simp at joined

theorem Synced.deliver {connectionId : ConnectionId} (address : ConnectionId → IpAddr)
    {trace : Trace} {world : World} {message : MsgType} {rest : List MsgType}
    (synced : Synced connectionId trace world) (waiting : world.channel = message :: rest) :
    Synced connectionId (trace ++ [(.deliver, ⟨world.table, some message⟩)]) { world with
      channel := rest
      master := handle address world.master ⟨connectionId, .frame (some (some message))⟩ } := by
  constructor
  · rw [sent_concat, taken_concat]
    simpa [isSend, waiting] using synced.order
  · have known := synced.known_iff
    have own := handle_find_own address world.master ⟨connectionId, .frame (some (some message))⟩
    rw [taken_concat, System.view]
    simp only [Option.toList_some, List.getLast?_append, List.getLast?_singleton,
      Option.some_or, Option.map_some]
    cases message with
    | join =>
        have unknown : world.master.tcpStorage.find connectionId = none := by
          rw [← Option.not_isSome_iff_eq_none, known, synced.join_first waiting]
          simp
        rw [own, unknown]
        rfl
    | health fileMappings =>
        have reached : taken trace ≠ [] := by
          intro none
          have order := synced.order
          rw [none, waiting] at order
          simp at order
        obtain ⟨entry, found⟩ := Option.isSome_iff_exists.mp (known.mpr reached)
        rw [own, found]
        rfl

theorem Synced.keeps {connectionId : ConnectionId} {address : ConnectionId → IpAddr}
    {trace : Trace} {world next : World} {action : Action} {observation : Observation}
    (synced : Synced connectionId trace world)
    (stepped : step connectionId address world action = some (observation, next)) :
    Synced connectionId (trace ++ [(action, observation)]) next := by
  cases action with
  | insert allocated filePath chunkId directoryHasFile =>
      obtain ⟨table, _, same⟩ := Option.map_eq_some_iff.mp stepped
      obtain ⟨rfl, rfl⟩ := Prod.mk.inj same
      exact synced.idle rfl rfl rfl rfl
  | remove filePath =>
      obtain ⟨rfl, rfl⟩ := Prod.mk.inj (Option.some.inj stepped)
      exact synced.idle rfl rfl rfl rfl
  | send =>
      obtain ⟨rfl, rfl⟩ := Prod.mk.inj (Option.some.inj stepped)
      exact synced.send
  | deliver =>
      rw [step] at stepped
      split at stepped
      · obtain ⟨rfl, rfl⟩ := Prod.mk.inj (Option.some.inj stepped)
        exact synced.idle rfl rfl rfl rfl
      · rename_i message rest waiting
        obtain ⟨rfl, rfl⟩ := Prod.mk.inj (Option.some.inj stepped)
        exact synced.deliver address waiting

theorem run_synced {connectionId : ConnectionId} {address : ConnectionId → IpAddr}
    {world final : World} {actions : List Action} {trace : Trace}
    (initial : world.Initial connectionId)
    (ran : run (step connectionId address) world actions = some (trace, final)) :
    Synced connectionId trace final :=
  @run_invariant _ _ _ (step connectionId address) (Synced connectionId)
    (fun _ _ _ _ _ synced stepped => synced.keeps stepped) actions [] trace world final
    (Synced.start initial) ran

theorem Synced.split {connectionId : ConnectionId} {trace : Trace} {world : World}
    (synced : Synced connectionId trace world) (joined : taken trace ≠ []) :
    ∃ early late, sent trace = early ++ late ∧
      taken trace = .join :: early.map (fun table => .health (mappings table)) ∧
      world.channel = late.map (fun table => .health (mappings table)) ∧
      processed trace = early.length := by
  have order := synced.order
  obtain ⟨first, rest, received⟩ := List.exists_cons_of_ne_nil joined
  rw [received, List.cons_append, List.cons.injEq] at order
  obtain ⟨rfl, order⟩ := order
  obtain ⟨early, late, sends, rfl, waiting⟩ := List.map_eq_append_iff.mp order
  refine ⟨early, late, sends, received, waiting.symm, ?_⟩
  rw [processed, received]
  simp [List.countP_map, Function.comp_def]

theorem sendTimes_length (trace : Trace) : (sendTimes trace).length = (sent trace).length := by
  rw [sendTimes, positions_length, sent, List.length_map, List.countP_eq_length_filter]

theorem Synced.processed_le {connectionId : ConnectionId} {trace : Trace} {world : World}
    (synced : Synced connectionId trace world) : processed trace ≤ (sendTimes trace).length := by
  by_cases joined : taken trace = []
  · simp [processed, joined]
  · obtain ⟨early, late, sends, _, _, count⟩ := synced.split joined
    rw [sendTimes_length, sends, count, List.length_append]
    omega

theorem processed_append (earlier later : Trace) :
    processed earlier ≤ processed (earlier ++ later) := by
  simp [processed, taken, List.filterMap_append]

theorem viewTime_mono {earlier later : Trace} {time : Nat}
    (bound : processed (earlier ++ later) ≤ (sendTimes (earlier ++ later)).length)
    (viewed : viewTime earlier = some time) :
    ∃ next, viewTime (earlier ++ later) = some next ∧ time ≤ next := by
  have more := processed_append earlier later
  obtain ⟨rest, times⟩ := positions_append isSend earlier later
  have increase := positions_increase isSend (earlier ++ later)
  unfold viewTime at viewed ⊢
  unfold sendTimes at viewed bound ⊢
  cases before : processed earlier with
  | zero => simp [before] at viewed
  | succ early =>
      rw [before] at viewed more
      obtain ⟨late, after⟩ := Nat.exists_eq_add_of_le more
      rw [after] at bound ⊢
      have inRange : early + late < (positions isSend (earlier ++ later)).length := by omega
      obtain ⟨short, found⟩ := List.getElem?_eq_some_iff.mp viewed
      have same : (positions isSend (earlier ++ later))[early] = time := by
        simp only [times, List.getElem_append_left short, found]
      have position : early + 1 + late = early + late + 1 := by omega
      refine ⟨(positions isSend (earlier ++ later))[early + late], ?_, ?_⟩
      · rw [position]
        exact List.getElem?_eq_getElem inRange
      · by_cases again : late = 0
        · subst again
          simp [same]
        · have later := List.pairwise_iff_getElem.mp increase early (early + late) (by omega)
            inRange (by omega)
          omega

/-- In every run: once the master has taken the `Join`, it holds nothing for the node
or the table as it was when the last report it took was sent; this time never goes
back; and when nothing is on its way and the table is as it was last sent, it holds
the table of the node. -/
theorem view_is_snapshot (connectionId : ConnectionId) (address : ConnectionId → IpAddr)
    (world final : World) (initial : world.Initial connectionId) (actions : List Action)
    (trace : Trace) (ran : run (step connectionId address) world actions = some (trace, final)) :
    (.join ∈ taken trace →
      (processed trace = 0 ∧ view connectionId final = some []) ∨
      ∃ time table, viewTime trace = some time ∧ tableAt trace time = some table ∧
        view connectionId final = some (mappings table)) ∧
    (∀ earlier later time, trace = earlier ++ later → viewTime earlier = some time →
      ∃ next, viewTime trace = some next ∧ time ≤ next) ∧
    (∀ last, (sendTimes trace).getLast? = some last → final.channel = [] →
      tableAt trace last = some final.table →
      view connectionId final = some (mappings final.table)) := by
  have synced := run_synced initial ran
  have tables := tableAt_sendTimes trace
  refine ⟨?_, ?_, ?_⟩
  · intro joined
    obtain ⟨early, late, sends, received, _, count⟩ :=
      synced.split (List.ne_nil_of_mem joined)
    have viewed := synced.view
    rw [received] at viewed
    rcases List.eq_nil_or_concat' early with rfl | ⟨front, table, rfl⟩
    · exact Or.inl ⟨count, viewed⟩
    · refine Or.inr ?_
      rw [List.length_append, List.length_singleton] at count
      have found : ((sendTimes trace).map (tableAt trace))[front.length]? = some (some table) := by
        rw [tables, sends]
        simp
      rw [List.getElem?_map, Option.map_eq_some_iff] at found
      obtain ⟨time, sentAt, held⟩ := found
      refine ⟨time, table, ?_, held, ?_⟩
      · rw [viewTime, count]
        exact sentAt
      · rw [List.map_append, ← List.cons_append, List.map_singleton,
          List.getLast?_concat] at viewed
        exact viewed
  · rintro earlier later time rfl viewed
    exact viewTime_mono synced.processed_le viewed
  · intro last lastSend delivered same
    have joined : taken trace ≠ [] := by
      intro none
      have order := synced.order
      simp [none, delivered] at order
    obtain ⟨early, late, sends, received, waiting, _⟩ := synced.split joined
    have empty : late = [] := by simpa [delivered] using waiting
    have held : (sent trace).getLast? = some final.table := by
      have ends : ((sendTimes trace).map (tableAt trace)).getLast? = some (tableAt trace last) := by
        rw [List.getLast?_map, lastSend, Option.map_some]
      rw [tables, List.getLast?_map, same, Option.map_eq_some_iff] at ends
      obtain ⟨table, final, equal⟩ := ends
      rw [final, Option.some.inj equal]
    have viewed := synced.view
    rw [sends, empty, List.append_nil] at held
    obtain ⟨front, rfl⟩ := List.getLast?_eq_some_iff.mp held
    rw [received, List.map_append, ← List.cons_append, List.map_singleton,
      List.getLast?_concat] at viewed
    exact viewed

def joining : World := ⟨storageStateInit, [.join], Handler.start 1⟩

def reportAndRemove : List Action :=
  [.deliver, .insert true [97] 0 false, .insert true [97] 1 true, .send, .remove [97], .send,
    .deliver]

theorem view_is_snapshot_reportAndRemove : ∃ trace final,
    run (step "n" fun _ => .v4 0) joining reportAndRemove = some (trace, final) ∧
    view "n" final = some [⟨[97], [0, 1]⟩] ∧ final.table = storageStateInit ∧
    ∃ time table, viewTime trace = some time ∧ tableAt trace time = some table ∧
      view "n" final = some (mappings table) :=
  ⟨_, _, rfl, by decide, by decide,
    ((view_is_snapshot "n" (fun _ => .v4 0) joining _ ⟨rfl, rfl⟩ reportAndRemove _ rfl).1
      (by decide)).resolve_left (by decide)⟩

end DistributedFileSystem.System
