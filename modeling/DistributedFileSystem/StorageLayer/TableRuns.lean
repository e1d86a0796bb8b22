import DistributedFileSystem.StorageLayer.TableLife

/-!
The table in memory over whole runs: the calls of the threads, in any order, against the
list of files, and what `storage_state_destroy` leaves at the end.
-/

namespace DistributedFileSystem.StorageLayer

open ByteString HeapCells Posix Transition

def Block.widen (spare : List Entry) : Block → Block
  | .entries array => .entries (array ++ spare)
  | block => block

namespace TableMemory

def widen (spare : List Entry) (memory : TableMemory) : TableMemory :=
  { memory with
    heap := fun address =>
      if memory.fileToChunkState = some address then
        (memory.heap address).map (Block.widen spare)
      else memory.heap address }

def Wider (spare : List Entry) (memory wider : TableMemory) : Prop := wider = widen spare memory

section Widen

variable {spare : List Entry}

theorem widen_array (memory : TableMemory) :
    (widen spare memory).array = memory.array.map (· ++ spare) := by
  unfold array
  cases current : memory.fileToChunkState with
  | none => simp [widen, current]
  | some pointer =>
      cases found : memory.heap pointer with
      | none => simp [widen, current, found]
      | some block => cases block <;> simp [widen, current, found, Block.widen]

theorem widen_place (memory : TableMemory) (pointer : Pointer) (block : Option Block) :
    widen spare (memory.place pointer block) = (widen spare memory).place pointer
      (if memory.fileToChunkState = some pointer then block.map (Block.widen spare) else block) := by
  simp only [widen, place, mk.injEq, and_true]
  funext address
  by_cases same : address = pointer
  · subst same
    simp only [Function.update_self]
  · simp only [Function.update_of_ne same]

theorem readEntry_follows (i : Nat) :
    Follows (Wider spare) (readEntry i) (readEntry i) := by
  rintro memory _ entry next rfl ran
  obtain ⟨_, found, same⟩ := Option.map_eq_some_iff.mp ran
  obtain ⟨rfl, rfl⟩ := Prod.mk.inj same
  obtain ⟨array, current, listed⟩ := Option.bind_eq_some_iff.mp found
  refine ⟨_, readEntry_run (by rw [widen_array, current]; rfl) ?_, rfl⟩
  rw [List.getElem?_append_left (List.getElem?_eq_some_iff.mp listed).1, listed]

theorem writeEntry_follows (i : Nat) (entry : Entry) :
    Follows (Wider spare) (writeEntry i entry)
      (writeEntry i entry) := by
  rintro memory _ _ next rfl ran
  rw [writeEntry] at ran
  split at ran
  · rename_i pointer array current found
    split at ran
    · rename_i bound
      obtain ⟨_, rfl⟩ := Prod.mk.inj (Option.some.inj ran)
      refine ⟨_, writeEntry_run entry current (by rw [widen_array, found]; rfl)
        (by simp; omega), ?_⟩
      have same := @widen_place spare memory pointer (some (.entries (array.set i entry)))
      rw [if_pos current, Option.map_some, Block.widen, ← List.set_append_left _ _ bound] at same
      exact congrArg (touch · [i]) same.symm
    · simp at ran
  · simp at ran

theorem readPath_follows (pointer : Pointer) :
    Follows (Wider spare) (readPath pointer)
      (readPath pointer) := by
  rintro memory _ text next rfl ran
  rw [readPath] at ran
  split at ran
  · rename_i text found
    obtain ⟨rfl, rfl⟩ := Prod.mk.inj (Option.some.inj ran)
    refine ⟨_, readPath_run ?_, rfl⟩
    simp [widen, found, Block.widen]
  · simp at ran

theorem free_follows (pointer : Option Pointer) :
    Follows (Wider spare) (free pointer) (free pointer) := by
  rintro memory _ _ next rfl ran
  cases pointer with
  | none =>
      obtain ⟨_, rfl⟩ := Prod.mk.inj (Option.some.inj ran)
      exact ⟨_, rfl, rfl⟩
  | some pointer =>
      rw [free] at ran
      split at ran
      · rename_i live
        obtain ⟨_, rfl⟩ := Prod.mk.inj (Option.some.inj ran)
        refine ⟨_, by rw [free, if_pos]; simp only [widen]; split <;> simpa using live, ?_⟩
        exact ((widen_place memory pointer none).trans (by simp)).symm
      · simp at ran

theorem findEntry_follows (filePath : Bytes) (count i : Nat) :
    Follows (Wider spare) (findEntry filePath count i)
      (findEntry filePath count i) := by
  induction count generalizing i with
  | zero => exact Follows.pure none
  | succ count ih =>
      refine (readEntry_follows i).bind fun entry => (readPath_follows entry.filePath).bind ?_
      intro text
      split
      · exact Follows.pure (some i)
      · exact ih (i + 1)

theorem shiftEntries_follows (count i : Nat) :
    Follows (Wider spare) (shiftEntries count i)
      (shiftEntries count i) := by
  induction count generalizing i with
  | zero => exact Follows.pure ()
  | succ count ih =>
      exact (readEntry_follows (i + 1)).bind fun next =>
        (writeEntry_follows i next).bind fun _ => ih (i + 1)

theorem freeEntry_follows (index : Nat) :
    Follows (Wider spare) (freeEntry index)
      (freeEntry index) :=
  (readEntry_follows index).bind fun entry => (free_follows (some entry.filePath)).bind fun _ =>
    (readEntry_follows index).bind fun entry => free_follows entry.chunkIds

end Widen

variable {base : Pointer → Option Block} {memory : TableMemory}
  {held : List (Entry × FileStateCurrentInner)} {spare : List Entry}

def exactly (held : List (Entry × FileStateCurrentInner)) (pointer : Pointer)
    (memory : TableMemory) : TableMemory :=
  memory.place pointer (some (.entries (held.map Prod.fst)))

theorem Owns.exactly {pointer : Pointer} (owns : Owns base memory held spare)
    (current : memory.fileToChunkState = some pointer) :
    Represents (exactly held pointer memory) held ∧
      memory = widen spare (TableMemory.exactly held pointer memory) := by
  have ledger := owns.ledger
  have nodup := ledger.nodup
  simp only [current, Option.toList_some, List.map_cons, List.map_nil, List.singleton_append,
    cells_addresses] at ledger nodup
  have elsewhere : ∀ pair ∈ held, ∀ address ∈ pair.1.owned, address ≠ pointer := by
    rintro pair member address owned rfl
    exact (List.nodup_cons.mp nodup).1 (List.mem_flatMap.mpr ⟨pair, member, owned⟩)
  constructor
  · refine ⟨owns.null, ?_, owns.count, ?_, ?_⟩
    · intro other same
      obtain rfl := Option.some.inj (current.symm.trans same)
      exact Function.update_self ..
    · intro pair member
      refine (owns.holds member).frame ?_
      intro address owned
      exact Function.update_of_ne (elsewhere pair member address owned) ..
    · rw [TableMemory.exactly, show (memory.place pointer _).fileToChunkState = some pointer from current]
      exact nodup
  · rw [TableMemory.exactly, widen_place, if_pos current, Option.map_some, Block.widen]
    obtain ⟨heap, _, _, _⟩ := memory
    simp only [widen, place, mk.injEq, and_true] at current ⊢
    funext address
    by_cases same : address = pointer
    · rw [same, Function.update_self]
      exact ledger.head
    · rw [Function.update_of_ne same, if_neg]
      rw [current, Option.some.injEq]
      exact Ne.symm same

def Realloc.entries (realloc : Realloc) : Allocator := fun memory =>
  realloc.call memory.fileToChunkState memory

/-- The array shrinks, keeps its room when `realloc` fails, or goes with its last entry. -/
theorem Standing.shrink_run {pointer : Pointer} (realloc : Realloc)
    (standing : Standing base memory pointer held.length
      ((pointer, .entries (held.map Prod.fst ++ spare)) :: cells held))
    (counts : ∀ pair ∈ held, (pair.1.chunkIds = none ↔ pair.2.chunkIds = []) ∧
      pair.1.numChunks = pair.2.chunkIds.length) :
    ∃ next more, (if 0 < held.length then reallocEntries realloc.entries else freeEntries) memory =
        some ((), next) ∧ Owns base next held more := by
  obtain ⟨current, count, ledger⟩ := standing
  have array : memory.array = some (held.map Prod.fst ++ spare) := by
    simp [TableMemory.array, current, ledger.head]
  split
  · rename_i some
    have nonempty := List.length_pos_iff.mp some
    rw [reallocEntries, current, array]
    cases placed : realloc.call memory.fileToChunkState memory with
    | none => exact ⟨memory, spare, by simp [Realloc.entries, placed],
        Standing.owns ⟨current, count, ledger⟩ nonempty counts⟩
    | some moved =>
        have stays := realloc.unused _ _ _ placed
        rw [current, Option.some.injEq] at stays
        refine ⟨memory.move pointer moved (held.map Prod.fst), [], ?_, ?_⟩
        · have taken : (held.map Prod.fst ++ spare).take memory.numFileCount =
              held.map Prod.fst := by
            rw [count, List.take_left' (List.length_map ..)]
          simp only [Realloc.entries, placed, taken]
        · refine @Standing.owns base _ held [] moved ⟨rfl, count, ?_⟩ nonempty counts
          rw [List.append_nil]
          exact ledger.move stays _
  · rename_i none
    have empty : held = [] := List.eq_nil_of_length_eq_zero (by omega)
    subst empty
    refine ⟨{ memory.place pointer Option.none with fileToChunkState := Option.none }, [], ?_, ?_⟩
    · rw [freeEntries, bind_of_some (show (get : Run TableMemory) memory = _ from rfl), current,
        bind_of_some (show free (some pointer) memory = some ((), memory.place pointer Option.none) by
          rw [free, if_pos (by rw [ledger.head, Option.isSome_some])])]
      rfl
    · exact ⟨by simp, count, by simp, ledger.free⟩

/-- With room to spare too: the search comes to the entry, and when its gap is closed the
array holds the others. -/
theorem closeGap_owns {before after : List (Entry × FileStateCurrentInner)}
    {hole : Entry × FileStateCurrentInner} {filePath : Bytes}
    (owns : Owns base memory (before ++ hole :: after) spare)
    (others : ∀ pair ∈ before, pair.2.filePath ≠ filePath) (named : hole.2.filePath = filePath) :
    ∃ searched middle shifted more,
      findEntry filePath memory.numFileCount 0 memory = some (some before.length, searched) ∧
      freeEntry before.length searched = some ((), middle) ∧
      shiftEntries after.length before.length middle = some ((), shifted) ∧
      ∃ pointer, Standing base { shifted with numFileCount := memory.numFileCount - 1 } pointer
        (before ++ after).length
        ((pointer, .entries ((before ++ after).map Prod.fst ++ more)) :: cells (before ++ after)) := by
  obtain ⟨pointer, current, _, ledger⟩ := owns.current (by simp)
  obtain ⟨represents, wide⟩ := owns.exactly current
  obtain ⟨indices, searched, _⟩ := findEntry_found represents rfl others named
  obtain ⟨middle, last, more, freed, shifted, _⟩ := closeGap_run represents current indices
  obtain ⟨_, searched, rfl⟩ := @findEntry_follows spare _ _ _ _ _ _ _ wide searched
  obtain ⟨_, freed, rfl⟩ := @freeEntry_follows spare _ _ _ _ _ rfl freed
  obtain ⟨_, shifted, rfl⟩ := @shiftEntries_follows spare _ _ _ _ _ _ rfl shifted
  refine ⟨_, _, _, last :: spare, searched, freed, shifted, pointer, current, ?_, ?_⟩
  · simp [owns.count]
  · have holeFirst : ((pointer, Block.entries ((before ++ hole :: after).map Prod.fst ++ spare)) ::
        cells (before ++ hole :: after)).Perm (Entry.cells hole.1 hole.2 ++
          ((pointer, Block.entries ((before ++ hole :: after).map Prod.fst ++ spare)) ::
            cells (before ++ after))) := by
      rw [List.perm_iff_count]
      intro cell
      simp only [cells, List.flatMap_append, List.flatMap_cons, List.count_append, List.count_cons]
      omega
    have left := (ledger.perm holeFirst).release.store
      (.entries ((before ++ after).map Prod.fst ++ last :: spare))
    rw [Entry.cells_addresses] at left
    convert left using 1
    funext address
    by_cases same : address = pointer
    · simp [widen, touch, place, clear, current, same, Block.widen, exactly]
    · have other : ¬pointer = address := Ne.symm same
      simp [widen, touch, place, clear, current, same, other, exactly]

theorem findEntry_owns {filePath : Bytes} (owns : Owns base memory held spare)
    (others : ∀ pair ∈ held, pair.2.filePath ≠ filePath) :
    ∃ indices, findEntry filePath memory.numFileCount 0 memory =
      some (none, memory.touch indices) := by
  by_cases empty : held = []
  · refine ⟨[], ?_⟩
    rw [owns.count, empty, touch_nil]
    rfl
  · obtain ⟨pointer, current, _, _⟩ := owns.current empty
    obtain ⟨represents, wide⟩ := owns.exactly current
    obtain ⟨indices, searched, _⟩ := findEntry_missing represents others
    obtain ⟨_, searched, same⟩ := @findEntry_follows spare _ _ _ _ _ _ _ wide searched
    refine ⟨indices, ?_⟩
    rw [show memory.touch indices = _ from (congrArg (touch · indices) wide).trans same.symm]
    exact searched

/-- No entry has that name, or the first one that has goes, with the blocks it owned. -/
theorem removeFromStruct_cases (realloc : Realloc) (owns : Owns base memory held spare)
    (filePath : Bytes) :
    (∀ pair ∈ held, pair.2.filePath ≠ filePath) ∧ (∃ indices,
        findEntry filePath memory.numFileCount 0 memory = some (none, memory.touch indices) ∧
        removeFromStruct realloc.entries filePath memory = some ((), memory.touch indices)) ∨
      ∃ before hole after, held = before ++ hole :: after ∧
        (∀ pair ∈ before, pair.2.filePath ≠ filePath) ∧ hole.2.filePath = filePath ∧
        (∃ searched, findEntry filePath memory.numFileCount 0 memory =
          some (some before.length, searched)) ∧
        ∃ next more, removeFromStruct realloc.entries filePath memory = some ((), next) ∧
          Owns base next (before ++ after) more := by
  by_cases listed : ∃ pair ∈ held, pair.2.filePath = filePath
  · obtain ⟨hole, member, named⟩ := listed
    obtain ⟨hole, before, after, others, named, rfl, _⟩ :=
      List.exists_of_eraseP (p := fun pair => pair.2.filePath = filePath) member (by simpa using named)
    simp only [decide_eq_true_eq] at others named
    obtain ⟨searched, middle, shifted, more, found, freed, moved, pointer, standing⟩ :=
      closeGap_owns owns others named
    have count : memory.numFileCount - 1 = (before ++ after).length := by simp [owns.count]
    have rest : memory.numFileCount - 1 - before.length = after.length := by simp [owns.count]
    have counts : ∀ pair ∈ before ++ after, (pair.1.chunkIds = none ↔ pair.2.chunkIds = []) ∧
        pair.1.numChunks = pair.2.chunkIds.length := by
      intro pair member
      rw [List.mem_append] at member
      exact owns.counts pair (by simp; tauto)
    obtain ⟨next, room, shrunk, owns⟩ := standing.shrink_run realloc counts
    rw [← count] at shrunk
    refine Or.inr ⟨before, hole, after, rfl, others, named, ⟨searched, found⟩, next, room, ?_, owns⟩
    rw [removeFromStruct, bind_of_some (show (get : Run TableMemory) memory = _ from rfl),
      bind_of_some found]
    dsimp only
    rw [bind_of_some freed, rest, bind_of_some moved]
    exact shrunk
  · have missing : ∀ pair ∈ held, pair.2.filePath ≠ filePath :=
      fun pair member same => listed ⟨pair, member, same⟩
    obtain ⟨indices, searched⟩ := findEntry_owns owns missing
    refine Or.inl ⟨missing, indices, searched, ?_⟩
    rw [removeFromStruct, bind_of_some (show (get : Run TableMemory) memory = _ from rfl),
      bind_of_some searched]
    rfl

theorem removeFromStruct_owns (realloc : Realloc) (owns : Owns base memory held spare)
    (filePath : Bytes) :
    ∃ next more, removeFromStruct realloc.entries filePath memory = some ((), next) ∧
      Owns base next (held.eraseP fun pair => pair.2.filePath = filePath) more := by
  rcases removeFromStruct_cases realloc owns filePath with
    ⟨missing, indices, _, ran⟩ | ⟨before, hole, after, rfl, others, named, _, next, more, ran, left⟩
  · rw [List.eraseP_of_forall_not (by simpa using missing)]
    exact ⟨_, spare, ran, owns.touch indices⟩
  · rw [List.eraseP_append_right _ (by simpa using others),
      List.eraseP_cons_of_pos (by simpa using named)]
    exact ⟨next, more, ran, left⟩

inductive Call where
  | insertToStruct (realloc : Realloc) (filePath : Bytes) (chunkId : Int32)
      (directoryHasFile : Bool)
  | removeFromStruct (realloc : Realloc) (filePath : Bytes)
  | printStorageState

inductive Outcome where
  | pushed (allocated : Bool)
  | removed
  | printed (text : Bytes)
  deriving DecidableEq, Repr

/-- One locked section, in whichever thread. -/
def serve (memory : TableMemory) : Call → Option (Outcome × TableMemory)
  | .insertToStruct realloc filePath chunkId directoryHasFile =>
      (insertToStruct realloc filePath chunkId directoryHasFile memory).map
        fun (allocated, next) => (.pushed allocated, next)
  | .removeFromStruct realloc filePath =>
      (removeFromStruct realloc.entries filePath memory).map fun (_, next) => (.removed, next)
  | .printStorageState =>
      (printStorageState memory).map fun (text, next) => (.printed text, next)

inductive TableCall where
  | insertToStruct (allocated : Bool) (filePath : Bytes) (chunkId : Int32)
      (directoryHasFile : Bool)
  | removeFromStruct (filePath : Bytes)
  | printStorageState

def serveTable (state : StorageStateOuter) : TableCall → Option (Outcome × StorageStateOuter)
  | .insertToStruct allocated filePath chunkId directoryHasFile =>
      (StorageLayer.insertToStruct allocated state filePath chunkId directoryHasFile).map
        fun next => (.pushed allocated, next)
  | .removeFromStruct filePath =>
      some (.removed, StorageLayer.removeFromStruct state filePath)
  | .printStorageState => some (.printed (StorageLayer.printStorageState state), state)

def seen : Call × Outcome → TableCall
  | (.insertToStruct _ filePath chunkId directoryHasFile, outcome) =>
      .insertToStruct (outcome = .pushed true) filePath chunkId directoryHasFile
  | (.removeFromStruct _ filePath, _) => .removeFromStruct filePath
  | (.printStorageState, _) => .printStorageState

/-- The unchecked allocations succeed, and there is a last element when one is taken. -/
def Defined (memory : TableMemory) : Call → Prop
  | .insertToStruct realloc _ _ false => Supplied realloc memory
  | .insertToStruct _ _ _ true => memory.numFileCount ≠ 0
  | _ => True

def Accounts (base : Pointer → Option Block) (memory : TableMemory) (state : StorageStateOuter) :
    Prop :=
  ∃ held spare, Owns base memory held spare ∧ state.fileToChunkState = held.map Prod.snd

theorem insertToStruct_new_run {realloc : Realloc} (filePath : Bytes) (chunkId : Int32)
    (owns : Owns base memory held spare) (supplied : Supplied realloc memory) :
    ∃ allocated next entry, insertToStruct realloc filePath chunkId false memory =
        some (allocated, next) ∧
      Owns base next (held ++ [(entry, StorageLayer.pushChunkId allocated
        { filePath := filePath, chunkIds := [] } chunkId)]) [] := by
  obtain ⟨grown, grew, copied⟩ := supplied
  obtain ⟨path, copied⟩ := Option.isSome_iff_exists.mp copied
  obtain ⟨added, ran, owns⟩ := addFile_run owns filePath grew copied
  obtain ⟨next, pushed, owns⟩ := pushToLast_run realloc owns chunkId
  refine ⟨_, next, _, ?_, owns⟩
  change (addFile realloc filePath >>= fun _ => pushToLast realloc chunkId) memory = _
  rw [bind_of_some ran, pushed]

theorem insertToStruct_run {realloc : Realloc} {state : StorageStateOuter} (filePath : Bytes)
    (chunkId : Int32) {directoryHasFile : Bool} (accounts : Accounts base memory state)
    (defined : Defined memory (.insertToStruct realloc filePath chunkId directoryHasFile)) :
    ∃ allocated next after, insertToStruct realloc filePath chunkId directoryHasFile memory =
        some (allocated, next) ∧
      StorageLayer.insertToStruct allocated state filePath chunkId directoryHasFile = some after ∧
      Accounts base next after := by
  obtain ⟨held, spare, owns, table⟩ := accounts
  cases directoryHasFile with
  | false =>
      obtain ⟨allocated, next, entry, ran, owns⟩ :=
        insertToStruct_new_run filePath chunkId owns defined
      exact ⟨allocated, next, _, ran, insertToStruct_new .., _, _, owns, by simp [table]⟩
  | true =>
      rcases List.eq_nil_or_concat' held with rfl | ⟨front, ⟨entry, file⟩, rfl⟩
      · exact absurd owns.count defined
      · obtain ⟨next, ran, owns⟩ := pushToLast_run realloc owns chunkId
        obtain ⟨files⟩ := state
        simp only [List.map_append, List.map_cons, List.map_nil] at table
        subst table
        exact ⟨_, next, _, ran, insertToStruct_last .., _, _, owns, by simp⟩

theorem serve_run {state : StorageStateOuter} {call : Call}
    (accounts : Accounts base memory state) (defined : Defined memory call) :
    ∃ outcome next after, serve memory call = some (outcome, next) ∧
      serveTable state (seen (call, outcome)) = some (outcome, after) ∧
      Accounts base next after := by
  cases call with
  | insertToStruct realloc filePath chunkId directoryHasFile =>
      obtain ⟨allocated, next, after, ran, inserted, still⟩ :=
        insertToStruct_run filePath chunkId accounts defined
      refine ⟨.pushed allocated, next, after, by rw [serve, ran]; rfl, ?_, still⟩
      simp [serveTable, seen, inserted]
  | removeFromStruct realloc filePath =>
      obtain ⟨held, spare, owns, table⟩ := accounts
      obtain ⟨next, more, ran, owns⟩ := removeFromStruct_owns realloc owns filePath
      refine ⟨.removed, next, _, by rw [serve, ran]; rfl, rfl, _, more, owns, ?_⟩
      rw [removeFromStruct_eq, table, List.eraseP_map]
      rfl
  | printStorageState =>
      obtain ⟨held, spare, owns, table⟩ := accounts
      obtain ⟨indices, printed⟩ := printStorageState_run owns
      refine ⟨_, _, state, by rw [serve, printed]; rfl, ?_, held, spare, owns.touch indices, table⟩
      rw [seen, serveTable, ← table]

theorem serve_isSome {state : StorageStateOuter} {call : Call}
    (accounts : Accounts base memory state) : (serve memory call).isSome ↔ Defined memory call := by
  constructor
  · intro ran
    obtain ⟨held, spare, owns, _⟩ := accounts
    cases call with
    | insertToStruct realloc filePath chunkId directoryHasFile =>
        rw [serve, Option.isSome_map] at ran
        cases directoryHasFile with
        | false =>
            obtain ⟨_, ran⟩ := Option.isSome_iff_exists.mp ran
            obtain ⟨_, added, _⟩ := Option.bind_eq_some_iff.mp ran
            exact (addFile_isSome filePath owns).mp (by rw [added, Option.isSome_some])
        | true =>
            intro empty
            change (pushToLast realloc chunkId memory).isSome = true at ran
            rw [pushToLast, bind_of_some (show (get : Run TableMemory) memory = _ from rfl),
              empty] at ran
            have never : (none : Option (Bool × TableMemory)).isSome = true := ran
            simp at never
    | removeFromStruct realloc filePath => trivial
    | printStorageState => trivial
  · intro defined
    obtain ⟨outcome, next, after, ran, _⟩ := serve_run accounts defined
    rw [ran, Option.isSome_some]

theorem serve_keeps {state : StorageStateOuter} {call : Call} {outcome : Outcome}
    {next : TableMemory} (accounts : Accounts base memory state)
    (served : serve memory call = some (outcome, next)) :
    ∃ after, serveTable state (seen (call, outcome)) = some (outcome, after) ∧
      Accounts base next after := by
  have defined := (serve_isSome accounts).mp (by rw [served, Option.isSome_some])
  obtain ⟨_, _, after, ran, followed, still⟩ := serve_run accounts defined
  obtain ⟨rfl, rfl⟩ := Prod.mk.inj (Option.some.inj (ran.symm.trans served))
  exact ⟨after, followed, still⟩

theorem init_accounts (base : Pointer → Option Block) : Accounts base (init base) storageStateInit :=
  ⟨[], [], init_owns base, rfl⟩

theorem run_accounts {calls : List Call} {trace : List (Call × Outcome)} {last : TableMemory}
    (ran : run serve (init base) calls = some (trace, last)) :
    ∃ state, run serveTable storageStateInit (trace.map seen) =
        some (trace.map fun entry => (seen entry, entry.2), state) ∧
      Accounts base last state := by
  refine run_simulated ?_ (init_accounts base) ran
  intro memory state call outcome next accounts served
  exact serve_keeps accounts served

/-- In any order of the calls, whatever the allocator answers: the run stays in defined
behaviour exactly when each call does by its guard, and the memory then holds what the
list of files does, call for call and with the same output. -/
theorem calls_refine (base : Pointer → Option Block) (calls : List Call) :
    ((run serve (init base) calls).isSome ↔ Guarded serve Defined (init base) calls) ∧
      ∀ trace last, run serve (init base) calls = some (trace, last) →
        ∃ state, run serveTable storageStateInit (trace.map seen) =
            some (trace.map fun entry => (seen entry, entry.2), state) ∧
          Accounts base last state := by
  constructor
  · rw [← always_true_iff_run]
    refine @always_iff_guarded _ _ _ serve (fun _ => True) Defined
      (fun memory => ∃ state, Accounts base memory state) (fun _ => True) ?_ ?_ calls _
      ⟨_, init_accounts base⟩ (fun _ _ => trivial)
    · rintro memory call ⟨state, accounts⟩ _ defined
      obtain ⟨outcome, next, after, ran, _, still⟩ := serve_run accounts defined
      exact ⟨outcome, next, ran, ⟨after, still⟩, trivial⟩
    · rintro memory call ⟨state, accounts⟩ _ undefined ⟨outcome, next, ran, _⟩
      exact undefined ((serve_isSome accounts).mp (by rw [ran, Option.isSome_some]))
  · intro trace last ran
    exact run_accounts ran

/-- From `storage_state_init` to `storage_state_destroy`: no block of the table is freed
twice, none is left, and the heap is as it was. -/
theorem destroyed_heap {base : Pointer → Option Block} {calls : List Call}
    {trace : List (Call × Outcome)} {last : TableMemory}
    (ran : run serve (init base) calls = some (trace, last)) :
    ∃ destroyed, storageStateDestroy last = some ((), destroyed) ∧ destroyed.heap = base := by
  obtain ⟨_, _, _, _, owns, _⟩ := run_accounts ran
  exact storageStateDestroy_run owns

def firstUnused : Realloc where
  call _ memory := (List.range 16).find? fun address => (memory.heap address).isNone
  unused _ memory moved found := by
    have free := List.find?_some found
    exact Or.inr (Option.isNone_iff_eq_none.mp free)
  newEntry := ⟨0, none, 0⟩
  newId := 0

theorem destroyed_heap_empty : ∃ trace last destroyed,
    run serve (init fun _ => none) [.insertToStruct firstUnused (ascii "a") 0 false,
        .insertToStruct firstUnused (ascii "b") 0 false,
        .insertToStruct firstUnused (ascii "b") 1 true,
        .removeFromStruct firstUnused (ascii "a")] = some (trace, last) ∧
      storageStateDestroy last = some ((), destroyed) ∧ destroyed.heap = fun _ => none := by
  have defined : (run serve (init fun _ => none) [.insertToStruct firstUnused (ascii "a") 0 false,
      .insertToStruct firstUnused (ascii "b") 0 false,
      .insertToStruct firstUnused (ascii "b") 1 true,
      .removeFromStruct firstUnused (ascii "a")]).isSome := by decide
  obtain ⟨⟨trace, last⟩, ran⟩ := Option.isSome_iff_exists.mp defined
  obtain ⟨destroyed, freed, left⟩ := destroyed_heap ran
  exact ⟨trace, last, destroyed, ran, freed, left⟩

end TableMemory

end DistributedFileSystem.StorageLayer
