import DistributedFileSystem.Library.HeapCells
import DistributedFileSystem.Library.Simulation
import DistributedFileSystem.StorageLayer.TableMemory

/-!
The rest of `state/fileState.c` in memory, from `storage_state_init` to
`storage_state_destroy`: what the functions do to the blocks that the table owns.
-/

namespace DistributedFileSystem.StorageLayer

open ByteString HeapCells Posix Transition

def Entry.cells (entry : Entry) (file : FileStateCurrentInner) : List (Pointer × Block) :=
  (entry.filePath, .path file.filePath) ::
    entry.chunkIds.toList.map fun pointer => (pointer, .ids file.chunkIds)

theorem Entry.cells_addresses (entry : Entry) (file : FileStateCurrentInner) :
    (entry.cells file).map Prod.fst = entry.owned := by
  simp [Entry.cells, Entry.owned, Function.comp_def]

def Entry.pushed (entry : Entry) : Option Pointer → Entry
  | none => entry
  | some temp => ⟨entry.filePath, some temp, entry.numChunks + 1⟩

namespace TableMemory

/-- What `realloc` and `malloc` return during a call, `none` when they fail, and what the
memory that they add holds. A block stays where it is or goes to an unused address. -/
structure Realloc where
  call : Option Pointer → TableMemory → Option Pointer
  unused : ∀ pointer memory moved, call pointer memory = some moved →
    pointer = some moved ∨ memory.heap moved = none
  newEntry : Entry
  newId : Int32

def resized {α : Type} (old : List α) (count : Nat) (new : α) : List α :=
  (old ++ List.replicate count new).take count

/-- The result of `realloc` is not checked: the new element is written through it. -/
def growEntries (realloc : Realloc) : Run Unit := fun memory =>
  match memory.fileToChunkState, memory.array with
  | none, _ =>
      (realloc.call none memory).map fun moved => ((),
        { memory.place moved
            (some (.entries (resized [] (memory.numFileCount + 1) realloc.newEntry))) with
          fileToChunkState := some moved })
  | some pointer, some array =>
      (realloc.call (some pointer) memory).map fun moved => ((),
        memory.move pointer moved (resized array (memory.numFileCount + 1) realloc.newEntry))
  | some _, none => none

def strdup (realloc : Realloc) (filePath : Bytes) : Run Pointer := fun memory =>
  (realloc.call none memory).map fun pointer =>
    (pointer, memory.place pointer (some (.path filePath)))

def addFile (realloc : Realloc) (filePath : Bytes) : Run Unit := do
  growEntries realloc
  let newFile := (← get).numFileCount
  writeEntry newFile
    { filePath := ← strdup realloc filePath
      chunkIds := none
      numChunks := 0 }
  modify fun memory => { memory with numFileCount := memory.numFileCount + 1 }

def reallocIds (realloc : Realloc) (chunkIds : Option Pointer) (count : Nat) :
    Run (Option Pointer) := fun memory =>
  match chunkIds, chunkIds.bind memory.heap with
  | none, _ =>
      match realloc.call none memory with
      | none => some (none, memory)
      | some moved =>
          some (some moved, memory.place moved (some (.ids (resized [] count realloc.newId))))
  | some pointer, some (.ids values) =>
      match realloc.call (some pointer) memory with
      | none => some (none, memory)
      | some moved => some (some moved, (memory.place pointer none).place moved
          (some (.ids (resized values count realloc.newId))))
  | some _, _ => none

def writeId (pointer : Pointer) (i : Nat) (chunkId : Int32) : Run Unit := fun memory =>
  match memory.heap pointer with
  | some (.ids values) =>
      if i < values.length then
        some ((), memory.place pointer (some (.ids (values.set i chunkId))))
      else none
  | _ => none

/-- Whether the chunk id is now in the list: a `realloc` that fails is only reported. -/
def pushChunkId (realloc : Realloc) (current : Nat) (chunkId : Int32) : Run Bool := do
  let fileState ← readEntry current
  match ← reallocIds realloc fileState.chunkIds (fileState.numChunks + 1) with
  | none => return false
  | some temp =>
      writeEntry current { fileState with chunkIds := some temp }
      writeId temp fileState.numChunks chunkId
      writeEntry current
        { fileState with
          chunkIds := some temp
          numChunks := fileState.numChunks + 1 }
      return true

def pushToLast (realloc : Realloc) (chunkId : Int32) : Run Bool := do
  match (← get).numFileCount with
  | 0 => failure
  | last + 1 => pushChunkId realloc last chunkId

def insertToStruct (realloc : Realloc) (filePath : Bytes) (chunkId : Int32)
    (directoryHasFile : Bool) : Run Bool := do
  if !directoryHasFile then
    addFile realloc filePath
  pushToLast realloc chunkId

def readIds (chunkIds : Option Pointer) (count : Nat) : Run (List Int32) := fun memory =>
  if count = 0 then some ([], memory) else
    match chunkIds.bind memory.heap with
    | some (.ids values) =>
        if count ≤ values.length then some (values.take count, memory) else none
    | _ => none

def readFile (i : Nat) : Run FileStateCurrentInner := do
  let file ← readEntry i
  return {
    filePath := ← readPath file.filePath
    chunkIds := ← readIds file.chunkIds file.numChunks }

def printFiles : Nat → Nat → Run Bytes
  | 0, _ => pure []
  | count + 1, i => do
      let file ← readFile i
      return fileText i file ++ (← printFiles count (i + 1))

def printStorageState : Run Bytes := do
  let numFileCount := (← get).numFileCount
  let files ← printFiles numFileCount 0
  return ascii "\n=== Storage State ===\nTotal files: " ++ digits numFileCount ++ ascii "\n" ++
    files ++ ascii "===================\n\n"

def freeFiles : Nat → Nat → Run Unit
  | 0, _ => pure ()
  | count + 1, i => do
      freeEntry i
      freeFiles count (i + 1)

def storageStateDestroy : Run Unit := do
  freeFiles (← get).numFileCount 0
  free (← get).fileToChunkState

def init (heap : Pointer → Option Block) : TableMemory where
  heap := heap
  fileToChunkState := none
  numFileCount := 0
  accessed := []

def cells (held : List (Entry × FileStateCurrentInner)) : List (Pointer × Block) :=
  held.flatMap fun pair => Entry.cells pair.1 pair.2

structure Owns (base : Pointer → Option Block) (memory : TableMemory)
    (held : List (Entry × FileStateCurrentInner)) (spare : List Entry) : Prop where
  null : memory.fileToChunkState = none ↔ held = []
  count : memory.numFileCount = held.length
  counts : ∀ pair ∈ held, (pair.1.chunkIds = none ↔ pair.2.chunkIds = []) ∧
    pair.1.numChunks = pair.2.chunkIds.length
  ledger : Ledger base memory.heap (memory.fileToChunkState.toList.map
    (fun pointer => (pointer, Block.entries (held.map Prod.fst ++ spare))) ++ cells held)

variable {base : Pointer → Option Block} {memory : TableMemory}
  {held : List (Entry × FileStateCurrentInner)} {spare : List Entry}

theorem cells_addresses (held : List (Entry × FileStateCurrentInner)) :
    (cells held).map Prod.fst = held.flatMap fun pair => pair.1.owned := by
  simp only [cells, List.map_flatMap, Entry.cells_addresses]

theorem init_owns (base : Pointer → Option Block) : Owns base (init base) [] [] :=
  ⟨by simp [init], rfl, nofun, by simpa [init, cells] using Ledger.empty base⟩

namespace Owns

theorem current (owns : Owns base memory held spare) (nonempty : held ≠ []) :
    ∃ pointer, memory.fileToChunkState = some pointer ∧
      memory.array = some (held.map Prod.fst ++ spare) ∧
      Ledger base memory.heap
        ((pointer, .entries (held.map Prod.fst ++ spare)) :: cells held) := by
  have present : memory.fileToChunkState ≠ none := fun none => nonempty (owns.null.mp none)
  obtain ⟨pointer, current⟩ := Option.ne_none_iff_exists'.mp present
  have ledger := owns.ledger
  simp only [current, Option.toList_some, List.map_cons, List.map_nil, List.singleton_append]
    at ledger
  exact ⟨pointer, current, by simp [array, current, ledger.head], ledger⟩

theorem of_current {pointer : Pointer} (current : memory.fileToChunkState = some pointer)
    (nonempty : held ≠ []) (count : memory.numFileCount = held.length)
    (counts : ∀ pair ∈ held, (pair.1.chunkIds = none ↔ pair.2.chunkIds = []) ∧
      pair.1.numChunks = pair.2.chunkIds.length)
    (ledger : Ledger base memory.heap
      ((pointer, .entries (held.map Prod.fst ++ spare)) :: cells held)) :
    Owns base memory held spare :=
  ⟨by simp [current, nonempty], count, counts, by simpa [current] using ledger⟩

theorem holds (owns : Owns base memory held spare) {pair : Entry × FileStateCurrentInner}
    (member : pair ∈ held) : Holds memory.heap pair.1 pair.2 := by
  have listed : ∀ cell ∈ Entry.cells pair.1 pair.2, memory.heap cell.1 = some cell.2 := fun cell mine =>
    owns.ledger.holds cell
      (List.mem_append_right _ (List.mem_flatMap.mpr ⟨pair, member, mine⟩))
  rw [Entry.cells, List.forall_mem_cons, List.forall_mem_map] at listed
  obtain ⟨null, numChunks⟩ := owns.counts pair member
  exact ⟨listed.1, fun pointer named => listed.2 pointer (Option.mem_toList.mpr named), null.mp,
    numChunks⟩

theorem touch (owns : Owns base memory held spare) (indices : List Nat) :
    Owns base (memory.touch indices) held spare :=
  ⟨owns.null, owns.count, owns.counts, owns.ledger⟩

end Owns

theorem resized_succ {α : Type} (old spare : List α) (new : α) :
    ∃ last, resized (old ++ spare) (old.length + 1) new = old ++ [last] := by
  cases spare with
  | nil =>
      refine ⟨new, ?_⟩
      rw [resized, List.append_nil, List.take_append, List.take_of_length_le (Nat.le_succ _)]
      simp
  | cons first rest =>
      refine ⟨first, ?_⟩
      rw [resized, List.append_assoc, List.take_append, List.take_of_length_le (Nat.le_succ _)]
      simp

theorem growEntries_run {realloc : Realloc} {next : TableMemory}
    (owns : Owns base memory held spare) (ran : growEntries realloc memory = some ((), next)) :
    ∃ moved last, next.fileToChunkState = some moved ∧ next.numFileCount = held.length ∧
      Ledger base next.heap ((moved, .entries (held.map Prod.fst ++ [last])) :: cells held) := by
  by_cases empty : held = []
  · have null := owns.null.mpr empty
    have ledger := owns.ledger
    rw [null] at ledger
    rw [growEntries, null] at ran
    obtain ⟨moved, placed, same⟩ := Option.map_eq_some_iff.mp ran
    obtain rfl := (Prod.mk.inj same).2
    have free := (realloc.unused _ _ _ placed).resolve_left nofun
    refine ⟨moved, realloc.newEntry, rfl, owns.count, ?_⟩
    have allocated := ledger.allocate free (.entries [realloc.newEntry])
    simpa [empty, resized, owns.count, place] using allocated
  · obtain ⟨pointer, current, array, ledger⟩ := owns.current empty
    rw [growEntries, current, array] at ran
    obtain ⟨moved, placed, same⟩ := Option.map_eq_some_iff.mp ran
    obtain rfl := (Prod.mk.inj same).2
    have stays := (realloc.unused _ _ _ placed).imp_left Option.some.inj
    obtain ⟨last, grown⟩ := resized_succ (held.map Prod.fst) spare realloc.newEntry
    rw [List.length_map, ← owns.count] at grown
    refine ⟨moved, last, rfl, owns.count, ?_⟩
    rw [grown]
    exact ledger.move stays _

theorem addFile_run {realloc : Realloc} {middle : TableMemory} {path : Pointer}
    (owns : Owns base memory held spare) (filePath : Bytes)
    (grown : growEntries realloc memory = some ((), middle))
    (copied : realloc.call none middle = some path) :
    ∃ next, addFile realloc filePath memory = some ((), next) ∧
      Owns base next (held ++ [(⟨path, none, 0⟩, ⟨filePath, []⟩)]) [] := by
  obtain ⟨moved, last, current, count, ledger⟩ := growEntries_run owns grown
  have free := (realloc.unused _ _ _ copied).resolve_left nofun
  have allocated := (ledger.allocate free (.path filePath)).perm (List.Perm.swap _ _ _)
  have array : (middle.place path (some (.path filePath))).array =
      some (held.map Prod.fst ++ [last]) := by
    rw [TableMemory.array]
    simp only [place, current, Option.bind_some, allocated.head]
  have filled : (held.map Prod.fst ++ [last]).set held.length ⟨path, none, 0⟩ =
      held.map Prod.fst ++ [⟨path, none, 0⟩] := by
    rw [List.set_append_right _ _ (by simp)]
    simp
  have written := @writeEntry_run (middle.place path (some (.path filePath))) moved _
    held.length ⟨path, none, 0⟩ current array (by simp)
  have stored := allocated.store (.entries (held.map Prod.fst ++ [⟨path, none, 0⟩]))
  rw [filled] at written
  refine ⟨{ ((middle.place path (some (.path filePath))).place moved
      (some (.entries (held.map Prod.fst ++ [⟨path, none, 0⟩])))).touch [held.length] with
      numFileCount := held.length + 1 }, ?_, ?_⟩
  · rw [addFile, bind_of_some grown, bind_of_some (show (get : Run TableMemory) middle = _ from rfl)]
    rw [bind_of_some (show strdup realloc filePath middle =
        some (path, middle.place path (some (.path filePath))) by simp [strdup, copied]),
      count, bind_of_some written, ← count]
    rfl
  · refine Owns.of_current current (by simp) (by simp) ?_ ?_
    · rw [List.forall_mem_append]
      exact ⟨owns.counts, by simp⟩
    · refine stored.perm ?_
      simpa [cells, Entry.cells] using @List.perm_append_comm _ [_] (cells held)

structure Standing (base : Pointer → Option Block) (memory : TableMemory) (pointer : Pointer)
    (count : Nat) (cells : List (Pointer × Block)) : Prop where
  current : memory.fileToChunkState = some pointer
  count : memory.numFileCount = count
  ledger : Ledger base memory.heap cells

namespace Standing

variable {pointer : Pointer} {count : Nat} {rest more : List (Pointer × Block)}

theorem perm (standing : Standing base memory pointer count rest) (same : rest.Perm more) :
    Standing base memory pointer count more :=
  ⟨standing.current, standing.count, standing.ledger.perm same⟩

theorem owns (standing : Standing base memory pointer held.length
      ((pointer, .entries (held.map Prod.fst ++ spare)) :: cells held)) (nonempty : held ≠ [])
    (counts : ∀ pair ∈ held, (pair.1.chunkIds = none ↔ pair.2.chunkIds = []) ∧
      pair.1.numChunks = pair.2.chunkIds.length) : Owns base memory held spare :=
  ⟨by simp [standing.current, nonempty], standing.count, counts,
    by simpa [standing.current] using standing.ledger⟩

theorem writeEntry_run {entries : List Entry} {i : Nat} (standing :
      Standing base memory pointer count ((pointer, .entries entries) :: rest))
    (bound : i < entries.length) (entry : Entry) :
    ∃ next, writeEntry i entry memory = some ((), next) ∧
      Standing base next pointer count ((pointer, .entries (entries.set i entry)) :: rest) := by
  have array : memory.array = some entries := by
    simp [TableMemory.array, standing.current, standing.ledger.head]
  exact ⟨_, TableMemory.writeEntry_run entry standing.current array bound, standing.current,
    standing.count, standing.ledger.store _⟩

theorem writeId_run {values : List Int32} {target : Pointer} {i : Nat} (standing :
      Standing base memory pointer count ((target, .ids values) :: rest))
    (bound : i < values.length) (chunkId : Int32) :
    ∃ next, writeId target i chunkId memory = some ((), next) ∧
      Standing base next pointer count ((target, .ids (values.set i chunkId)) :: rest) :=
  ⟨memory.place target (some (.ids (values.set i chunkId))),
    by simp [writeId, standing.ledger.head, bound], standing.current, standing.count,
    standing.ledger.store _⟩

theorem reallocIds_run {values : List Int32} {chunkIds : Option Pointer} (standing :
      Standing base memory pointer count
        (chunkIds.toList.map (fun pointer => (pointer, Block.ids values)) ++ rest))
    (realloc : Realloc) (null : chunkIds = none → values = []) (size : Nat) :
    realloc.call chunkIds memory = none ∧
        reallocIds realloc chunkIds size memory = some (none, memory) ∨
      ∃ temp next, realloc.call chunkIds memory = some temp ∧
        reallocIds realloc chunkIds size memory = some (some temp, next) ∧
        Standing base next pointer count
          ((temp, .ids (resized values size realloc.newId)) :: rest) := by
  cases chunkIds with
  | none =>
      cases placed : realloc.call none memory with
      | none => exact Or.inl ⟨rfl, by simp [reallocIds, placed]⟩
      | some temp =>
          have free := (realloc.unused _ _ _ placed).resolve_left nofun
          refine Or.inr ⟨temp, memory.place temp (some (.ids (resized [] size realloc.newId))),
            rfl, by simp [reallocIds, placed], standing.current, standing.count, ?_⟩
          rw [null rfl]
          exact standing.ledger.allocate free _
  | some own =>
      have found : memory.heap own = some (.ids values) := standing.ledger.head
      cases placed : realloc.call (some own) memory with
      | none => exact Or.inl ⟨rfl, by simp [reallocIds, found, placed]⟩
      | some temp =>
          have stays := (realloc.unused _ _ _ placed).imp_left Option.some.inj
          refine Or.inr ⟨temp, (memory.place own none).place temp
              (some (.ids (resized values size realloc.newId))),
            rfl, by simp [reallocIds, found, placed], standing.current, standing.count, ?_⟩
          exact standing.ledger.move stays _

/-- The three stores after a `realloc` that gave room for one id more. -/
theorem record_run {entries : List Entry} {i temp : Nat} {entry : Entry} {values : List Int32}
    {last : Int32} (standing : Standing base memory pointer count
      ((temp, .ids (values ++ [last])) :: (pointer, .entries entries) :: rest))
    (bound : i < entries.length) (numChunks : entry.numChunks = values.length)
    (chunkId : Int32) :
    ∃ next, (do
        writeEntry i { entry with chunkIds := some temp }
        writeId temp entry.numChunks chunkId
        writeEntry i
          { entry with
            chunkIds := some temp
            numChunks := entry.numChunks + 1 }
        return true : Run Bool) memory = some (true, next) ∧
      Standing base next pointer count
        ((pointer, .entries (entries.set i
          { entry with
            chunkIds := some temp
            numChunks := entry.numChunks + 1 })) ::
          (temp, .ids (values ++ [chunkId])) :: rest) := by
  obtain ⟨first, pointed, standing⟩ := (standing.perm (List.Perm.swap _ _ _)).writeEntry_run bound
    { entry with chunkIds := some temp }
  obtain ⟨second, stored, standing⟩ := (standing.perm (List.Perm.swap _ _ _)).writeId_run
    (by simp [numChunks] : entry.numChunks < (values ++ [last]).length) chunkId
  obtain ⟨third, counted, standing⟩ := (standing.perm (List.Perm.swap _ _ _)).writeEntry_run
    (by simpa using bound)
    { entry with
      chunkIds := some temp
      numChunks := entry.numChunks + 1 }
  have filled : (values ++ [last]).set entry.numChunks chunkId = values ++ [chunkId] := by
    simp [numChunks]
  rw [List.set_set, filled] at standing
  exact ⟨third, by rw [bind_of_some pointed, bind_of_some stored, bind_of_some counted]; rfl, standing⟩

end Standing

theorem cells_concat (front : List (Entry × FileStateCurrentInner)) (entry : Entry)
    (file : FileStateCurrentInner) :
    cells (front ++ [(entry, file)]) = cells front ++ Entry.cells entry file := by
  simp [cells]

theorem pushChunkId_run {front : List (Entry × FileStateCurrentInner)} {entry : Entry}
    {file : FileStateCurrentInner} (realloc : Realloc)
    (owns : Owns base memory (front ++ [(entry, file)]) spare) (chunkId : Int32) :
    ∃ next, pushChunkId realloc front.length chunkId memory =
        some ((realloc.call entry.chunkIds (memory.touch [front.length])).isSome, next) ∧
      Owns base next (front ++
        [(entry.pushed (realloc.call entry.chunkIds (memory.touch [front.length])),
          StorageLayer.pushChunkId
            (realloc.call entry.chunkIds (memory.touch [front.length])).isSome file chunkId)])
        spare := by
  obtain ⟨pointer, current, array, ledger⟩ := owns.current (by simp)
  have null : entry.chunkIds = none ↔ file.chunkIds = [] := (owns.counts (entry, file) (by simp)).1
  have numChunks : entry.numChunks = file.chunkIds.length := (owns.counts (entry, file) (by simp)).2
  have listed : ((front ++ [(entry, file)]).map Prod.fst ++ spare)[front.length]? = some entry := by
    simp
  have standing : Standing base (memory.touch [front.length]) pointer (front.length + 1)
      (entry.chunkIds.toList.map (fun pointer => (pointer, Block.ids file.chunkIds)) ++
        ((pointer, .entries ((front ++ [(entry, file)]).map Prod.fst ++ spare)) ::
          (entry.filePath, .path file.filePath) :: cells front)) := by
    refine ⟨current, owns.count.trans (by simp), ledger.perm ?_⟩
    rw [cells_concat, Entry.cells, List.perm_iff_count]
    intro cell
    simp only [List.count_append, List.count_cons]
    omega
  rw [pushChunkId, bind_of_some (readEntry_run array listed)]
  rcases standing.reallocIds_run realloc null.mp (entry.numChunks + 1) with
    ⟨placed, failed⟩ | ⟨temp, moved, placed, resized, standing⟩
  · rw [bind_of_some failed, placed]
    exact ⟨_, rfl, owns.touch _⟩
  · obtain ⟨last, grown⟩ := resized_succ file.chunkIds [] realloc.newId
    rw [List.append_nil] at grown
    rw [numChunks, grown] at standing
    have bound : front.length < ((front ++ [(entry, file)]).map Prod.fst ++ spare).length := by simp
    obtain ⟨next, recorded, standing⟩ := standing.record_run bound numChunks chunkId
    rw [bind_of_some resized, placed]
    refine ⟨next, recorded, ?_⟩
    refine @Standing.owns base next _ spare pointer ?_ (by simp) ?_
    · rw [List.length_append, List.length_singleton]
      refine standing.perm ?_
      rw [cells_concat, StorageLayer.pushChunkId, if_pos Option.isSome_some]
      simp only [Entry.cells, Entry.pushed, List.map_append, List.map_cons, List.map_nil, List.append_assoc,
        List.singleton_append, Option.toList_some]
      rw [List.set_append_right _ _ (by simp), List.length_map, Nat.sub_self, List.set_cons_zero,
        List.perm_iff_count]
      intro cell
      simp only [List.count_append, List.count_cons, List.count_nil]
      omega
    · rw [List.forall_mem_append]
      refine ⟨fun pair member => owns.counts pair (by simp [member]), ?_⟩
      simp [StorageLayer.pushChunkId, Entry.pushed, numChunks]

def Supplied (realloc : Realloc) (memory : TableMemory) : Prop :=
  ∃ grown, growEntries realloc memory = some ((), grown) ∧ (realloc.call none grown).isSome

theorem addFile_isSome {realloc : Realloc} (filePath : Bytes)
    (owns : Owns base memory held spare) :
    (addFile realloc filePath memory).isSome ↔ Supplied realloc memory := by
  constructor
  · intro ran
    obtain ⟨_, ran⟩ := Option.isSome_iff_exists.mp ran
    obtain ⟨⟨_, middle⟩, grown, ran⟩ := Option.bind_eq_some_iff.mp ran
    obtain ⟨_, copied, _⟩ := Option.bind_eq_some_iff.mp ran
    obtain ⟨_, placed, _⟩ := Option.map_eq_some_iff.mp copied
    exact ⟨middle, grown, by rw [placed, Option.isSome_some]⟩
  · rintro ⟨middle, grown, copied⟩
    obtain ⟨path, copied⟩ := Option.isSome_iff_exists.mp copied
    obtain ⟨next, ran, _⟩ := addFile_run owns filePath grown copied
    rw [ran, Option.isSome_some]

theorem pushToLast_run {front : List (Entry × FileStateCurrentInner)} {entry : Entry}
    {file : FileStateCurrentInner} (realloc : Realloc)
    (owns : Owns base memory (front ++ [(entry, file)]) spare) (chunkId : Int32) :
    ∃ next, pushToLast realloc chunkId memory =
        some ((realloc.call entry.chunkIds (memory.touch [front.length])).isSome, next) ∧
      Owns base next (front ++
        [(entry.pushed (realloc.call entry.chunkIds (memory.touch [front.length])),
          StorageLayer.pushChunkId
            (realloc.call entry.chunkIds (memory.touch [front.length])).isSome file chunkId)])
        spare := by
  have count : memory.numFileCount = front.length + 1 := by rw [owns.count]; simp
  rw [pushToLast, bind_of_some (show (get : Run TableMemory) memory = _ from rfl), count]
  exact pushChunkId_run realloc owns chunkId

theorem readIds_run {entry : Entry} {file : FileStateCurrentInner}
    (holds : Holds memory.heap entry file) :
    readIds entry.chunkIds entry.numChunks memory = some (file.chunkIds, memory) := by
  rw [readIds, holds.numChunks]
  cases named : entry.chunkIds with
  | none => simp [holds.null named]
  | some pointer =>
      rw [Option.bind_some, holds.chunkIds pointer named]
      split
      · rename_i empty
        rw [List.eq_nil_of_length_eq_zero empty]
      · simp

theorem readFile_run {before after : List (Entry × FileStateCurrentInner)}
    {pair : Entry × FileStateCurrentInner} (owns : Owns base memory held spare)
    (split : held = before ++ pair :: after) :
    readFile before.length memory = some (pair.2, memory.touch [before.length]) := by
  obtain ⟨_, _, array, _⟩ := owns.current (by simp [split])
  have listed : (held.map Prod.fst ++ spare)[before.length]? = some pair.1 := by simp [split]
  have holds := owns.holds (show pair ∈ held by simp [split])
  rw [readFile, bind_of_some (readEntry_run array listed),
    bind_of_some (readPath_run (by simpa using holds.filePath)),
    bind_of_some (@readIds_run (memory.touch [before.length]) _ _ holds)]
  rfl

theorem printFiles_run (owns : Owns base memory held spare)
    (before rest : List (Entry × FileStateCurrentInner)) (split : held = before ++ rest) :
    ∃ indices, printFiles rest.length before.length memory =
      some (((rest.map Prod.snd).mapIdx fun i => fileText (before.length + i)).flatten,
        memory.touch indices) := by
  induction rest generalizing before memory with
  | nil => exact ⟨[], by rw [touch_nil]; rfl⟩
  | cons pair rest ih =>
      obtain ⟨indices, printed⟩ := ih (owns.touch [before.length]) (before ++ [pair])
        (by simpa using split)
      rw [List.length_append, List.length_singleton, touch_touch] at printed
      refine ⟨[before.length] ++ indices, ?_⟩
      rw [List.length_cons, printFiles, bind_of_some (readFile_run owns split),
        bind_of_some printed, List.map_cons, List.mapIdx_cons, List.flatten_cons]
      simp only [Nat.add_zero, Nat.add_assoc, Nat.add_comm 1]
      rfl

theorem printStorageState_run (owns : Owns base memory held spare) :
    ∃ indices, printStorageState memory =
      some (StorageLayer.printStorageState ⟨held.map Prod.snd⟩, memory.touch indices) := by
  obtain ⟨indices, printed⟩ := printFiles_run owns [] held rfl
  rw [List.length_nil] at printed
  refine ⟨indices, ?_⟩
  rw [printStorageState, bind_of_some (show (get : Run TableMemory) memory = _ from rfl),
    owns.count, bind_of_some printed, StorageLayer.printStorageState, List.length_map]
  simp only [Nat.zero_add]
  rfl

theorem Standing.freeEntry_run {pointer : Pointer} {count : Nat} {entries : List Entry} {i : Nat}
    {entry : Entry} {file : FileStateCurrentInner} {rest : List (Pointer × Block)}
    (standing : Standing base memory pointer count
      ((pointer, .entries entries) :: (Entry.cells entry file ++ rest)))
    (found : entries[i]? = some entry) :
    ∃ next, freeEntry i memory = some ((), next) ∧
      Standing base next pointer count ((pointer, .entries entries) :: rest) := by
  have array : memory.array = some entries := by
    simp [TableMemory.array, standing.current, standing.ledger.head]
  have nodup := standing.ledger.nodup
  rw [List.map_cons, List.map_append, Entry.cells_addresses, List.nodup_cons, List.mem_append,
    not_or, List.nodup_append] at nodup
  have live : ∀ address ∈ entry.owned, (memory.heap address).isSome := by
    rw [← Entry.cells_addresses entry file, List.forall_mem_map]
    intro cell member
    rw [standing.ledger.holds cell (by simp [member]), Option.isSome_some]
  have freed := TableMemory.freeEntry_run standing.current array found live
    (List.nodup_cons.mpr ⟨nodup.1.1, nodup.2.1⟩)
  refine ⟨_, freed, standing.current, standing.count, ?_⟩
  have released := (standing.ledger.perm (@List.perm_middle _ _ (Entry.cells entry file) _).symm).release
  rwa [Entry.cells_addresses] at released

theorem freeFiles_run {pointer : Pointer} {count : Nat} {entries : List Entry}
    (front : List Entry) (rest : List (Entry × FileStateCurrentInner))
    (standing : Standing base memory pointer count ((pointer, .entries entries) :: cells rest))
    (split : entries = front ++ rest.map Prod.fst ++ spare) :
    ∃ next, freeFiles rest.length front.length memory = some ((), next) ∧
      Standing base next pointer count [(pointer, .entries entries)] := by
  induction rest generalizing front memory with
  | nil => exact ⟨memory, rfl, standing⟩
  | cons pair rest ih =>
      obtain ⟨middle, freed, standing⟩ := Standing.freeEntry_run (i := front.length) standing
        (by simp [split])
      obtain ⟨next, ran, standing⟩ := ih (front ++ [pair.1]) standing (by simpa using split)
      rw [List.length_append, List.length_singleton] at ran
      exact ⟨next, by rw [List.length_cons, freeFiles, bind_of_some freed, ran], standing⟩

/-- Each block of the table is freed once and none is left. -/
theorem storageStateDestroy_run (owns : Owns base memory held spare) :
    ∃ next, storageStateDestroy memory = some ((), next) ∧ next.heap = base := by
  by_cases empty : held = []
  · have null := owns.null.mpr empty
    have ledger := owns.ledger
    rw [null, empty] at ledger
    refine ⟨memory, ?_, ledger.eq_base⟩
    rw [storageStateDestroy, bind_of_some (show (get : Run TableMemory) memory = _ from rfl),
      owns.count, empty, bind_of_some (show freeFiles _ 0 memory = some ((), memory) from rfl),
      bind_of_some (show (get : Run TableMemory) memory = _ from rfl), null]
    rfl
  · obtain ⟨pointer, current, _, ledger⟩ := owns.current empty
    obtain ⟨middle, freed, standing⟩ := freeFiles_run [] held ⟨current, owns.count, ledger⟩ rfl
    refine ⟨middle.place pointer none, ?_, standing.ledger.free.eq_base⟩
    rw [List.length_nil] at freed
    rw [storageStateDestroy, bind_of_some (show (get : Run TableMemory) memory = _ from rfl),
      owns.count, bind_of_some freed,
      bind_of_some (show (get : Run TableMemory) middle = _ from rfl), standing.current, free,
      if_pos (by rw [standing.ledger.head, Option.isSome_some])]

end TableMemory

end DistributedFileSystem.StorageLayer
