import DistributedFileSystem.StorageLayer.FileState

/-!
The chunk table as `remove_from_struct` (`state/fileState.c`) finds it in memory: an array of
entries that point to the paths and chunk ids they own.
-/

namespace DistributedFileSystem.StorageLayer

open ByteString Posix

abbrev Pointer := Nat

structure Entry where
  filePath : Pointer
  chunkIds : Option Pointer
  numChunks : Nat
  deriving DecidableEq, Repr

def Entry.owned (entry : Entry) : List Pointer := entry.filePath :: entry.chunkIds.toList

inductive Block where
  | path (text : Bytes)
  | ids (values : List Int32)
  | entries (array : List Entry)
  deriving DecidableEq, Repr

structure TableMemory where
  heap : Pointer → Option Block
  fileToChunkState : Option Pointer
  numFileCount : Nat
  /-- The indices of the array that have been read or written. -/
  accessed : List Nat

namespace TableMemory

/-- `none` is a run that has left defined behaviour: it used a `NULL` pointer, a block that
is not allocated, or an index past the end of its block. -/
abbrev Run := StateT TableMemory Option

def array (memory : TableMemory) : Option (List Entry) :=
  match memory.fileToChunkState.bind memory.heap with
  | some (.entries array) => some array
  | _ => none

def touch (memory : TableMemory) (indices : List Nat) : TableMemory :=
  { memory with accessed := memory.accessed ++ indices }

def place (memory : TableMemory) (pointer : Pointer) (block : Option Block) : TableMemory :=
  { memory with heap := Function.update memory.heap pointer block }

def move (memory : TableMemory) (pointer moved : Pointer) (entries : List Entry) : TableMemory :=
  { (memory.place pointer none).place moved (some (.entries entries)) with
    fileToChunkState := some moved }

def readEntry (i : Nat) : Run Entry := fun memory =>
  (memory.array.bind fun array => array[i]?).map fun entry => (entry, memory.touch [i])

def writeEntry (i : Nat) (entry : Entry) : Run Unit := fun memory =>
  match memory.fileToChunkState, memory.array with
  | some pointer, some array =>
      if i < array.length then
        some ((), (memory.place pointer (some (.entries (array.set i entry)))).touch [i])
      else none
  | _, _ => none

def readPath (pointer : Pointer) : Run Bytes := fun memory =>
  match memory.heap pointer with
  | some (.path text) => some (text, memory)
  | _ => none

def free (pointer : Option Pointer) : Run Unit := fun memory =>
  match pointer with
  | none => some ((), memory)
  | some pointer =>
      if (memory.heap pointer).isSome then some ((), memory.place pointer none) else none

def findEntry (filePath : Bytes) : Nat → Nat → Run (Option Nat)
  | 0, _ => pure none
  | count + 1, i => do
      let entry ← readEntry i
      if (← readPath entry.filePath) = filePath then
        return some i
      findEntry filePath count (i + 1)

def shiftEntries : Nat → Nat → Run Unit
  | 0, _ => pure ()
  | count + 1, i => do
      let next ← readEntry (i + 1)
      writeEntry i next
      shiftEntries count (i + 1)

def freeEntry (index : Nat) : Run Unit := do
  free (some (← readEntry index).filePath)
  free (← readEntry index).chunkIds

abbrev Allocator := TableMemory → Option Pointer

def reallocEntries (realloc : Allocator) : Run Unit := fun memory =>
  match memory.fileToChunkState, memory.array with
  | some pointer, some array =>
      match realloc memory with
      | none => some ((), memory)
      | some moved => some ((), memory.move pointer moved (array.take memory.numFileCount))
  | _, _ => none

def freeEntries : Run Unit := do
  free (← get).fileToChunkState
  modify fun memory => { memory with fileToChunkState := none }

def removeFromStruct (realloc : Allocator) (filePath : Bytes) : Run Unit := do
  let numFileCount := (← get).numFileCount
  match ← findEntry filePath numFileCount 0 with
  | none => return
  | some index =>
      freeEntry index
      shiftEntries (numFileCount - 1 - index) index
      modify fun memory => { memory with numFileCount := numFileCount - 1 }
      if 0 < numFileCount - 1 then
        reallocEntries realloc
      else
        freeEntries

variable {memory : TableMemory} {filePath : Bytes}

@[simp] theorem touch_array (memory : TableMemory) (indices : List Nat) :
    (memory.touch indices).array = memory.array := rfl

@[simp] theorem touch_heap (memory : TableMemory) (indices : List Nat) :
    (memory.touch indices).heap = memory.heap := rfl

@[simp] theorem touch_nil (memory : TableMemory) : memory.touch [] = memory := by
  rw [touch, List.append_nil]

@[simp] theorem touch_touch (memory : TableMemory) (first second : List Nat) :
    (memory.touch first).touch second = memory.touch (first ++ second) := by
  simp [touch, List.append_assoc]

@[simp] theorem touch_place (memory : TableMemory) (indices : List Nat) (pointer : Pointer)
    (block : Option Block) :
    (memory.touch indices).place pointer block = (memory.place pointer block).touch indices := rfl

@[simp] theorem place_place (memory : TableMemory) (pointer : Pointer)
    (first second : Option Block) :
    (memory.place pointer first).place pointer second = memory.place pointer second := by
  simp [place]

theorem readEntry_run {entries : List Entry} {i : Nat} {entry : Entry}
    (array : memory.array = some entries) (found : entries[i]? = some entry) :
    readEntry i memory = some (entry, memory.touch [i]) := by
  simp [readEntry, array, found]

theorem readPath_run {pointer : Pointer} {text : Bytes}
    (found : memory.heap pointer = some (.path text)) :
    readPath pointer memory = some (text, memory) := by
  simp [readPath, found]

structure Holds (heap : Pointer → Option Block) (entry : Entry) (file : FileStateCurrentInner) :
    Prop where
  filePath : heap entry.filePath = some (.path file.filePath)
  chunkIds : ∀ pointer ∈ entry.chunkIds, heap pointer = some (.ids file.chunkIds)
  null : entry.chunkIds = none → file.chunkIds = []
  numChunks : entry.numChunks = file.chunkIds.length

theorem findEntry_pass {held : List (Entry × FileStateCurrentInner)}
    (array : memory.array = some (held.map Prod.fst))
    (holds : ∀ pair ∈ held, Holds memory.heap pair.1 pair.2)
    (before passed after : List (Entry × FileStateCurrentInner))
    (split : held = before ++ passed ++ after)
    (others : ∀ pair ∈ passed, pair.2.filePath ≠ filePath) (count : Nat) :
    findEntry filePath (passed.length + count) before.length memory =
      findEntry filePath count (before.length + passed.length)
        (memory.touch (List.range' before.length passed.length)) := by
  induction passed generalizing before memory with
  | nil => simp
  | cons pair rest ih =>
      rw [List.forall_mem_cons] at others
      have found : (held.map Prod.fst)[before.length]? = some pair.1 := by simp [split]
      have named := (holds pair (by simp [split])).filePath
      have later := @ih (memory.touch [before.length]) (by simpa using array)
        (by simpa using holds) (before ++ [pair]) (by simpa using split) others.2
      rw [List.length_cons, Nat.add_right_comm, findEntry, bind_of_some (readEntry_run array found),
        bind_of_some (readPath_run (by simpa using named)), if_neg others.1]
      simpa [Nat.add_assoc, Nat.add_comm 1, List.range'_succ] using later

theorem place_array {pointer : Pointer} (current : memory.fileToChunkState = some pointer)
    (entries : List Entry) : (memory.place pointer (some (.entries entries))).array = some entries := by
  simp [array, place, current]

theorem writeEntry_run {pointer : Pointer} {entries : List Entry} {i : Nat} (entry : Entry)
    (current : memory.fileToChunkState = some pointer) (array : memory.array = some entries)
    (bound : i < entries.length) :
    writeEntry i entry memory =
      some ((), (memory.place pointer (some (.entries (entries.set i entry)))).touch [i]) := by
  simp [writeEntry, current, array, bound]

/-- The entries after the hole move down by one, and the last of them stays where it was too. -/
theorem shiftEntries_run {pointer : Pointer} (current : memory.fileToChunkState = some pointer)
    (before after : List Entry) (hole : Entry) :
    ∃ last indices,
      shiftEntries after.length before.length
          (memory.place pointer (some (.entries (before ++ hole :: after)))) =
        some ((), (memory.place pointer (some (.entries (before ++ after ++ [last])))).touch indices) ∧
      ∀ i ∈ indices, i < (before ++ hole :: after).length := by
  induction after generalizing before hole memory with
  | nil => exact ⟨hole, [], by rw [touch_nil, List.append_nil]; rfl, nofun⟩
  | cons next rest ih =>
      have array := place_array current (before ++ hole :: next :: rest)
      have found : (before ++ hole :: next :: rest)[before.length + 1]? = some next := by simp
      have written := @writeEntry_run ((memory.place pointer
        (some (.entries (before ++ hole :: next :: rest)))).touch [before.length + 1]) pointer _
        before.length next current array (by simp)
      obtain ⟨last, indices, shifted, bounded⟩ :=
        @ih (memory.touch [before.length + 1, before.length]) current (before ++ [next]) next
      refine ⟨last, (before.length + 1) :: before.length :: indices, ?_, ?_⟩
      · rw [List.length_cons, shiftEntries, bind_of_some (readEntry_run array found),
          bind_of_some written]
        simpa using shifted
      · simp only [List.forall_mem_cons]
        refine ⟨by simp, by simp, ?_⟩
        intro i member
        simpa using bounded i member

def clear (memory : TableMemory) (pointers : List Pointer) : TableMemory :=
  { memory with heap := fun pointer => if pointer ∈ pointers then none else memory.heap pointer }

theorem clear_touch (memory : TableMemory) (pointers : List Pointer) (indices : List Nat) :
    (memory.touch indices).clear pointers = (memory.clear pointers).touch indices := rfl

theorem clear_clear (memory : TableMemory) (first second : List Pointer) :
    (memory.clear first).clear second = memory.clear (first ++ second) := by
  simp only [clear, List.mem_append, mk.injEq, and_true]
  funext pointer
  by_cases early : pointer ∈ first
  · simp [early]
  · simp [early]

theorem free_run {pointer : Option Pointer}
    (live : ∀ address ∈ pointer, (memory.heap address).isSome) :
    free pointer memory = some ((), memory.clear pointer.toList) := by
  cases pointer with
  | none => simp [free, clear]
  | some address =>
      rw [free, if_pos (live address rfl)]
      simp only [place, clear, Option.some.injEq, Prod.mk.injEq, mk.injEq, and_true, true_and]
      funext other
      simp only [Function.update_apply, Option.toList_some, List.mem_singleton]

theorem clear_array {pointer : Pointer} (current : memory.fileToChunkState = some pointer)
    {pointers : List Pointer} (apart : pointer ∉ pointers) :
    (memory.clear pointers).array = memory.array := by
  simp [array, clear, current, apart]

theorem freeEntry_run {pointer : Pointer} {entries : List Entry} {index : Nat} {entry : Entry}
    (current : memory.fileToChunkState = some pointer) (array : memory.array = some entries)
    (found : entries[index]? = some entry)
    (live : ∀ address ∈ entry.owned, (memory.heap address).isSome)
    (apart : (pointer :: entry.owned).Nodup) :
    freeEntry index memory = some ((), (memory.clear entry.owned).touch [index, index]) := by
  rw [List.nodup_cons, Entry.owned, List.nodup_cons] at apart
  have path := @free_run (memory.touch [index]) (some entry.filePath) fun address same =>
    live address (by rw [Entry.owned, Option.mem_some_iff.mp same]; exact List.mem_cons_self)
  have again : (memory.clear [entry.filePath]).array = some entries := by
    rw [clear_array current (by
      intro same
      exact apart.1 (by rw [List.mem_singleton.mp same]; exact List.mem_cons_self)), array]
  have ids := @free_run ((memory.clear [entry.filePath]).touch [index, index]) entry.chunkIds (by
    intro address same
    have owned : address ∈ entry.chunkIds.toList := by rwa [Option.mem_toList]
    have other : address ≠ entry.filePath := fun equal => apart.2.1 (by rwa [← equal])
    simpa [clear, other] using live address (List.mem_cons_of_mem _ owned))
  rw [freeEntry, bind_of_some (readEntry_run array found), bind_of_some path,
    bind_of_some (readEntry_run (by simpa [clear_touch] using again) found)]
  rw [Option.toList_some, clear_touch, touch_touch, List.singleton_append, ids, clear_touch,
    clear_clear]
  rfl

def Succeeds (realloc : Allocator) : Prop :=
  ∀ memory pointer, memory.fileToChunkState = some pointer →
    ∃ moved, realloc memory = some moved ∧ (moved = pointer ∨ memory.heap moved = none)

/-- The memory holds these entries: each block is owned once, and the array has no room for
an entry more. -/
structure Represents (memory : TableMemory) (held : List (Entry × FileStateCurrentInner)) :
    Prop where
  null : memory.fileToChunkState = none ↔ held = []
  array : ∀ pointer ∈ memory.fileToChunkState,
    memory.heap pointer = some (.entries (held.map Prod.fst))
  count : memory.numFileCount = held.length
  holds : ∀ pair ∈ held, Holds memory.heap pair.1 pair.2
  apart : (memory.fileToChunkState.toList ++ held.flatMap fun pair => pair.1.owned).Nodup

theorem Holds.live {heap : Pointer → Option Block} {entry : Entry} {file : FileStateCurrentInner}
    (holds : Holds heap entry file) : ∀ address ∈ entry.owned, (heap address).isSome := by
  rw [Entry.owned, List.forall_mem_cons]
  refine ⟨by rw [holds.filePath, Option.isSome_some], ?_⟩
  intro address owned
  rw [holds.chunkIds address (Option.mem_toList.mp owned), Option.isSome_some]

theorem Holds.frame {before after : Pointer → Option Block} {entry : Entry}
    {file : FileStateCurrentInner} (holds : Holds before entry file)
    (same : ∀ address ∈ entry.owned, after address = before address) : Holds after entry file := by
  rw [Entry.owned, List.forall_mem_cons] at same
  refine ⟨same.1.trans holds.filePath, ?_, holds.null, holds.numChunks⟩
  intro pointer named
  rw [same.2 pointer (Option.mem_toList.mpr named), holds.chunkIds pointer named]

/-- The last of the entries is followed by nothing, and the array goes with it. -/
theorem shrink_run {pointer : Pointer} {entries : List Entry} {last : Entry} {realloc : Allocator}
    (succeeds : Succeeds realloc) (current : memory.fileToChunkState = some pointer)
    (count : memory.numFileCount = entries.length)
    (found : memory.heap pointer = some (.entries (entries ++ [last]))) :
    ∃ next, (if 0 < memory.numFileCount then reallocEntries realloc else freeEntries) memory =
        some ((), next) ∧ next.numFileCount = memory.numFileCount ∧
      next.accessed = memory.accessed ∧
      (next.fileToChunkState = none ↔ entries = []) ∧
      (∀ moved ∈ next.fileToChunkState, next.heap moved = some (.entries entries)) ∧
      ∀ address, (memory.heap address).isSome → address ≠ pointer →
        next.heap address = memory.heap address ∧ next.fileToChunkState ≠ some address := by
  have array : memory.array = some (entries ++ [last]) := by simp [TableMemory.array, current, found]
  split
  · rename_i some
    have nonempty : entries ≠ [] := by
      rintro rfl
      simp [count] at some
    obtain ⟨moved, placed, free⟩ := succeeds memory pointer current
    refine ⟨memory.move pointer moved entries, ?_, rfl, rfl, ?_, ?_, ?_⟩
    · simp [reallocEntries, current, array, placed, count]
    · simp [move, nonempty]
    · simp [move, place]
    · intro address live other
      have elsewhere : address ≠ moved := by
        rintro rfl
        rcases free with here | empty
        · exact other here
        · simp [empty] at live
      exact ⟨by simp [move, place, other, elsewhere], by simpa [move] using elsewhere.symm⟩
  · rename_i none
    have empty : entries = [] := List.eq_nil_of_length_eq_zero (by omega)
    have freed := @free_run memory (some pointer) (by simp [found])
    refine ⟨{ memory.clear [pointer] with fileToChunkState := Option.none }, ?_, rfl, rfl, ?_, ?_, ?_⟩
    · change (free memory.fileToChunkState >>= fun _ => modify _) memory = _
      rw [current, bind_of_some freed]
      rfl
    · simp [empty]
    · simp
    · intro address live other
      simp [clear, other]

theorem Represents.current {held : List (Entry × FileStateCurrentInner)}
    (represents : Represents memory held) (nonempty : held ≠ []) :
    ∃ pointer, memory.fileToChunkState = some pointer ∧
      memory.heap pointer = some (.entries (held.map Prod.fst)) ∧
      memory.array = some (held.map Prod.fst) := by
  have present : memory.fileToChunkState ≠ none := fun none => nonempty (represents.null.mp none)
  obtain ⟨pointer, current⟩ := Option.ne_none_iff_exists'.mp present
  have found := represents.array pointer current
  exact ⟨pointer, current, found, by simp [TableMemory.array, current, found]⟩

theorem findEntry_found {held before after : List (Entry × FileStateCurrentInner)}
    {hole : Entry × FileStateCurrentInner} (represents : Represents memory held)
    (split : held = before ++ hole :: after) (others : ∀ pair ∈ before, pair.2.filePath ≠ filePath)
    (named : hole.2.filePath = filePath) :
    ∃ indices, findEntry filePath memory.numFileCount 0 memory =
        some (some before.length, memory.touch indices) ∧
      ∀ i ∈ indices, i < memory.numFileCount := by
  obtain ⟨_, _, _, array⟩ := represents.current (by simp [split])
  have count : memory.numFileCount = before.length + (after.length + 1) := by
    simp [represents.count, split]
  have found : (held.map Prod.fst)[before.length]? = some hole.1 := by simp [split]
  have path := (represents.holds hole (by simp [split])).filePath
  have passed := findEntry_pass array represents.holds [] before (hole :: after) split others
    (after.length + 1)
  rw [List.length_nil, Nat.zero_add] at passed
  refine ⟨List.range' 0 before.length ++ [before.length], ?_, ?_⟩
  · have read := @readEntry_run (memory.touch (List.range' 0 before.length)) _ before.length hole.1
      array found
    rw [count, passed, findEntry, bind_of_some read,
      bind_of_some (readPath_run (by simpa using path)), if_pos named, touch_touch]
    rfl
  · intro i member
    simp only [List.mem_append, List.mem_range'_1, List.mem_singleton] at member
    omega

theorem findEntry_missing {held : List (Entry × FileStateCurrentInner)}
    (represents : Represents memory held) (others : ∀ pair ∈ held, pair.2.filePath ≠ filePath) :
    ∃ indices, findEntry filePath memory.numFileCount 0 memory =
        some (none, memory.touch indices) ∧
      ∀ i ∈ indices, i < memory.numFileCount := by
  by_cases empty : held = []
  · have count : memory.numFileCount = 0 := by simp [represents.count, empty]
    exact ⟨[], by rw [count, touch_nil]; rfl, nofun⟩
  · obtain ⟨_, _, _, array⟩ := represents.current empty
    have passed := findEntry_pass array represents.holds [] held [] (by simp) others 0
    rw [List.length_nil, Nat.zero_add, Nat.add_zero] at passed
    refine ⟨List.range' 0 held.length, ?_, ?_⟩
    · rw [represents.count, passed]
      rfl
    · intro i member
      rw [represents.count, ← Nat.zero_add held.length]
      exact (List.mem_range'_1.mp member).2

theorem place_self {pointer : Pointer} {block : Option Block} (found : memory.heap pointer = block) :
    memory.place pointer block = memory := by
  rw [place, ← found, Function.update_eq_self]

theorem Represents.around {before after : List (Entry × FileStateCurrentInner)}
    {hole : Entry × FileStateCurrentInner} {pointer : Pointer}
    (represents : Represents memory (before ++ hole :: after))
    (current : memory.fileToChunkState = some pointer) :
    (pointer :: hole.1.owned).Nodup ∧
      ((before ++ after).flatMap fun pair => pair.1.owned).Nodup ∧
      ∀ address ∈ (before ++ after).flatMap fun pair => pair.1.owned,
        (memory.heap address).isSome ∧ address ≠ pointer ∧ address ∉ hole.1.owned := by
  have apart := represents.apart
  have holeFirst := List.perm_append_comm_assoc (before.flatMap fun pair => pair.1.owned)
    hole.1.owned (after.flatMap fun pair => pair.1.owned)
  rw [current, Option.toList_some, List.singleton_append, List.nodup_cons, List.flatMap_append,
    List.flatMap_cons, holeFirst.nodup_iff, holeFirst.mem_iff, List.nodup_append, List.mem_append,
    not_or, ← List.flatMap_append] at apart
  obtain ⟨⟨notHole, notOthers⟩, holeNodup, othersNodup, disjoint⟩ := apart
  refine ⟨List.nodup_cons.mpr ⟨notHole, holeNodup⟩, othersNodup, ?_⟩
  intro address owned
  obtain ⟨pair, member, mine⟩ := List.mem_flatMap.mp owned
  have listed : pair ∈ before ++ hole :: after := by
    rw [List.mem_append] at member ⊢
    exact member.imp_right (List.mem_cons_of_mem _)
  refine ⟨(represents.holds pair listed).live address mine, ?_, ?_⟩
  · rintro rfl
    exact notOthers owned
  · intro theirs
    exact disjoint address theirs address owned rfl

theorem Represents.without {next : TableMemory} {before after : List (Entry × FileStateCurrentInner)}
    {hole : Entry × FileStateCurrentInner} {pointer : Pointer}
    (represents : Represents memory (before ++ hole :: after))
    (current : memory.fileToChunkState = some pointer)
    (null : next.fileToChunkState = none ↔ (before ++ after).map Prod.fst = [])
    (array : ∀ moved ∈ next.fileToChunkState,
      next.heap moved = some (.entries ((before ++ after).map Prod.fst)))
    (count : next.numFileCount = (before ++ after).length)
    (same : ∀ address ∈ (before ++ after).flatMap fun pair => pair.1.owned,
      next.heap address = memory.heap address ∧ next.fileToChunkState ≠ some address) :
    Represents next (before ++ after) := by
  refine ⟨by rw [null, List.map_eq_nil_iff], array, count, ?_, ?_⟩
  · intro pair member
    have listed : pair ∈ before ++ hole :: after := by
      rw [List.mem_append] at member ⊢
      exact member.imp_right (List.mem_cons_of_mem _)
    apply (represents.holds pair listed).frame
    intro address owned
    exact (same address (List.mem_flatMap.mpr ⟨pair, member, owned⟩)).1
  · rw [List.nodup_append]
    refine ⟨?_, (represents.around current).2.1, ?_⟩
    · cases next.fileToChunkState with
      | none => simp
      | some moved => simp
    · intro moved isArray address owned equal
      rw [equal, Option.mem_toList] at isArray
      exact (same address owned).2 isArray

/-- The gap that an entry leaves is closed: the blocks it owned are gone, the array holds the
others in their order, and one entry more than they are. -/
theorem closeGap_run {before after : List (Entry × FileStateCurrentInner)}
    {hole : Entry × FileStateCurrentInner} {pointer : Pointer}
    (represents : Represents memory (before ++ hole :: after))
    (current : memory.fileToChunkState = some pointer) (indices : List Nat) :
    ∃ middle last more,
      freeEntry before.length (memory.touch indices) = some ((), middle) ∧
      shiftEntries after.length before.length middle =
        some ((), ((memory.clear hole.1.owned).place pointer
          (some (.entries ((before ++ after).map Prod.fst ++ [last])))).touch (indices ++ more)) ∧
      ∀ i ∈ more, i < memory.numFileCount := by
  obtain ⟨_, same, found, array⟩ := represents.current (by simp)
  obtain rfl := Option.some.inj (current.symm.trans same)
  obtain ⟨holeApart, _, _⟩ := represents.around current
  have live := (represents.holds hole (by simp)).live
  have freed := @freeEntry_run (memory.touch indices) pointer _ before.length hole.1 current array
    (by simp) live holeApart
  rw [clear_touch, touch_touch] at freed
  have cleared : (memory.clear hole.1.owned).heap pointer =
      some (.entries (before.map Prod.fst ++ hole.1 :: after.map Prod.fst)) := by
    rw [List.nodup_cons] at holeApart
    simpa [clear, holeApart.1] using found
  obtain ⟨last, shifts, shifted, bounded⟩ :=
    @shiftEntries_run ((memory.clear hole.1.owned).touch (indices ++ [before.length, before.length]))
      pointer current (before.map Prod.fst) (after.map Prod.fst) hole.1
  rw [touch_place, place_self cleared, touch_place, touch_touch, List.length_map, List.length_map,
    ← List.map_append, List.append_assoc indices] at shifted
  refine ⟨_, last, [before.length, before.length] ++ shifts, freed, shifted, ?_⟩
  intro i member
  have count : memory.numFileCount = before.length + (after.length + 1) := by
    simp [represents.count]
  simp only [List.length_append, List.length_map, List.length_cons, ← count] at bounded
  rcases List.mem_append.mp member with freedAt | late
  · simp at freedAt
    omega
  · exact bounded i late

theorem removeFromStruct_found {before after : List (Entry × FileStateCurrentInner)}
    {hole : Entry × FileStateCurrentInner} {realloc : Allocator} (succeeds : Succeeds realloc)
    (represents : Represents memory (before ++ hole :: after))
    (others : ∀ pair ∈ before, pair.2.filePath ≠ filePath) (named : hole.2.filePath = filePath) :
    ∃ next indices, removeFromStruct realloc filePath memory = some ((), next) ∧
      next.accessed = memory.accessed ++ indices ∧ (∀ i ∈ indices, i < memory.numFileCount) ∧
      Represents next (before ++ after) := by
  obtain ⟨pointer, current, _, _⟩ := represents.current (by simp)
  obtain ⟨search, searched, searchBound⟩ := findEntry_found represents rfl others named
  obtain ⟨middle, last, more, freed, shifted, moreBound⟩ :=
    closeGap_run represents current search
  obtain ⟨_, _, around⟩ := represents.around current
  have count : memory.numFileCount = before.length + after.length + 1 := by
    simp [represents.count, Nat.add_assoc]
  obtain ⟨next, shrunk, nextCount, accessed, null, nextArray, kept⟩ :=
    @shrink_run { ((memory.clear hole.1.owned).place pointer
        (some (.entries ((before ++ after).map Prod.fst ++ [last])))).touch (search ++ more) with
        numFileCount := memory.numFileCount - 1 }
      pointer ((before ++ after).map Prod.fst) last realloc succeeds current
      (by simp [count]) (by simp [touch, place])
  refine ⟨next, search ++ more, ?_, accessed, ?_, ?_⟩
  · have rest : memory.numFileCount - 1 - before.length = after.length := by omega
    rw [removeFromStruct, bind_of_some (show (get : Run TableMemory) memory = _ from rfl),
      bind_of_some searched]
    dsimp only
    rw [bind_of_some freed, rest, bind_of_some shifted]
    exact shrunk
  · rw [List.forall_mem_append]
    exact ⟨searchBound, moreBound⟩
  · apply represents.without current null nextArray
    · rw [nextCount, List.length_append]
      simp [count]
    · intro address owned
      obtain ⟨allocated, notArray, notHole⟩ := around address owned
      have still := kept address (by simpa [touch, place, clear, notArray, notHole] using allocated)
        notArray
      simpa [touch, place, clear, notArray, notHole] using still

theorem removeFromStruct_run {held : List (Entry × FileStateCurrentInner)} {realloc : Allocator}
    (succeeds : Succeeds realloc) (represents : Represents memory held) (filePath : Bytes) :
    ∃ next indices, removeFromStruct realloc filePath memory = some ((), next) ∧
      next.accessed = memory.accessed ++ indices ∧ (∀ i ∈ indices, i < memory.numFileCount) ∧
      ((∀ pair ∈ held, pair.2.filePath ≠ filePath) → next = memory.touch indices) ∧
      Represents next (held.eraseP fun pair => pair.2.filePath = filePath) := by
  by_cases listed : ∃ pair ∈ held, pair.2.filePath = filePath
  · obtain ⟨hole, member, named⟩ := listed
    obtain ⟨hole, before, after, others, named, rfl, erased⟩ :=
      List.exists_of_eraseP (p := fun pair => pair.2.filePath = filePath) member (by simpa using named)
    simp only [decide_eq_true_eq] at others named
    obtain ⟨next, indices, ran, accessed, bounded, left⟩ :=
      removeFromStruct_found succeeds represents others named
    refine ⟨next, indices, ran, accessed, bounded, ?_, by rwa [erased]⟩
    intro missing
    exact absurd named (missing hole (by simp))
  · have missing : ∀ pair ∈ held, pair.2.filePath ≠ filePath :=
      fun pair member same => listed ⟨pair, member, same⟩
    obtain ⟨indices, searched, bounded⟩ := findEntry_missing represents missing
    refine ⟨memory.touch indices, indices, ?_, rfl, bounded, fun _ => rfl, ?_⟩
    · rw [removeFromStruct, bind_of_some (show (get : Run TableMemory) memory = _ from rfl),
        bind_of_some searched]
      rfl
    · rw [List.eraseP_of_forall_not (by simpa using missing)]
      exact ⟨represents.null, represents.array, represents.count, represents.holds, represents.apart⟩

/-- The first entry of that name is erased in place and nothing else changes. -/
theorem removeFromStruct_erases {held : List (Entry × FileStateCurrentInner)} {realloc : Allocator}
    (succeeds : Succeeds realloc) (represents : Represents memory held) (filePath : Bytes) :
    ∃ next indices, removeFromStruct realloc filePath memory = some ((), next) ∧
      next.accessed = memory.accessed ++ indices ∧ (∀ i ∈ indices, i < memory.numFileCount) ∧
      ((∀ pair ∈ held, pair.2.filePath ≠ filePath) → next = memory.touch indices) ∧
      ((∃ pair ∈ held, pair.2.filePath = filePath) →
        Represents next (held.eraseP fun pair => pair.2.filePath = filePath) ∧
        next.numFileCount + 1 = memory.numFileCount ∧
        (next.fileToChunkState = none ↔ memory.numFileCount = 1)) := by
  obtain ⟨next, indices, ran, accessed, bounded, missing, left⟩ :=
    removeFromStruct_run succeeds represents filePath
  refine ⟨next, indices, ran, accessed, bounded, missing, ?_⟩
  rintro ⟨pair, member, named⟩
  have shorter := List.length_eraseP_of_mem (p := fun pair => pair.2.filePath = filePath) member
    (by simpa using named)
  have nonempty := List.length_pos_of_mem member
  have count : next.numFileCount + 1 = memory.numFileCount := by
    rw [left.count, represents.count, shorter]
    omega
  refine ⟨left, count, ?_⟩
  rw [left.null, ← List.length_eq_zero_iff, ← left.count]
  omega

def threeEntries : List (Entry × FileStateCurrentInner) := [
  (⟨2, some 3, 1⟩, ⟨ascii "a", [1]⟩),
  (⟨4, none, 0⟩, ⟨ascii "b", []⟩),
  (⟨5, some 6, 2⟩, ⟨ascii "c", [2, 3]⟩)]

def threeFiles : TableMemory where
  heap
    | 1 => some (.entries (threeEntries.map Prod.fst))
    | 2 => some (.path (ascii "a"))
    | 3 => some (.ids [1])
    | 4 => some (.path (ascii "b"))
    | 5 => some (.path (ascii "c"))
    | 6 => some (.ids [2, 3])
    | _ => none
  fileToChunkState := some 1
  numFileCount := 3
  accessed := []

theorem threeFiles_represents : Represents threeFiles threeEntries := by
  refine ⟨by decide, ?_, rfl, ?_, by decide⟩
  · rintro pointer ⟨⟩
    rfl
  · simp only [threeEntries, List.forall_mem_cons]
    refine ⟨⟨rfl, ?_, nofun, rfl⟩, ⟨rfl, nofun, fun _ => rfl, rfl⟩, ⟨rfl, ?_, nofun, rfl⟩, nofun⟩
    · rintro pointer ⟨⟩
      rfl
    · rintro pointer ⟨⟩
      rfl

theorem removeFromStruct_erases_middle : ∃ next indices,
    removeFromStruct (fun memory => memory.fileToChunkState) (ascii "b") threeFiles =
        some ((), next) ∧
      next.accessed = threeFiles.accessed ++ indices ∧ (∀ i ∈ indices, i < threeFiles.numFileCount) ∧
      ((∀ pair ∈ threeEntries, pair.2.filePath ≠ ascii "b") → next = threeFiles.touch indices) ∧
      ((∃ pair ∈ threeEntries, pair.2.filePath = ascii "b") →
        Represents next (threeEntries.eraseP fun pair => pair.2.filePath = ascii "b") ∧
        next.numFileCount + 1 = threeFiles.numFileCount ∧
        (next.fileToChunkState = none ↔ threeFiles.numFileCount = 1)) :=
  removeFromStruct_erases (fun _ pointer current => ⟨pointer, current, Or.inl rfl⟩)
    threeFiles_represents (ascii "b")

end TableMemory

end DistributedFileSystem.StorageLayer
