import DistributedFileSystem.StorageLayer.DataPack
import DistributedFileSystem.StorageLayer.HealthCleanup
import DistributedFileSystem.StorageLayer.TableRuns

/-!
`return_current_state_encoded_in_protobufs` in memory: under the lock it copies the pointers
of the table, it reads the names and chunk ids through them after `pthread_mutex_unlock`, and
it frees the copies under a count that is read anew at each test.
-/

namespace DistributedFileSystem.StorageLayer

open ByteString HeapCells Posix Transition

namespace TableMemory

/-- A `Data__FileMappings`: what it copies are pointers. -/
structure Mapping where
  filename : Pointer
  nChunkIds : Nat
  chunkIds : Option Pointer
  deriving DecidableEq, Repr

/-- Where the encoder stands: outside of a call, past the unlock, past `get_packed_size`
with a buffer of that size, past the packing, or before a test of the loop that frees. -/
inductive Stage where
  | returned
  | unlocked
  | sized (len : Nat)
  | packed
  | freeing (i : Nat)
  deriving DecidableEq, Repr

def Stage.reading : Stage → Bool
  | .unlocked | .sized _ => true
  | _ => false

structure Reporting where
  memory : TableMemory
  stage : Stage
  fileMappings : List Mapping
  /-- What the copied pointers led to under the lock. -/
  listed : List FileMappings
  buffer : Option Bytes
  freed : List Nat

def collectMappings : Nat → Nat → Run (List Mapping)
  | 0, _ => pure []
  | count + 1, i => do
      let file ← readEntry i
      let fm := {
        filename := file.filePath
        nChunkIds := file.numChunks
        chunkIds := file.chunkIds }
      return fm :: (← collectMappings count (i + 1))

def readMapping (fm : Mapping) : Run FileMappings := do
  return {
    filename := ← readPath fm.filename
    chunkIds := ← readIds fm.chunkIds fm.nChunkIds }

def readMappings : List Mapping → Run (List FileMappings)
  | [] => pure []
  | fm :: rest => do
      let mapping ← readMapping fm
      return mapping :: (← readMappings rest)

/-- What the encoder does next, where `granted` is what the calls of `malloc` in it come to.
`none` goes through `NULL` or a pointer to no such block, or leaves an array or the buffer. -/
def encode (granted : Bool) (threads : Reporting) : Option Reporting :=
  match threads.stage with
  | .returned =>
      if 0 < threads.memory.numFileCount ∧ granted = false then none
      else (collectMappings threads.memory.numFileCount 0 threads.memory).map
        fun (fileMappings, memory) => {
          memory := memory
          stage := .unlocked
          fileMappings := fileMappings
          listed := ((readMappings fileMappings memory).map Prod.fst).getD []
          buffer := none
          freed := [] }
  | .unlocked =>
      (readMappings threads.fileMappings threads.memory).map fun (mappings, memory) =>
        { threads with
          memory := memory
          stage := .sized (MessageFromStorageToMaster.pack (.health mappings)).length }
  | .sized len =>
      (readMappings threads.fileMappings threads.memory).bind fun (mappings, memory) =>
        let buf := MessageFromStorageToMaster.pack (.health mappings)
        if granted = true ∧ buf.length ≤ len then
          some { threads with
            memory := memory
            stage := .packed
            buffer := some buf }
        else none
  | .packed =>
      some { threads with
        stage := if 0 < threads.memory.numFileCount then .freeing 0 else .returned }
  | .freeing i =>
      if i < threads.memory.numFileCount then
        if i < threads.fileMappings.length then
          some { threads with
            stage := .freeing (i + 1)
            freed := threads.freed ++ [i] }
        else none
      else some { threads with stage := .returned }

inductive Turn where
  | call (call : Call)
  | encode (granted : Bool)

def turn (threads : Reporting) : Turn → Option (Unit × Reporting)
  | .call call =>
      (serve threads.memory call).map fun (_, memory) => ((), { threads with memory := memory })
  | .encode granted => (encode granted threads).map fun next => ((), next)

def Reporting.start (base : Pointer → Option Block) : Reporting where
  memory := init base
  stage := .returned
  fileMappings := []
  listed := []
  buffer := none
  freed := []

structure Whole (threads : Reporting) : Prop where
  leads : threads.stage.reading →
    readMappings threads.fileMappings threads.memory = some (threads.listed, threads.memory)
  packed : ∀ buffer ∈ threads.buffer,
    buffer = MessageFromStorageToMaster.pack (.health threads.listed)

/-- While the encoder reads through its pointers, no listed file is removed, and the chunk ids
of the last listed file stay where they are when one more is pushed. -/
def Spares (threads : Reporting) : Call → Prop
  | .removeFromStruct _ filePath =>
      threads.stage.reading → ∀ index next,
        findEntry filePath threads.memory.numFileCount 0 threads.memory = some (some index, next) →
        threads.fileMappings.length ≤ index
  | .insertToStruct realloc _ _ true =>
      threads.stage.reading → threads.memory.numFileCount = threads.fileMappings.length →
      ∀ fm ∈ threads.fileMappings.getLast?, ∀ pointer moved, fm.chunkIds = some pointer →
        realloc.call (some pointer)
          (threads.memory.touch [threads.memory.numFileCount - 1]) = some moved →
        moved = pointer
  | _ => True

/-- No allocation of the step is refused, and the cleanup frees no more than was allocated. -/
def Encodes (threads : Reporting) (granted : Bool) : Prop :=
  match threads.stage with
  | .returned => 0 < threads.memory.numFileCount → granted = true
  | .sized _ => granted = true
  | .freeing i => i < threads.memory.numFileCount → i < threads.fileMappings.length
  | _ => True

def Safe (threads : Reporting) : Turn → Prop
  | .call call => Defined threads.memory call ∧ Spares threads call
  | .encode granted => Encodes threads granted

structure Copied (copy : Mapping × FileMappings) (pair : Entry × FileStateCurrentInner) :
    Prop where
  filename : copy.1.filename = pair.1.filePath
  name : copy.2.filename = pair.2.filePath
  nChunkIds : copy.1.nChunkIds = copy.2.chunkIds.length
  chunkIds : copy.1.chunkIds = pair.1.chunkIds ∨ copy.1.chunkIds = none
  null : copy.1.chunkIds = none ↔ copy.2.chunkIds = []
  ids : copy.2.chunkIds <+: pair.2.chunkIds

def Copies (threads : Reporting) (held : List (Entry × FileStateCurrentInner)) : Prop :=
  ∃ copies front added, held = front ++ added ∧ threads.fileMappings = copies.map Prod.fst ∧
    threads.listed = copies.map Prod.snd ∧ List.Forall₂ Copied copies front

structure Steady (base : Pointer → Option Block) (threads : Reporting)
    (held : List (Entry × FileStateCurrentInner)) : Prop where
  owns : ∃ spare, Owns base threads.memory held spare
  copies : threads.stage.reading → Copies threads held
  room : ∀ len, threads.stage = .sized len →
    (MessageFromStorageToMaster.pack (.health threads.listed)).length = len
  packed : ∀ buffer ∈ threads.buffer,
    buffer = MessageFromStorageToMaster.pack (.health threads.listed)

variable {base : Pointer → Option Block} {memory : TableMemory}
  {held : List (Entry × FileStateCurrentInner)} {spare : List Entry}

theorem readMapping_run {copy : Mapping × FileMappings} {pair : Entry × FileStateCurrentInner}
    (copied : Copied copy pair) (holds : Holds memory.heap pair.1 pair.2) :
    readMapping copy.1 memory = some (copy.2, memory) := by
  have path : readPath copy.1.filename memory = some (copy.2.filename, memory) := by
    rw [copied.filename, copied.name]
    exact readPath_run holds.filePath
  have ids : readIds copy.1.chunkIds copy.1.nChunkIds memory = some (copy.2.chunkIds, memory) := by
    rw [readIds, copied.nChunkIds]
    split
    · rename_i empty
      rw [List.eq_nil_of_length_eq_zero empty]
    · rename_i some
      have pointed : copy.1.chunkIds ≠ none := fun none => some (by
        rw [copied.null.mp none, List.length_nil])
      obtain ⟨pointer, named⟩ := Option.ne_none_iff_exists'.mp pointed
      have own := copied.chunkIds.resolve_right pointed
      rw [named, Option.bind_some, holds.chunkIds pointer (own.symm.trans named)]
      simp [copied.ids.length_le, List.prefix_iff_eq_take.mp copied.ids |>.symm]
  rw [readMapping, bind_of_some path, bind_of_some ids]
  rfl

theorem readMappings_run {copies : List (Mapping × FileMappings)}
    {front : List (Entry × FileStateCurrentInner)} (copied : List.Forall₂ Copied copies front)
    (holds : ∀ pair ∈ front, Holds memory.heap pair.1 pair.2) :
    readMappings (copies.map Prod.fst) memory = some (copies.map Prod.snd, memory) := by
  induction copied with
  | nil => rfl
  | cons first _ ih =>
      rw [List.forall_mem_cons] at holds
      rw [List.map_cons, readMappings, bind_of_some (readMapping_run first holds.1),
        bind_of_some (ih holds.2)]
      rfl

theorem collectMappings_run (owns : Owns base memory held spare)
    (before rest : List (Entry × FileStateCurrentInner)) (split : held = before ++ rest) :
    ∃ copies indices, collectMappings rest.length before.length memory =
        some (copies.map Prod.fst, memory.touch indices) ∧ List.Forall₂ Copied copies rest ∧
      copies.map Prod.snd = (rest.map Prod.snd).map mappingOf := by
  induction rest generalizing before memory with
  | nil => exact ⟨[], [], by rw [touch_nil]; rfl, List.Forall₂.nil, rfl⟩
  | cons pair rest ih =>
      obtain ⟨_, _, array, _⟩ := owns.current (by simp [split])
      have listed : (held.map Prod.fst ++ spare)[before.length]? = some pair.1 := by simp [split]
      obtain ⟨copies, indices, collected, copied, listing⟩ := ih (owns.touch [before.length])
        (before ++ [pair]) (by simpa using split)
      obtain ⟨null, numChunks⟩ := owns.counts pair (by simp [split])
      refine ⟨(⟨pair.1.filePath, pair.1.numChunks, pair.1.chunkIds⟩, mappingOf pair.2) :: copies,
        [before.length] ++ indices, ?_, List.Forall₂.cons ?_ copied, by simp [listing]⟩
      · rw [List.length_append, List.length_singleton, touch_touch] at collected
        rw [List.length_cons, collectMappings, bind_of_some (readEntry_run array listed)]
        rw [bind_of_some collected]
        rfl
      · exact ⟨rfl, rfl, numChunks, Or.inl rfl, null, List.prefix_refl _⟩

theorem readMapping_reads {fm : Mapping} {mapping : FileMappings} {next : TableMemory}
    (ran : readMapping fm memory = some (mapping, next)) :
    next = memory ∧ (∃ text, memory.heap fm.filename = some (.path text)) ∧
      (fm.nChunkIds ≠ 0 → ∃ pointer values, fm.chunkIds = some pointer ∧
        memory.heap pointer = some (.ids values)) := by
  obtain ⟨⟨text, middle⟩, path, ran⟩ := Option.bind_eq_some_iff.mp ran
  obtain ⟨⟨chunkIds, last⟩, ids, ran⟩ := Option.bind_eq_some_iff.mp ran
  obtain ⟨_, rfl⟩ := Prod.mk.inj (Option.some.inj ran)
  rw [readPath] at path
  split at path
  · rename_i found
    obtain ⟨rfl, rfl⟩ := Prod.mk.inj (Option.some.inj path)
    rw [readIds] at ids
    split at ids
    · rename_i empty
      obtain ⟨_, rfl⟩ := Prod.mk.inj (Option.some.inj ids)
      exact ⟨rfl, ⟨_, found⟩, fun some => absurd empty some⟩
    · split at ids
      · rename_i values pointed
        split at ids
        · obtain ⟨_, rfl⟩ := Prod.mk.inj (Option.some.inj ids)
          obtain ⟨pointer, named, at_pointer⟩ := Option.bind_eq_some_iff.mp pointed
          exact ⟨rfl, ⟨_, found⟩, fun _ => ⟨pointer, values, named, at_pointer⟩⟩
        · simp at ids
      · simp at ids
  · simp at path

theorem readMappings_reads {fileMappings : List Mapping} {mappings : List FileMappings}
    {next : TableMemory} (ran : readMappings fileMappings memory = some (mappings, next)) :
    next = memory ∧ ∀ fm ∈ fileMappings, (∃ text, memory.heap fm.filename = some (.path text)) ∧
      (fm.nChunkIds ≠ 0 → ∃ pointer values, fm.chunkIds = some pointer ∧
        memory.heap pointer = some (.ids values)) := by
  induction fileMappings generalizing mappings next with
  | nil => exact ⟨(Prod.mk.inj (Option.some.inj ran)).2.symm, nofun⟩
  | cons fm rest ih =>
      obtain ⟨⟨mapping, middle⟩, first, continues⟩ := Option.bind_eq_some_iff.mp ran
      obtain ⟨⟨later, last⟩, others, ended⟩ := Option.bind_eq_some_iff.mp continues
      obtain ⟨_, rfl⟩ := Prod.mk.inj (Option.some.inj ended)
      obtain ⟨rfl, reads⟩ := readMapping_reads first
      obtain ⟨same, readsLater⟩ := ih others
      exact ⟨same, List.forall_mem_cons.mpr ⟨reads, readsLater⟩⟩

namespace Owns

theorem apart {before after : List (Entry × FileStateCurrentInner)}
    {hole : Entry × FileStateCurrentInner} (owns : Owns base memory (before ++ hole :: after) spare) :
    ∀ pair ∈ before ++ after, ∀ address ∈ pair.1.owned, address ∉ hole.1.owned := by
  have nodup := owns.ledger.nodup
  rw [List.map_append, cells_addresses, List.nodup_append] at nodup
  have holeFirst := List.perm_append_comm_assoc (before.flatMap fun pair => pair.1.owned)
    hole.1.owned (after.flatMap fun pair => pair.1.owned)
  have split := nodup.2.1
  rw [List.flatMap_append, List.flatMap_cons, holeFirst.nodup_iff, List.nodup_append,
    ← List.flatMap_append] at split
  intro pair member address owned theirs
  exact split.2.2 address theirs address (List.mem_flatMap.mpr ⟨pair, member, owned⟩) rfl

theorem owner (owns : Owns base memory held spare) {address : Pointer} {block : Block}
    (unused : base address = none) (found : memory.heap address = some block) :
    block = .entries (held.map Prod.fst ++ spare) ∨
      ∃ pair ∈ held, (address, block) ∈ pair.1.cells pair.2 := by
  have mine : address ∈ (memory.fileToChunkState.toList.map
      (fun pointer => (pointer, Block.entries (held.map Prod.fst ++ spare))) ++ cells held).map
        Prod.fst := by
    by_contra absent
    rw [owns.ledger.others address absent, unused] at found
    simp at found
  obtain ⟨⟨_, cell⟩, member, rfl⟩ := List.mem_map.mp mine
  obtain rfl : cell = block := Option.some.inj ((owns.ledger.holds _ member).symm.trans found)
  rcases List.mem_append.mp member with array | entry
  · obtain ⟨_, _, same⟩ := List.mem_map.mp array
    exact Or.inl (Prod.mk.inj same).2.symm
  · exact Or.inr (List.mem_flatMap.mp entry)

theorem owner_path (owns : Owns base memory held spare) {address : Pointer} {text : Bytes}
    (unused : base address = none) (found : memory.heap address = some (.path text)) :
    ∃ pair ∈ held, pair.1.filePath = address := by
  obtain ⟨pair, member, mine⟩ := (owns.owner unused found).resolve_left nofun
  refine ⟨pair, member, ?_⟩
  simp only [Entry.cells, List.mem_cons, List.mem_map, Prod.mk.injEq, reduceCtorEq, and_false,
    exists_false, or_false] at mine
  rw [mine.1]

theorem owner_ids (owns : Owns base memory held spare) {address : Pointer} {values : List Int32}
    (unused : base address = none) (found : memory.heap address = some (.ids values)) :
    ∃ pair ∈ held, pair.1.chunkIds = some address := by
  obtain ⟨pair, member, mine⟩ := (owns.owner unused found).resolve_left nofun
  refine ⟨pair, member, ?_⟩
  simp only [Entry.cells, List.mem_cons, List.mem_map, Prod.mk.injEq, reduceCtorEq, and_false,
    false_or, Option.mem_toList] at mine
  obtain ⟨_, own, rfl, _⟩ := mine
  exact own

theorem base_eq_none (owns : Owns base memory held spare) {pair : Entry × FileStateCurrentInner}
    (member : pair ∈ held) : ∀ address ∈ pair.1.owned, base address = none := by
  rw [← Entry.cells_addresses pair.1 pair.2, List.forall_mem_map]
  intro cell mine
  exact owns.ledger.unused cell (List.mem_append_right _ (List.mem_flatMap.mpr ⟨pair, member, mine⟩))

/-- The locked part copies every entry, unless `malloc` refuses it the array or a mapping. -/
theorem encode_locked {threads : Reporting} (owns : Owns base threads.memory held spare)
    (at_stage : threads.stage = .returned) (granted : Bool) :
    ∃ copies indices, List.Forall₂ Copied copies held ∧
      copies.map Prod.snd = (held.map Prod.snd).map mappingOf ∧
      encode granted threads =
        if 0 < threads.memory.numFileCount ∧ granted = false then none
        else some {
          memory := threads.memory.touch indices
          stage := .unlocked
          fileMappings := copies.map Prod.fst
          listed := copies.map Prod.snd
          buffer := none
          freed := [] } := by
  obtain ⟨copies, indices, collected, copied, listing⟩ := collectMappings_run owns [] held rfl
  have listed := @readMappings_run (threads.memory.touch indices) _ _ copied
    fun pair member => (owns.touch indices).holds member
  rw [List.length_nil, ← owns.count] at collected
  refine ⟨copies, indices, copied, listing, ?_⟩
  rw [encode, at_stage]
  simp only [collected, Option.map_some, listed, Option.getD_some]

end Owns

/-- A step that meets a refused allocation, or comes past the allocated positions, is undefined. -/
theorem encode_undefined {threads : Reporting} {granted : Bool} (encodes : ¬Encodes threads granted) :
    encode granted threads = none := by
  unfold Encodes at encodes
  unfold encode
  cases at_stage : threads.stage with
  | returned =>
      rw [at_stage] at encodes
      simp only [Classical.not_imp, Bool.not_eq_true] at encodes
      simp only [if_pos encodes]
  | unlocked => simp [at_stage] at encodes
  | sized len =>
      simp only [at_stage, Bool.not_eq_true] at encodes
      simp [encodes]
  | packed => simp [at_stage] at encodes
  | freeing i =>
      simp only [at_stage, Classical.not_imp] at encodes
      simp only [if_pos encodes.1, if_neg encodes.2]

namespace Steady

variable {threads : Reporting}

theorem start (base : Pointer → Option Block) : Steady base (Reporting.start base) [] :=
  ⟨⟨[], init_owns base⟩, nofun, nofun, nofun⟩

theorem leads (steady : Steady base threads held) (pending : threads.stage.reading) :
    readMappings threads.fileMappings threads.memory = some (threads.listed, threads.memory) := by
  obtain ⟨spare, owns⟩ := steady.owns
  obtain ⟨copies, front, added, rfl, fileMappings, listed, copied⟩ := steady.copies pending
  rw [fileMappings, listed]
  exact readMappings_run copied fun pair member => owns.holds (List.mem_append_left added member)

theorem whole (steady : Steady base threads held) : Whole threads :=
  ⟨steady.leads, steady.packed⟩

theorem encode_run {granted : Bool} (steady : Steady base threads held)
    (encodes : Encodes threads granted) :
    ∃ next, encode granted threads = some next ∧ Steady base next held := by
  unfold Encodes at encodes
  cases at_stage : threads.stage with
  | returned =>
      rw [at_stage] at encodes
      have supplied : ¬(0 < threads.memory.numFileCount ∧ granted = false) := by
        rintro ⟨some, refused⟩
        simp [encodes some] at refused
      obtain ⟨spare, owns⟩ := steady.owns
      obtain ⟨copies, indices, copied, _, locked⟩ := owns.encode_locked at_stage granted
      rw [if_neg supplied] at locked
      exact ⟨_, locked, ⟨spare, owns.touch indices⟩,
        fun _ => ⟨copies, held, [], by simp, rfl, rfl, copied⟩, nofun, nofun⟩
  | unlocked =>
      have reading : threads.stage.reading := by rw [at_stage]; rfl
      refine ⟨_, by rw [encode, at_stage]; simp only [steady.leads reading]; rfl, ?_⟩
      refine ⟨steady.owns, fun _ => steady.copies reading, ?_, steady.packed⟩
      rintro len ⟨⟩
      rfl
  | sized len =>
      rw [at_stage] at encodes
      have reading : threads.stage.reading := by rw [at_stage]; rfl
      have room := steady.room len at_stage
      refine ⟨{ threads with
        stage := .packed
        buffer := some (MessageFromStorageToMaster.pack (.health threads.listed)) }, ?_, ?_⟩
      · rw [encode, at_stage]
        simp [steady.leads reading, room, encodes]
      · exact ⟨steady.owns, nofun, nofun, by simp⟩
  | packed =>
      refine ⟨{ threads with
        stage := if 0 < threads.memory.numFileCount then .freeing 0 else .returned }, ?_, ?_⟩
      · rw [encode, at_stage]
      · refine ⟨steady.owns, ?_, ?_, steady.packed⟩
        · split <;> nofun
        · split <;> nofun
  | freeing i =>
      rw [at_stage] at encodes
      by_cases more : i < threads.memory.numFileCount
      · refine ⟨_, by rw [encode, at_stage]; simp only [if_pos more, if_pos (encodes more)]; rfl, ?_⟩
        exact ⟨steady.owns, nofun, nofun, steady.packed⟩
      · refine ⟨_, by rw [encode, at_stage]; simp only [if_neg more]; rfl, ?_⟩
        exact ⟨steady.owns, nofun, nofun, steady.packed⟩

theorem called {memory : TableMemory} {after : List (Entry × FileStateCurrentInner)}
    (steady : Steady base threads held) (owns : ∃ spare, Owns base memory after spare)
    (copies : threads.stage.reading → Copies threads after) :
    Steady base { threads with memory := memory } after :=
  ⟨owns, copies, steady.room, steady.packed⟩

end Steady

theorem Copied.pushed {copy : Mapping × FileMappings} {entry : Entry}
    {file : FileStateCurrentInner} {moved : Option Pointer} (copied : Copied copy (entry, file))
    (stays : ∀ pointer temp, copy.1.chunkIds = some pointer → entry.chunkIds = some pointer →
      moved = some temp → temp = pointer) (chunkId : Int32) :
    Copied copy (entry.pushed moved, StorageLayer.pushChunkId moved.isSome file chunkId) := by
  cases moved with
  | none => exact copied
  | some temp =>
      refine ⟨copied.filename, copied.name, copied.nChunkIds, ?_, copied.null,
        copied.ids.trans (List.prefix_append _ _)⟩
      cases named : copy.1.chunkIds with
      | none => exact Or.inr rfl
      | some pointer =>
          have own := copied.chunkIds.resolve_right (by simp [named])
          exact Or.inl (by rw [stays pointer temp named (own.symm.trans named) rfl]; rfl)

theorem Copies.append {threads : Reporting} (copies : Copies threads held)
    (more : List (Entry × FileStateCurrentInner)) : Copies threads (held ++ more) := by
  obtain ⟨copied, front, added, rfl, fileMappings, listed, both⟩ := copies
  exact ⟨copied, front, added ++ more, by simp, fileMappings, listed, both⟩

theorem Copies.erase {threads : Reporting} {before after : List (Entry × FileStateCurrentInner)}
    {hole : Entry × FileStateCurrentInner} (copies : Copies threads (before ++ hole :: after))
    (later : threads.fileMappings.length ≤ before.length) : Copies threads (before ++ after) := by
  obtain ⟨copied, front, added, split, fileMappings, listed, both⟩ := copies
  have length : front.length ≤ before.length := by
    rw [← both.length_eq, ← List.length_map Prod.fst, ← fileMappings]
    exact later
  obtain ⟨rest, rfl⟩ := (List.prefix_of_prefix_length_le (split ▸ List.prefix_append front added :
    front <+: before ++ hole :: after) (List.prefix_append _ _) length)
  exact ⟨copied, front, rest ++ after, by simp, fileMappings, listed, both⟩

theorem Copies.last {threads : Reporting} {front : List (Entry × FileStateCurrentInner)}
    {pair : Entry × FileStateCurrentInner} (copies : Copies threads (front ++ [pair]))
    (counted : front.length + 1 = threads.fileMappings.length) :
    ∃ earlier copy, List.Forall₂ Copied earlier front ∧ Copied copy pair ∧
      threads.fileMappings = (earlier ++ [copy]).map Prod.fst ∧
      threads.listed = (earlier ++ [copy]).map Prod.snd := by
  obtain ⟨copied, first, added, split, fileMappings, listed, both⟩ := copies
  have length := congrArg List.length split
  rw [fileMappings, List.length_map, both.length_eq] at counted
  rw [List.length_append, List.length_append, List.length_singleton] at length
  obtain rfl : added = [] := List.eq_nil_of_length_eq_zero (by omega)
  rw [List.append_nil] at split
  subst split
  have earlier := List.forall₂_take_append _ _ _ both
  obtain ⟨copy, rest, single, nothing, split⟩ :=
    List.forall₂_cons_right_iff.mp (List.forall₂_drop_append _ _ _ both)
  rw [List.forall₂_nil_right_iff] at nothing
  subst nothing
  have whole : copied = copied.take front.length ++ [copy] := by
    rw [← split, List.take_append_drop]
  exact ⟨copied.take front.length, copy, earlier, single, by rw [← whole, fileMappings],
    by rw [← whole, listed]⟩

theorem Copies.push {threads : Reporting} {front : List (Entry × FileStateCurrentInner)}
    {entry : Entry} {file : FileStateCurrentInner} {moved : Option Pointer}
    (copies : Copies threads (front ++ [(entry, file)]))
    (stays : front.length + 1 = threads.fileMappings.length →
      ∀ fm ∈ threads.fileMappings.getLast?, ∀ pointer temp, fm.chunkIds = some pointer →
        entry.chunkIds = some pointer → moved = some temp → temp = pointer) (chunkId : Int32) :
    Copies threads (front ++
      [(entry.pushed moved, StorageLayer.pushChunkId moved.isSome file chunkId)]) := by
  by_cases counted : front.length + 1 = threads.fileMappings.length
  · obtain ⟨earlier, copy, before, single, fileMappings, listed⟩ := copies.last counted
    have final : copy.1 ∈ threads.fileMappings.getLast? := by simp [fileMappings]
    refine ⟨earlier ++ [copy], front ++ [_], [], by rw [List.append_nil], fileMappings, listed, ?_⟩
    exact List.rel_append before (List.Forall₂.cons
      (single.pushed (stays counted copy.1 final) chunkId) List.Forall₂.nil)
  · obtain ⟨copied, first, added, split, fileMappings, listed, both⟩ := copies
    rcases List.eq_nil_or_concat' added with rfl | ⟨rest, last, rfl⟩
    · rw [List.append_nil] at split
      rw [fileMappings, List.length_map, both.length_eq, ← split] at counted
      simp at counted
    · rw [← List.append_assoc] at split
      obtain ⟨rfl, _⟩ := List.append_inj' split rfl
      exact ⟨copied, first, rest ++ [_], by rw [List.append_assoc], fileMappings, listed, both⟩

theorem serve_push {realloc : Realloc} {chunkId : Int32} {allocated : Bool} {next : TableMemory}
    (filePath : Bytes) (ran : pushToLast realloc chunkId memory = some (allocated, next)) :
    serve memory (.insertToStruct realloc filePath chunkId true) =
      some (.pushed allocated, next) := by
  rw [serve, insertToStruct]
  exact congrArg (Option.map _) ran

namespace Steady

variable {threads : Reporting}

theorem push_run {front : List (Entry × FileStateCurrentInner)} {entry : Entry}
    {file : FileStateCurrentInner} {realloc : Realloc} {filePath : Bytes}
    (steady : Steady base threads (front ++ [(entry, file)])) (chunkId : Int32)
    (spares : Spares threads (.insertToStruct realloc filePath chunkId true)) :
    ∃ outcome memory after,
      serve threads.memory (.insertToStruct realloc filePath chunkId true) =
        some (outcome, memory) ∧
      Steady base { threads with memory := memory } after := by
  obtain ⟨spare, owns⟩ := steady.owns
  have count : threads.memory.numFileCount = front.length + 1 := by rw [owns.count]; simp
  obtain ⟨next, ran, last⟩ := pushToLast_run realloc owns chunkId
  refine ⟨_, next, _, serve_push filePath ran,
    steady.called ⟨_, last⟩ fun pending => (steady.copies pending).push ?_ chunkId⟩
  intro counted fm final pointer temp named own moved
  rw [own] at moved
  exact spares pending (count.trans counted) fm final pointer temp named (by rw [count]; exact moved)

theorem remove_run (steady : Steady base threads held) (realloc : Realloc) (filePath : Bytes)
    (spares : Spares threads (.removeFromStruct realloc filePath)) :
    ∃ outcome memory after,
      serve threads.memory (.removeFromStruct realloc filePath) = some (outcome, memory) ∧
      Steady base { threads with memory := memory } after := by
  obtain ⟨spare, owns⟩ := steady.owns
  rcases removeFromStruct_cases realloc owns filePath with
    ⟨_, indices, _, ran⟩ | ⟨before, hole, after, rfl, _, _, ⟨searched, found⟩, next, more, ran, left⟩
  · exact ⟨_, _, held, by rw [serve, ran]; rfl,
      steady.called ⟨spare, owns.touch indices⟩ steady.copies⟩
  · refine ⟨_, next, before ++ after, by rw [serve, ran]; rfl, steady.called ⟨more, left⟩ ?_⟩
    intro pending
    exact (steady.copies pending).erase (spares pending _ searched found)

theorem call_run {call : Call} (steady : Steady base threads held)
    (defined : Defined threads.memory call) (spares : Spares threads call) :
    ∃ outcome memory after, serve threads.memory call = some (outcome, memory) ∧
      Steady base { threads with memory := memory } after := by
  obtain ⟨spare, owns⟩ := steady.owns
  cases call with
  | insertToStruct realloc filePath chunkId directoryHasFile =>
      cases directoryHasFile with
      | false =>
          obtain ⟨allocated, next, entry, ran, owns⟩ :=
            insertToStruct_new_run filePath chunkId owns defined
          exact ⟨_, next, _, by rw [serve, ran]; rfl,
            steady.called ⟨_, owns⟩ fun pending => (steady.copies pending).append _⟩
      | true =>
          rcases List.eq_nil_or_concat' held with rfl | ⟨front, ⟨entry, file⟩, rfl⟩
          · exact absurd owns.count defined
          · exact steady.push_run chunkId spares
  | removeFromStruct realloc filePath => exact steady.remove_run realloc filePath spares
  | printStorageState =>
      obtain ⟨indices, printed⟩ := printStorageState_run owns
      exact ⟨_, _, held, by rw [serve, printed]; rfl,
        steady.called ⟨spare, owns.touch indices⟩ steady.copies⟩

/-- The name of a listed file that is removed is no longer there. -/
theorem remove_breaks {realloc : Realloc} {filePath : Bytes} {outcome : Outcome}
    {memory : TableMemory} (steady : Steady base threads held)
    (served : serve threads.memory (.removeFromStruct realloc filePath) = some (outcome, memory))
    (disturbs : ¬Spares threads (.removeFromStruct realloc filePath)) :
    ¬Whole { threads with memory := memory } := by
  obtain ⟨spare, owns⟩ := steady.owns
  simp only [Spares, Classical.not_imp, not_forall, Nat.not_le] at disturbs
  obtain ⟨pending, index, _, search, within⟩ := disturbs
  rcases removeFromStruct_cases realloc owns filePath with
    ⟨_, indices, missing, _⟩ | ⟨before, hole, after, rfl, _, _, ⟨searched, found⟩, next, more, ran, left⟩
  · rw [search] at missing
    simp at missing
  · obtain ⟨same, _⟩ := Prod.mk.inj (Option.some.inj (search.symm.trans found))
    obtain rfl := Option.some.inj same
    rw [serve, ran] at served
    obtain ⟨_, rfl⟩ := Prod.mk.inj (Option.some.inj served)
    intro whole
    obtain ⟨copied, front, added, split, fileMappings, _, both⟩ := steady.copies pending
    rw [fileMappings, List.length_map, both.length_eq] at within
    obtain ⟨rest, rfl⟩ : before ++ [hole] <+: front := by
      refine List.prefix_of_prefix_length_le (⟨after, by simp⟩ : _ <+: before ++ hole :: after)
        (split ▸ List.prefix_append front added) ?_
      rw [List.length_append, List.length_singleton]
      exact within
    rw [List.append_assoc, List.singleton_append] at both
    obtain ⟨copy, _, single, _, later⟩ :=
      List.forall₂_cons_right_iff.mp (List.forall₂_drop_append _ _ _ both)
    have listed : copy.1 ∈ threads.fileMappings := by
      rw [fileMappings]
      exact List.mem_map_of_mem (List.mem_of_mem_drop (later ▸ List.mem_cons_self))
    obtain ⟨⟨text, path⟩, _⟩ := (readMappings_reads (whole.leads pending)).2 copy.1 listed
    rw [single.filename] at path
    have own : hole.1.filePath ∈ hole.1.owned := List.mem_cons_self
    obtain ⟨pair, member, same⟩ := left.owner_path (owns.base_eq_none (by simp) _ own) path
    exact owns.apart pair member _ (same ▸ List.mem_cons_self) own

/-- The chunk ids of the last listed file that have moved are no longer there. -/
theorem push_breaks {realloc : Realloc} {filePath : Bytes} {chunkId : Int32} {outcome : Outcome}
    {memory : TableMemory} (steady : Steady base threads held)
    (served : serve threads.memory (.insertToStruct realloc filePath chunkId true) =
      some (outcome, memory))
    (disturbs : ¬Spares threads (.insertToStruct realloc filePath chunkId true)) :
    ¬Whole { threads with memory := memory } := by
  obtain ⟨spare, owns⟩ := steady.owns
  simp only [Spares, Classical.not_imp, not_forall] at disturbs
  obtain ⟨pending, count, fm, final, pointer, moved, named, placed, elsewhere⟩ := disturbs
  rcases List.eq_nil_or_concat' held with rfl | ⟨front, ⟨entry, file⟩, rfl⟩
  · rw [owns.count, List.length_nil] at count
    rw [List.eq_nil_of_length_eq_zero count.symm] at final
    simp at final
  · have counted : front.length + 1 = threads.memory.numFileCount := by rw [owns.count]; simp
    obtain ⟨earlier, copy, _, single, fileMappings, _⟩ :=
      (steady.copies pending).last (counted.trans count)
    obtain rfl : copy.1 = fm := by simpa [fileMappings] using final
    have own : entry.chunkIds = some pointer :=
      (single.chunkIds.resolve_right (by simp [named])).symm.trans named
    have nonempty : copy.1.nChunkIds ≠ 0 := by
      rw [single.nChunkIds, ne_eq, List.length_eq_zero_iff, ← single.null, named]
      simp
    obtain ⟨next, ran, last⟩ := pushToLast_run realloc owns chunkId
    rw [← counted, Nat.add_sub_cancel] at placed
    rw [own, placed] at ran last
    obtain ⟨_, rfl⟩ := Prod.mk.inj (Option.some.inj ((serve_push filePath ran).symm.trans served))
    intro whole
    obtain ⟨_, reads⟩ := (readMappings_reads (whole.leads pending)).2 copy.1 (by simp [fileMappings])
    obtain ⟨_, values, same, found⟩ := reads nonempty
    obtain rfl := Option.some.inj (named.symm.trans same)
    have mine : pointer ∈ entry.owned := by simp [Entry.owned, own]
    have unused := owns.base_eq_none (show (entry, file) ∈ front ++ [(entry, file)] by simp) _ mine
    obtain ⟨pair, member, theirs⟩ := last.owner_ids unused found
    rcases List.mem_append.mp member with early | late
    · exact owns.apart pair (by simpa using early) pointer (by simp [Entry.owned, theirs]) mine
    · rw [List.mem_singleton.mp late] at theirs
      exact elsewhere (Option.some.inj theirs)

theorem turn_run {action : Turn} (steady : Steady base threads held) (safe : Safe threads action) :
    ∃ output next after, turn threads action = some (output, next) ∧ Steady base next after := by
  cases action with
  | call call =>
      obtain ⟨outcome, memory, after, served, kept⟩ := steady.call_run safe.1 safe.2
      exact ⟨(), _, after, by rw [turn, served]; rfl, kept⟩
  | encode granted =>
      obtain ⟨next, encoded, kept⟩ := steady.encode_run safe
      exact ⟨(), next, held, by rw [turn, encoded]; rfl, kept⟩

theorem turn_breaks {action : Turn} {output : Unit} {next : Reporting}
    (steady : Steady base threads held) (unsafely : ¬Safe threads action)
    (turned : turn threads action = some (output, next)) : ¬Whole next := by
  cases action with
  | encode granted =>
      rw [turn, encode_undefined unsafely] at turned
      contradiction
  | call call =>
      obtain ⟨⟨outcome, memory⟩, served, same⟩ := Option.map_eq_some_iff.mp turned
      obtain ⟨_, rfl⟩ := Prod.mk.inj same
      obtain ⟨spare, owns⟩ := steady.owns
      have defined := (@serve_isSome base threads.memory ⟨held.map Prod.snd⟩ call ⟨held, spare, owns, rfl⟩).mp
        (by rw [served, Option.isSome_some])
      have disturbs : ¬Spares threads call := fun spares => unsafely ⟨defined, spares⟩
      cases call with
      | insertToStruct realloc filePath chunkId directoryHasFile =>
          cases directoryHasFile with
          | false => exact absurd trivial disturbs
          | true => exact steady.push_breaks served disturbs
      | removeFromStruct realloc filePath => exact steady.remove_breaks served disturbs
      | printStorageState => exact absurd trivial disturbs

end Steady

def Reporting.threads (reporting : Reporting) (state : StorageStateOuter) : Threads where
  state := state
  point := match reporting.stage with
    | .returned => .returned
    | .unlocked | .sized _ => .unlocked
    | .packed => .packed
    | .freeing i => .freeing i
  fileMappings := reporting.listed
  freed := reporting.freed

theorem Accounts.count {state : StorageStateOuter} (accounts : Accounts base memory state) :
    memory.numFileCount = state.fileToChunkState.length := by
  obtain ⟨held, spare, owns, table⟩ := accounts
  rw [table, List.length_map, owns.count]

theorem encode_threads {reporting next : Reporting} {state : StorageStateOuter} {granted : Bool}
    (accounts : Accounts base reporting.memory state) (encoded : encode granted reporting = some next) :
    Accounts base next.memory state ∧
      (next.threads state = StorageLayer.encode (reporting.threads state) ∨
        next.threads state = reporting.threads state) := by
  have count := accounts.count
  cases at_stage : reporting.stage with
  | returned =>
      have returned : (reporting.threads state).point = .returned := by
        simp [Reporting.threads, at_stage]
      obtain ⟨held, spare, owns, table⟩ := accounts
      obtain ⟨copies, indices, _, listing, locked⟩ := owns.encode_locked at_stage granted
      rw [locked, Option.ite_none_left_eq_some, Option.some.injEq] at encoded
      obtain ⟨_, rfl⟩ := encoded
      refine ⟨⟨held, spare, owns.touch indices, table⟩, Or.inl ?_⟩
      have mappings := (encode_returned returned).1
      rw [returnCurrentState_eq, show (reporting.threads state).state = state from rfl, table,
        ← listing] at mappings
      have same := MsgType.health.inj mappings
      simp only [StorageLayer.encode, returned] at same ⊢
      rw [same]
      rfl
  | unlocked =>
      simp only [encode, at_stage] at encoded
      obtain ⟨⟨mappings, memory⟩, read, same⟩ := Option.map_eq_some_iff.mp encoded
      obtain rfl := (readMappings_reads read).1
      subst same
      exact ⟨accounts, Or.inr (by simp [Reporting.threads, at_stage])⟩
  | sized len =>
      simp only [encode, at_stage] at encoded
      obtain ⟨⟨mappings, memory⟩, read, same⟩ := Option.bind_eq_some_iff.mp encoded
      obtain rfl := (readMappings_reads read).1
      simp only at same
      split at same
      · obtain rfl := Option.some.inj same
        exact ⟨accounts, Or.inl (by simp [Reporting.threads, StorageLayer.encode, at_stage])⟩
      · contradiction
  | packed =>
      simp only [encode, at_stage] at encoded
      obtain rfl := Option.some.inj encoded
      refine ⟨accounts, Or.inl ?_⟩
      by_cases some : 0 < state.fileToChunkState.length
      · simp [Reporting.threads, StorageLayer.encode, at_stage, StorageLayer.numFileCount, count, some]
      · simp [Reporting.threads, StorageLayer.encode, at_stage, StorageLayer.numFileCount, count, some]
  | freeing i =>
      simp only [encode, at_stage, count] at encoded
      split at encoded
      · rename_i more
        split at encoded
        · obtain rfl := Option.some.inj encoded
          exact ⟨accounts, Or.inl (by
            simp [Reporting.threads, StorageLayer.encode, at_stage, StorageLayer.numFileCount, more])⟩
        · contradiction
      · rename_i last
        obtain rfl := Option.some.inj encoded
        exact ⟨accounts, Or.inl (by
          simp [Reporting.threads, StorageLayer.encode, at_stage, StorageLayer.numFileCount, last])⟩

theorem turn_threads {reporting next : Reporting} {state : StorageStateOuter} {action : Turn}
    {output : Unit} (accounts : Accounts base reporting.memory state)
    (turned : turn reporting action = some (output, next)) :
    ∃ after, Accounts base next.memory after ∧
      (next.threads after = reporting.threads state ∨ ∃ same,
        StorageLayer.turn (reporting.threads state) same = some ((), next.threads after)) := by
  cases action with
  | call call =>
      obtain ⟨⟨outcome, memory⟩, served, same⟩ := Option.map_eq_some_iff.mp turned
      obtain ⟨_, rfl⟩ := Prod.mk.inj same
      obtain ⟨after, followed, accounts⟩ := serve_keeps accounts served
      refine ⟨after, accounts, ?_⟩
      cases call with
      | insertToStruct realloc filePath chunkId directoryHasFile =>
          obtain ⟨_, inserted, same⟩ := Option.map_eq_some_iff.mp followed
          obtain ⟨_, rfl⟩ := Prod.mk.inj same
          exact Or.inr ⟨.insertToStruct filePath chunkId directoryHasFile _, by
            rw [StorageLayer.turn]; exact congrArg (Option.map _) inserted⟩
      | removeFromStruct realloc filePath =>
          obtain ⟨_, rfl⟩ := Prod.mk.inj (Option.some.inj followed)
          exact Or.inr ⟨.removeFromStruct filePath, rfl⟩
      | printStorageState =>
          obtain ⟨_, rfl⟩ := Prod.mk.inj (Option.some.inj followed)
          exact Or.inl rfl
  | encode granted =>
      obtain ⟨_, encoded, same⟩ := Option.map_eq_some_iff.mp turned
      obtain ⟨_, rfl⟩ := Prod.mk.inj same
      obtain ⟨accounts, follows | stays⟩ := encode_threads accounts encoded
      · exact ⟨state, accounts, Or.inr ⟨.encode, by rw [follows]; rfl⟩⟩
      · exact ⟨state, accounts, Or.inl stays⟩

/-- What the threads do in memory they do to the list of files and to the positions that the
cleanup comes to. -/
theorem run_threads {turns : List Turn} {trace : List (Turn × Unit)} {last : Reporting}
    (ran : run turn (Reporting.start base) turns = some (trace, last)) :
    ∃ state same trace, Accounts base last.memory state ∧
      run StorageLayer.turn Threads.start same = some (trace, last.threads state) := by
  refine @run_invariant _ _ _ turn (fun _ reporting => ∃ state same trace,
    Accounts base reporting.memory state ∧
      run StorageLayer.turn Threads.start same = some (trace, reporting.threads state))
    ?_ turns [] trace _ last ⟨storageStateInit, [], [], init_accounts base, rfl⟩ ran
  rintro _ reporting action output next ⟨state, same, trace, accounts, ran⟩ turned
  obtain ⟨after, kept, stays | ⟨one, follows⟩⟩ := turn_threads accounts turned
  · exact ⟨after, same, trace, kept, by rw [stays]; exact ran⟩
  · exact ⟨after, same ++ [one], _, kept, run_concat ran follows⟩

/-- Over any interleaving with the calls that change the table, from the start of the node:
each step is defined, the pointers of the encoder lead to what they did under the lock for as
long as they are read, and what it packs encodes that, exactly when no step is refused memory,
no call disturbs what is listed, and the cleanup stays within the array. Without addresses
such a run is one of the threads. -/
theorem whole_iff (base : Pointer → Option Block) (turns : List Turn) :
    (Always turn Whole (Reporting.start base) turns ↔
      Guarded turn Safe (Reporting.start base) turns) ∧
    ∀ trace last, run turn (Reporting.start base) turns = some (trace, last) →
      ∃ state same trace, Accounts base last.memory state ∧
        run StorageLayer.turn Threads.start same = some (trace, last.threads state) := by
  refine ⟨?_, fun _ _ ran => run_threads ran⟩
  refine @always_iff_guarded _ _ _ turn (fun _ => True) Safe
    (fun threads => ∃ held, Steady base threads held) Whole ?_ ?_ turns _
    ⟨[], Steady.start base⟩ (fun _ _ => trivial)
  · rintro threads action ⟨held, steady⟩ _ safe
    obtain ⟨output, next, after, turned, kept⟩ := steady.turn_run safe
    exact ⟨output, next, turned, ⟨after, kept⟩, kept.whole⟩
  · rintro threads action ⟨held, steady⟩ _ unsafely ⟨output, next, turned, whole⟩
    exact steady.turn_breaks unsafely turned whole

end TableMemory

end DistributedFileSystem.StorageLayer
