import DistributedFileSystem.Library.Transition
import DistributedFileSystem.StorageLayer.FileState

/-!
The thread that encodes a report (`return_current_state_encoded_in_protobufs`)
next to the HTTP thread that changes the table: the mappings are allocated under
the lock, and freed after it under a count that is read anew at each test.
-/

namespace DistributedFileSystem.StorageLayer

open ByteString Transition

/-- Where the encoder stands: outside of a call, past `pthread_mutex_unlock`, past the
packing, or before the test of the loop that frees position `i` next. -/
inductive Point where
  | returned
  | unlocked
  | packed
  | freeing (i : Nat)
  deriving DecidableEq, Repr

/-- The table, and of the last call of the encoder: the array `file_mappings` and the
positions of it that the cleanup has come to. -/
structure Threads where
  state : StorageStateOuter
  point : Point
  fileMappings : List FileMappings
  freed : List Nat
  deriving DecidableEq, Repr

inductive Turn where
  | insertToStruct (filePath : Bytes) (chunkId : Int32) (directoryHasFile allocated : Bool)
  | removeFromStruct (filePath : Bytes)
  | encode
  deriving DecidableEq, Repr

def numFileCount (threads : Threads) : Nat := threads.state.fileToChunkState.length

/-- What the encoder does next. The locked part is one step; the table is read again by
`if (state->num_file_count > 0)` and by each `i < state->num_file_count`. -/
def encode (threads : Threads) : Threads :=
  match threads.point with
  | .returned =>
      { threads with
        point := .unlocked
        fileMappings := copyMappings threads.state.fileToChunkState [] (numFileCount threads) 0
        freed := [] }
  | .unlocked => { threads with point := .packed }
  | .packed =>
      { threads with point := if numFileCount threads > 0 then .freeing 0 else .returned }
  | .freeing i =>
      if i < numFileCount threads then
        { threads with
          point := .freeing (i + 1)
          freed := threads.freed ++ [i] }
      else { threads with point := .returned }

def turn (threads : Threads) : Turn → Option (Unit × Threads)
  | .insertToStruct filePath chunkId directoryHasFile allocated =>
      (insertToStruct allocated threads.state filePath chunkId directoryHasFile).map
        fun state => ((), { threads with state := state })
  | .removeFromStruct filePath =>
      some ((), { threads with state := removeFromStruct threads.state filePath })
  | .encode => some ((), encode threads)

def Threads.start : Threads :=
  { state := storageStateInit
    point := .returned
    fileMappings := []
    freed := [] }

/-- The cleanup comes to allocated positions only, to each once and in order, and has come to
all of them when the call returns. -/
structure FreesAllocated (threads : Threads) : Prop where
  inOrder : threads.freed = List.range threads.freed.length
  within : threads.freed.length ≤ threads.fileMappings.length
  whole : threads.point = .returned → threads.freed = List.range threads.fileMappings.length

/-- The next test of the encoder comes out as it would with the count of the allocation. -/
def SameTest (threads : Threads) : Turn → Prop
  | .encode =>
      match threads.point with
      | .packed => numFileCount threads = 0 → threads.fileMappings.length = 0
      | .freeing i => i < numFileCount threads ↔ i < threads.fileMappings.length
      | _ => True
  | _ => True

def progress (threads : Threads) : Nat :=
  match threads.point with
  | .returned => threads.fileMappings.length
  | .freeing i => i
  | _ => 0

structure Steady (threads : Threads) : Prop where
  freed : threads.freed = List.range (progress threads)
  within : progress threads ≤ threads.fileMappings.length

theorem Steady.freesAllocated {threads : Threads} (steady : Steady threads) :
    FreesAllocated threads := by
  have count : threads.freed.length = progress threads := by
    rw [steady.freed, List.length_range]
  refine ⟨by rw [count]; exact steady.freed, by rw [count]; exact steady.within, ?_⟩
  intro returned
  rw [steady.freed, progress, returned]

theorem Steady.start : Steady Threads.start := ⟨rfl, Nat.le_refl _⟩

/-- The allocated mappings are those of the message for the table under the lock. -/
theorem encode_returned {threads : Threads} (returned : threads.point = .returned) :
    .health (encode threads).fileMappings = returnCurrentState threads.state ∧
      (encode threads).fileMappings.length = numFileCount threads := by
  have copied := returnCurrentState_eq threads.state
  simp only [returnCurrentState, MsgType.health.injEq] at copied
  simp [encode, returned, returnCurrentState, numFileCount, copied]

theorem Steady.encode {threads : Threads} (steady : Steady threads)
    (same : SameTest threads .encode) : Steady (encode threads) := by
  obtain ⟨freed, within⟩ := steady
  unfold progress at freed within
  unfold SameTest at same
  unfold StorageLayer.encode
  split
  · exact ⟨rfl, Nat.zero_le _⟩
  · rename_i unlocked
    rw [unlocked] at freed
    exact ⟨freed, Nat.zero_le _⟩
  · rename_i packed
    rw [packed] at freed same
    split
    · exact ⟨freed, Nat.zero_le _⟩
    · rename_i none
      have empty := same (by omega)
      exact ⟨by rw [progress, empty]; exact freed, by rw [progress]⟩
  · rename_i i freeing
    rw [freeing] at freed within same
    simp only at freed within same
    split
    · rename_i more
      refine ⟨?_, same.mp more⟩
      rw [freed, progress, List.range_succ]
    · rename_i last
      have all : i = threads.fileMappings.length := by
        have stops := mt same.mpr last
        omega
      exact ⟨by rw [progress, ← all]; exact freed, Nat.le_refl _⟩

/-- A test that comes out differently leaves mappings behind or goes beyond them. -/
theorem Steady.encode_breaks {threads : Threads} (steady : Steady threads)
    (different : ¬SameTest threads .encode) : ¬FreesAllocated (StorageLayer.encode threads) := by
  obtain ⟨freed, within⟩ := steady
  rintro ⟨_, inside, whole⟩
  cases at_point : threads.point with
  | returned => simp [SameTest, at_point] at different
  | unlocked => simp [SameTest, at_point] at different
  | packed =>
      simp only [SameTest, at_point, Classical.not_imp] at different
      simp only [progress, at_point] at freed
      have skipped : ¬numFileCount threads > 0 := by omega
      simp only [StorageLayer.encode, at_point, if_neg skipped, freed] at whole
      have all := congrArg List.length (whole trivial)
      rw [List.length_range, List.length_range] at all
      omega
  | freeing i =>
      simp only [SameTest, at_point] at different
      simp only [progress, at_point] at freed within
      by_cases more : i < numFileCount threads
      · simp only [StorageLayer.encode, at_point, if_pos more, freed, List.length_append,
          List.length_range, List.length_singleton] at inside
        omega
      · simp only [StorageLayer.encode, at_point, if_neg more, freed] at whole
        have all := congrArg List.length (whole trivial)
        rw [List.length_range, List.length_range] at all
        omega

theorem turn_keeps {threads next : Threads} {action : Turn} {output : Unit}
    (steady : Steady threads) (turned : turn threads action = some (output, next))
    (same : SameTest threads action) : Steady next := by
  cases action with
  | insertToStruct filePath chunkId directoryHasFile allocated =>
      obtain ⟨state, _, result⟩ := Option.map_eq_some_iff.mp turned
      obtain ⟨_, rfl⟩ := Prod.mk.inj result
      exact ⟨steady.freed, steady.within⟩
  | removeFromStruct filePath =>
      obtain ⟨_, rfl⟩ := Prod.mk.inj (Option.some.inj turned)
      exact ⟨steady.freed, steady.within⟩
  | encode =>
      obtain ⟨_, rfl⟩ := Prod.mk.inj (Option.some.inj turned)
      exact steady.encode same

/-- Over any interleaving of the two threads, from the start of the node: the cleanup frees
what was allocated, in every state, exactly when each of its tests comes out as it would
with the count of the allocation. -/
theorem cleanup_exact_iff (turns : List Turn) (trace : List (Turn × Unit)) (last : Threads)
    (ran : run turn Threads.start turns = some (trace, last)) :
    Always turn FreesAllocated Threads.start turns ↔ Guarded turn SameTest Threads.start turns := by
  refine always_iff_guarded_of_run ?_ ?_ Steady.start ran
  · intro threads action output next steady turned same
    have kept := turn_keeps steady turned same
    exact ⟨kept, kept.freesAllocated⟩
  · intro threads action output next steady turned different
    cases action with
    | insertToStruct filePath chunkId directoryHasFile allocated => exact absurd trivial different
    | removeFromStruct filePath => exact absurd trivial different
    | encode =>
        obtain ⟨_, rfl⟩ := Prod.mk.inj (Option.some.inj turned)
        exact steady.encode_breaks different

def fileAdded : List Turn := [
  .insertToStruct (ascii "a") 0 false true, .encode, .insertToStruct (ascii "b") 0 false true,
  .encode, .encode, .encode, .encode]

theorem fileAdded_beyond :
    (run turn Threads.start fileAdded).map (fun ended =>
        (ended.2.fileMappings.length, ended.2.freed)) = some (1, [0, 1]) ∧
      ¬Always turn FreesAllocated Threads.start fileAdded := by
  have beyond : (run turn Threads.start fileAdded).map (fun ended =>
      (ended.2.fileMappings.length, ended.2.freed)) = some (1, [0, 1]) := by decide
  refine ⟨beyond, ?_⟩
  intro always
  obtain ⟨trace, last, ran, exact⟩ := always.final (by simp [fileAdded])
  simp only [ran, Option.map_some, Option.some.injEq, Prod.mk.injEq] at beyond
  have within := exact.within
  simp [beyond.1, beyond.2] at within

def undisturbed : List Turn := [
  .insertToStruct (ascii "a") 0 false true, .encode, .encode, .encode, .encode, .encode]

theorem cleanup_exact_iff_undisturbed :
    Always turn FreesAllocated Threads.start undisturbed ↔
      Guarded turn SameTest Threads.start undisturbed :=
  cleanup_exact_iff undisturbed _ _ rfl

end DistributedFileSystem.StorageLayer
