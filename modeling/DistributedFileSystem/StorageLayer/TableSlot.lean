import DistributedFileSystem.StorageLayer.ChunkStore
import DistributedFileSystem.StorageLayer.SaveCalls

/-!
Which saves select a slot of the table that exists, over runs from any disk.
-/

namespace DistributedFileSystem.StorageLayer

open ByteString Posix Transition

variable {σ : Type}

theorem removeEntries_quiet {recurse : Bytes → Sys σ Int} (quiet : ∀ path, Quiet .malloc (recurse path))
    (path : Bytes) (entries : List Name) : Quiet .malloc (removeEntries recurse path entries) := by
  induction entries with
  | nil => exact Quiet.pure _
  | cons name rest ih =>
      rw [removeEntries]
      split
      · exact ih
      · refine (Quiet.attempt _ (by simp)).bind ?_
        intro found
        have continues : ∀ (action : Sys σ Int), Quiet .malloc action → Quiet .malloc (do
            if (← action) = -1 then
              return -1
            removeEntries recurse path rest) := by
          intro action early
          refine early.bind ?_
          intro result
          split
          · exact Quiet.pure _
          · exact ih
        cases found with
        | none => exact Quiet.pure _
        | some node =>
            cases node with
            | dir => exact continues _ (quiet _)
            | file _ => exact continues _ (Quiet.unlink _ (by simp))
            | symlink _ => exact continues _ (Quiet.unlink _ (by simp))

theorem removeDirectory_quiet (depth : Nat) (path : Bytes) :
    Quiet .malloc (removeDirectory depth path : Sys σ Int) := by
  induction depth generalizing path with
  | zero => exact Quiet.pure _
  | succ depth ih =>
      rw [removeDirectory]
      refine (Quiet.attempt _ (by simp)).bind ?_
      intro opened
      cases opened with
      | none => exact Quiet.pure _
      | some dir =>
          refine (Quiet.readdir dir (by simp)).bind ?_
          intro entries
          refine (removeEntries_quiet ih path _).bind ?_
          intro result
          split
          · exact Quiet.pure _
          · refine (Quiet.rmdir path (by simp)).bind ?_
            intro removed
            split
            · exact Quiet.pure _
            · exact Quiet.pure _

theorem recordChunk_eq_none (filename : Bytes) (chunkId : Int32) (has : Bool)
    (process : Process StorageStateOuter) :
    recordChunk filename chunkId has process = none ↔
      has = true ∧ process.memory.fileToChunkState = [] := by
  rw [← insertToStruct_eq_none (process.faults.next .realloc = .done) process.memory filename
    chunkId has]
  simp only [recordChunk, bind_apply, allocate, get_apply, Option.bind_some, Process.spend_memory]
  cases inserted : insertToStruct (process.faults.next .realloc = .done) process.memory filename
      chunkId has with
  | none => simp only [iff_true]; rfl
  | some state => simp only [reduceCtorEq, iff_false]; exact Option.some_ne_none _

/-- `access` does not see the chunk, `readdir` shows a regular file in the directory of its
file, and on this disk the chunk can be opened and takes all of the bytes. -/
structure WritesBeside (process : Process StorageStateOuter) (filename data : Bytes)
    (chunkId : Int32) : Prop where
  unseen : ¬Sees process (chunkPath filename chunkId)
  shows : ShowsRegular process (directoryPath filename)
  permitted : process.faults.next .fopen = .done
  opens : (process.disk.openAppend (chunkPath filename chunkId)).isSome
  whole : (process.faults.next .fwrite).Transfers data.length

theorem writesBeside_iff {process : Process StorageStateOuter} {filename data : Bytes}
    {chunkId : Int32} :
    WritesBeside process filename data chunkId ↔ ¬Sees process (chunkPath filename chunkId) ∧
      ShowsRegular process (directoryPath filename) ∧
      Storable process (chunkPath filename chunkId) data := by
  constructor
  · rintro ⟨unseen, shows, permitted, opens, whole⟩
    exact ⟨unseen, shows, shows.storable_iff.mpr ⟨permitted, opens, whole⟩⟩
  · rintro ⟨unseen, shows, storable⟩
    obtain ⟨permitted, opens, whole⟩ := shows.storable_iff.mp storable
    exact ⟨unseen, shows, permitted, opens, whole⟩

theorem saveChunkToFile_eq_none {filename data : Bytes} (chunkId : Int32) (nonempty : data ≠ [])
    (process : Process StorageStateOuter) :
    saveChunkToFile (some filename) (some data) chunkId process = none ↔
      process.memory.fileToChunkState = [] ∧ WritesBeside process filename data chunkId := by
  obtain ⟨has, disk, faults, shows, _, ended⟩ :=
    @saveChunkToFile_calls filename data chunkId nonempty process
  rw [writesBeside_iff]
  rcases ended with ⟨seen, saved⟩ | ⟨_, refused, saved⟩ | ⟨unseen, storable, saved⟩
  · simp [saved, seen]
  · simp [saved, refused]
  · rw [saved, recordChunk_eq_none, shows]
    simp only [unseen, storable, not_false_eq_true, true_and, and_true]
    exact and_comm

def SelectsSlot (storage : Storage) (action : Action) : Prop :=
  match action.request with
  | .save (some filename) (some data) chunkId =>
      ¬(storage.table.fileToChunkState = [] ∧ data ≠ [] ∧
        WritesBeside (storage.process action.faults) filename data chunkId)
  | _ => True

theorem step_save_isSome_iff (storage : Storage) (filename data : Option Bytes) (chunkId : Int32)
    (faults : Faults) :
    (step storage ⟨.save filename data chunkId, faults⟩).isSome ↔
      SelectsSlot storage ⟨.save filename data chunkId, faults⟩ := by
  match filename, data with
  | none, _ => simp [step_save_unchecked, SelectsSlot]
  | some _, none => simp [step_save_unchecked, SelectsSlot]
  | some filename, some data =>
      by_cases empty : data = []
      · simp [step_save_unchecked, SelectsSlot, empty]
      · have undefined := @saveChunkToFile_eq_none filename data chunkId empty
          (storage.process faults)
        rw [step_save, Option.isSome_map, Option.isSome_iff_ne_none, ne_eq, undefined]
        simp [SelectsSlot, empty]

theorem step_isSome_iff (storage : Storage) (action : Action) :
    (step storage action).isSome ↔ SelectsSlot storage action := by
  obtain ⟨request, faults⟩ := action
  cases request with
  | save filename data chunkId => exact step_save_isSome_iff storage filename data chunkId faults
  | delete filename =>
      obtain ⟨result, next, ran, _, _⟩ :=
        removeDirectory_quiet descriptorLimit (directoryPath filename) (storage.process faults)
      simp [step, Request.serve, bind_apply, deleteFile_of_removed ran, pure_apply, SelectsSlot]
  | read filename chunkId =>
      have quiet : Quiet .malloc (getFileDescriptor filename chunkId) := by
        refine Quiet.get_bind ?_
        intro process
        split
        · exact Quiet.attempt _ (by simp)
        · exact Quiet.pure _
      obtain ⟨opened, next, ran, _, _⟩ := quiet (storage.process faults)
      simp [step, Request.serve, bind_apply, ran, pure_apply, SelectsSlot]

/-- From any content of the directory, whatever is asked and whatever the calls
answer: the table slot is in range throughout the run exactly when no save meets an
empty table where its chunk goes beside a file that is there. -/
theorem run_slot_in_range_iff (disk : Disk) (actions : List Action) :
    (run step { disk := disk, table := storageStateInit } actions).isSome ↔
      Guarded step SelectsSlot { disk := disk, table := storageStateInit } actions := by
  rw [← always_true_iff_run]
  refine @always_iff_guarded _ _ _ step (fun _ => True) SelectsSlot (fun _ => True) (fun _ => True)
    ?_ ?_ actions _ trivial (fun _ _ => trivial)
  · intro storage action _ _ selects
    obtain ⟨⟨reply, next⟩, stepped⟩ :=
      Option.isSome_iff_exists.mp ((step_isSome_iff storage action).mpr selects)
    exact ⟨reply, next, stepped, trivial, trivial⟩
  · rintro storage action _ _ misses ⟨reply, next, stepped, _⟩
    exact misses ((step_isSome_iff storage action).mp (by simp [stepped]))

def restarted : Disk := Disk.root.populate
  [([dataName], .dir), ([ascii "a", dataName], .dir),
    ([decimal 0, ascii "a", dataName], .file (ascii "x"))]

theorem restarted_slot_out_of_range : ¬∀ disk actions,
    (run step { disk := disk, table := storageStateInit } actions).isSome := by
  intro inRange
  have defined := inRange restarted [{
    request := .save (some (ascii "a")) (some (ascii "y")) 1, faults := fun _ => [] }]
  revert defined
  decide +kernel

end DistributedFileSystem.StorageLayer
