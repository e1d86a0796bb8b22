import DistributedFileSystem.StorageLayer.ChunkStore
import DistributedFileSystem.StorageLayer.RemovalCalls

/-!
What a delete that answers `false` leaves behind, and which of its calls may
fail without a loss.
-/

namespace DistributedFileSystem.StorageLayer

open ByteString Posix Transition

def deletionCalls (storage : Storage) (filename : Bytes) (faults : Faults) : List CallResult :=
  (directoryCalls descriptorLimit (directoryPath filename) (storage.process faults)).1

def Opens (storage : Storage) (filename : Bytes) (chunkId : Int32) (node : Node) : Prop :=
  step storage ⟨.read filename chunkId, fun _ => []⟩ = some (.opened (some node), storage)

/-- The regular files are the chunk files: the store makes no others. -/
structure SameStore (before after : Storage) : Prop where
  table : after.table = before.table
  file : ∀ location bytes, after.disk.node? location = some (.file bytes) ↔
    before.disk.node? location = some (.file bytes)
  opens : ∀ filename chunkId node, Opens before filename chunkId node →
    Opens after filename chunkId node

def FailureKeepsStore (storage : Storage) (filename : Bytes) (faults : Faults) : Prop :=
  ∀ next, step storage ⟨.delete filename, faults⟩ = some (.deleted false, next) →
    SameStore storage next

/-- A chunk file, or a node on the way to a chunk that can be opened. -/
def Needed (storage : Storage) (location : Location) : Prop :=
  storage.disk.regular location = true ∨ ∃ filename chunkId node,
    Opens storage filename chunkId node ∧
      location ∈ storage.disk.onTheWay true (chunkPath filename chunkId)

def NoFailureAfterLoss (storage : Storage) (filename : Bytes) (faults : Faults) : Prop :=
  (deletionCalls storage filename faults).Pairwise fun early late =>
    (∃ location, early = .took location ∧ Needed storage location) → late ≠ .failed

theorem opens_iff {storage : Storage} {filename : Bytes} {chunkId : Int32} {node : Node} :
    Opens storage filename chunkId node ↔
      (storage.table.fileToChunkState.any fun file =>
        file.filePath = filename && file.chunkIds.contains chunkId) = true ∧
      storage.disk.lookup true (chunkPath filename chunkId) = some node := by
  have unrefused : Faults.next (fun _ => []) .openRead = .done := rfl
  rw [Opens, step_read_lookup]
  by_cases listed : (storage.table.fileToChunkState.any fun file =>
      file.filePath = filename && file.chunkIds.contains chunkId) = true
  · rw [if_pos ⟨listed, unrefused⟩, and_iff_right listed]
    simp
  · rw [if_neg fun both => listed both.1]
    exact iff_of_false (by simp) fun both => listed both.1

/-- Losing nodes is harmless when none of them is needed, and only then. -/
theorem sameStore_iff {before after : Storage} {gone : List Location}
    (lost : Lost before.disk after.disk gone) (table : after.table = before.table) :
    SameStore before after ↔ ∀ location ∈ gone, ¬Needed before location := by
  constructor
  · rintro same location taken (regular | ⟨filename, chunkId, node, opened, onTheWay⟩)
    · obtain ⟨bytes, found⟩ := Disk.regular_iff.mp regular
      have kept := (same.file location bytes).mpr found
      simp [lost.missing taken] at kept
    · have again := (opens_iff.mp (same.opens filename chunkId node opened)).2
      exact (lost.lookup_eq_some.mp again).2 location onTheWay taken
  · intro unneeded
    refine ⟨table, ?_, ?_⟩
    · intro location bytes
      rw [lost.node]
      split
      · rename_i taken
        simp only [reduceCtorEq, false_iff]
        intro found
        exact unneeded location taken (Or.inl (Disk.regular_iff.mpr ⟨bytes, found⟩))
      · rfl
    · intro filename chunkId node opened
      obtain ⟨listed, found⟩ := opens_iff.mp opened
      refine opens_iff.mpr ⟨by rwa [table], lost.lookup_eq_some.mpr ⟨found, ?_⟩⟩
      intro location onTheWay taken
      exact unneeded location taken (Or.inr ⟨filename, chunkId, node, opened, onTheWay⟩)

theorem noFailureAfterLoss_iff (storage : Storage) (filename : Bytes) (faults : Faults) :
    NoFailureAfterLoss storage filename faults ↔
      ((directoryCalls descriptorLimit (directoryPath filename) (storage.process faults)).2 = none →
        ∀ location, .took location ∈ deletionCalls storage filename faults →
          ¬Needed storage location) := by
  obtain ⟨_, _, calls, _, _, unfailed, _, ⟨_, watched, _⟩ | ⟨watched, _⟩⟩ :=
    directoryCalls_watches descriptorLimit (directoryPath filename) (storage.process faults)
  · rw [NoFailureAfterLoss, deletionCalls, watched]
    exact iff_of_true (pairwise_of_unfailed unfailed) fun ended => by simp at ended
  · rw [NoFailureAfterLoss, deletionCalls, watched, List.pairwise_append]
    simp only [List.mem_append, List.mem_singleton, reduceCtorEq, or_false, forall_const]
    constructor
    · rintro ⟨_, _, ordered⟩ location taken needed
      exact ordered _ taken _ rfl ⟨location, rfl, needed⟩ rfl
    · intro unneeded
      refine ⟨pairwise_of_unfailed unfailed, List.pairwise_singleton _ _, ?_⟩
      rintro _ member _ _ ⟨location, rfl, needed⟩
      exact absurd needed (unneeded location member)

theorem failureKeepsStore_iff (storage : Storage) (filename : Bytes) (faults : Faults) :
    FailureKeepsStore storage filename faults ↔ NoFailureAfterLoss storage filename faults := by
  rw [noFailureAfterLoss_iff, deletionCalls]
  obtain ⟨code, ⟨disk, left, table⟩, calls, ran, same, unfailed, lost, outcome⟩ :=
    directoryCalls_watches descriptorLimit (directoryPath filename) (storage.process faults)
  obtain rfl : table = storage.table := same
  have stepped := step_delete_of_removed ran
  rcases outcome with ⟨⟨⟩, watched, rfl⟩ | ⟨watched, rfl⟩
  · rw [watched]
    refine iff_of_true ?_ fun ended => by simp at ended
    intro next failed
    simp [stepped, status] at failed
  · have refused : step storage ⟨.delete filename, faults⟩ =
        some (.deleted false, ⟨disk, storage.table⟩) := by
      simpa [status] using stepped
    have kept : FailureKeepsStore storage filename faults ↔
        SameStore storage ⟨disk, storage.table⟩ := by
      rw [FailureKeepsStore, refused]
      simp
    have harmless := @sameStore_iff storage ⟨disk, storage.table⟩ _ lost rfl
    rw [kept, harmless, watched]
    simp only [mem_taken, List.mem_append, List.mem_singleton, reduceCtorEq, or_false, forall_const]

theorem Layout.files {disk : Disk} (layout : Layout disk) (filename : Bytes) :
    ∀ name ∈ disk.children (filename :: dataName :: disk.cwd), ∃ bytes,
      disk.node? (name :: filename :: dataName :: disk.cwd) = some (.file bytes) := by
  intro name listed
  obtain ⟨held, present⟩ := Option.isSome_iff_exists.mp (Disk.mem_children.mp listed)
  obtain ⟨_, bytes, _, rfl⟩ := layout.chunk _ _ _ present
  exact ⟨bytes, present⟩

/-- In a store as its own saves lay it out, this is told by the outcomes alone: the removal
goes through, or it fails before it has taken a chunk. -/
theorem noFailureAfterLoss_iff_outcomes {storage : Storage} {filename : Bytes} (faults : Faults)
    (layout : Layout storage.disk) (valid : ValidName filename) :
    NoFailureAfterLoss storage filename faults ↔
      GoesThrough storage.disk (filename :: dataName :: storage.disk.cwd) faults ∨
        ¬TakesFile storage.disk (filename :: dataName :: storage.disk.cwd) faults := by
  rw [noFailureAfterLoss_iff, deletionCalls]
  cases found : storage.disk.node? (filename :: dataName :: storage.disk.cwd) with
  | none =>
      have opened : opendir (directoryPath filename) (storage.process faults) =
          some (none, (storage.process faults).spend .opendir) :=
        attempt_of_none (layout.unopened valid found)
      have calls : directoryCalls descriptorLimit (directoryPath filename)
          (storage.process faults) = ([.failed], none) :=
        Watched.bind_of_none (Watched.looking_of_none opened)
      rw [calls]
      exact iff_of_true (by simp) (Or.inr (not_takesFile_of_missing found faults))
  | some node =>
      have dir := layout.entry filename node found
      obtain ⟨calls, ended, ran, through, stopped⟩ := @directoryCalls_flat _ [dataName, filename]
        (descriptorLimit - 1) (storage.process faults)
        (layout.directoryAt valid (by rw [found, dir])) (layout.files filename)
      have calls : directoryCalls descriptorLimit (directoryPath filename)
          (storage.process faults) = (calls, ended) := by
        rw [directoryPath_of_valid valid]
        exact ran
      simp only [Storage.process_disk, Storage.process_faults, List.reverse_cons, List.reverse_nil,
        List.nil_append, List.cons_append] at through stopped
      rw [calls, ← through]
      cases ended with
      | some pair => exact iff_of_true (by simp) (Or.inl rfl)
      | none =>
          obtain ⟨takes, regular⟩ := stopped rfl
          rw [← takes]
          constructor
          · intro unneeded
            refine Or.inr ?_
            rintro ⟨one, taken⟩
            exact unneeded rfl one taken (Or.inl (regular one taken))
          · rintro (ended | untaken) _ one taken
            · simp at ended
            · exact absurd ⟨one, taken⟩ untaken

/-- A delete that answers `false` leaves the table, the chunk files and what can be
opened as they were exactly when no call of the removal fails after one that took
something needed. -/
theorem failed_delete_iff (storage : Storage) (filename : Bytes) (faults : Faults) :
    (FailureKeepsStore storage filename faults ↔ NoFailureAfterLoss storage filename faults) ∧
    (Layout storage.disk → ValidName filename →
      (FailureKeepsStore storage filename faults ↔
        GoesThrough storage.disk (filename :: dataName :: storage.disk.cwd) faults ∨
          ¬TakesFile storage.disk (filename :: dataName :: storage.disk.cwd) faults)) := by
  have exact := failureKeepsStore_iff storage filename faults
  refine ⟨exact, ?_⟩
  intro layout valid
  exact exact.trans (noFailureAfterLoss_iff_outcomes faults layout valid)

def twoChunks : Storage := {
  disk := emptyStorage.disk.populate [
    ([ascii "a", dataName], .dir),
    ([decimal 0, ascii "a", dataName], .file (ascii "x")),
    ([decimal 1, ascii "a", dataName], .file (ascii "y"))
  ]
  table := ⟨[⟨ascii "a", [0, 1]⟩]⟩
}

theorem twoChunks_layout : Layout twoChunks.disk := by
  have entries : twoChunks.disk.nodes.entries = [
      ⟨[decimal 1, ascii "a", dataName], .file (ascii "y")⟩,
      ⟨[decimal 0, ascii "a", dataName], .file (ascii "x")⟩,
      ⟨[ascii "a", dataName], .dir⟩, ⟨[dataName], .dir⟩, ⟨[], .dir⟩] := by decide +kernel
  have cwd : twoChunks.disk.cwd = [] := by decide +kernel
  have listed : ∀ location node, twoChunks.disk.node? location = some node →
      (⟨location, node⟩ : (_ : Location) × Node) ∈ twoChunks.disk.nodes.entries :=
    fun _ _ found => AList.mem_lookup_iff.mp found
  rw [entries] at listed
  simp only [List.mem_cons, Sigma.mk.injEq, List.not_mem_nil, or_false, heq_eq_eq] at listed
  refine ⟨by decide +kernel, ?_, ?_⟩
  · intro name node found
    have one := listed _ _ found
    simp only [cwd, List.cons.injEq, reduceCtorEq, and_false, false_and, false_or, or_false] at one
    exact one.2
  · intro last name node found
    have one := listed _ _ found
    simp only [cwd, List.cons.injEq, reduceCtorEq, and_false, false_and, or_false] at one
    rcases one with ⟨⟨rfl, _⟩, rfl⟩ | ⟨⟨rfl, _⟩, rfl⟩
    · exact ⟨1, ascii "y", rfl, rfl⟩
    · exact ⟨0, ascii "x", rfl, rfl⟩

def secondUnlinkRefused : Faults := Function.update (fun _ => []) .unlink [.done, .refused]

def twoSaves : List Action := [
  ⟨.save (some (ascii "a")) (some (ascii "x")) 0, fun _ => []⟩,
  ⟨.save (some (ascii "a")) (some (ascii "y")) 1, fun _ => []⟩
]

theorem half_deleted :
    (run step emptyStorage twoSaves).map (fun ended =>
        (ended.2.disk.nodes.entries, ended.2.table)) =
      some (twoChunks.disk.nodes.entries, twoChunks.table) ∧
    (step twoChunks ⟨.delete (ascii "a"), secondUnlinkRefused⟩).map (fun deleted =>
        (deleted.1, deleted.2.disk.node? [decimal 1, ascii "a", dataName], deleted.2.table)) =
      some (.deleted false, none, twoChunks.table) ∧
    ¬FailureKeepsStore twoChunks (ascii "a") secondUnlinkRefused := by
  have found : (step twoChunks ⟨.delete (ascii "a"), secondUnlinkRefused⟩).map (fun deleted =>
      (deleted.1, deleted.2.disk.node? [decimal 1, ascii "a", dataName], deleted.2.table)) =
        some (.deleted false, none, twoChunks.table) := by decide +kernel
  refine ⟨by decide +kernel, found, ?_⟩
  intro keeps
  obtain ⟨⟨_, next⟩, deleted, same⟩ := Option.map_eq_some_iff.mp found
  obtain ⟨rfl, rest⟩ := Prod.mk.inj same
  have held : twoChunks.disk.node? [decimal 1, ascii "a", dataName] =
      some (.file (ascii "y")) := by decide +kernel
  have kept := ((keeps next deleted).file _ _).mpr held
  rw [(Prod.mk.inj rest).1] at kept
  simp at kept

theorem failed_delete_iff_twoChunks :
    FailureKeepsStore twoChunks (ascii "a") secondUnlinkRefused ↔
      GoesThrough twoChunks.disk (ascii "a" :: dataName :: twoChunks.disk.cwd) secondUnlinkRefused ∨
        ¬TakesFile twoChunks.disk (ascii "a" :: dataName :: twoChunks.disk.cwd)
          secondUnlinkRefused :=
  (failed_delete_iff twoChunks (ascii "a") secondUnlinkRefused).2 twoChunks_layout (by decide)

end DistributedFileSystem.StorageLayer
