import DistributedFileSystem.StorageLayer.IndexAgreement
import DistributedFileSystem.StorageLayer.ReadBack

/-!
The names in the table against the directories on the disk, when directories
and chunk files may fail to be created.
-/

namespace DistributedFileSystem.StorageLayer

open ByteString Posix Transition

def tableNames (table : StorageStateOuter) : List Bytes :=
  table.fileToChunkState.map FileStateCurrentInner.filePath

def Seeing (storage : Storage) (action : Action) : Prop :=
  Orderly storage action ∧
    ∀ filename data chunkId, action.request = .save (some filename) data chunkId →
      (storage.disk.node? (filename :: dataName :: storage.disk.cwd)).isSome →
        action.faults.Clean .opendir ∧ action.faults.Clean .readdir

structure Matches (storage : Storage) : Prop where
  layout : Layout storage.disk
  nodup : (tableNames storage.table).Nodup
  listed : ∀ filename, filename ∈ tableNames storage.table ↔
    ∃ chunkId, (stored storage.disk filename chunkId).isSome

theorem Storage.Fresh.matches {storage : Storage} (fresh : storage.Fresh) : Matches storage := by
  refine ⟨fresh.layout, ?_, ?_⟩
  · simp [tableNames, fresh.table, storageStateInit]
  · simp [tableNames, fresh.table, storageStateInit, fresh.stored_eq_none]

namespace Matches

variable {storage next : Storage} {filename bytes : Bytes} {chunkId : Int32}

theorem unchanged (same : Matches storage) (layout : Layout next.disk)
    (disk : stored next.disk = stored storage.disk) (table : next.table = storage.table) :
    Matches next := by
  refine ⟨layout, ?_, ?_⟩
  · rw [table]
    exact same.nodup
  · rw [table, disk]
    exact same.listed

theorem record (before : Matches storage) (layout : Layout next.disk) {allocated has : Bool}
    (told : has = true ↔ ∃ other, (stored storage.disk filename other).isSome)
    (inserted : insertToStruct allocated storage.table filename chunkId has = some next.table)
    (filled : ∀ other otherId, stored next.disk other otherId =
      if other = filename ∧ otherId = chunkId then some bytes
      else stored storage.disk other otherId) : Matches next := by
  have known : has = true ↔ filename ∈ tableNames storage.table := told.trans (before.listed filename).symm
  have grown : tableNames next.table = tableNames storage.table ++ if has then [] else [filename] :=
    insertToStruct_filePath inserted
  have present : ∀ other, (∃ id, (stored next.disk other id).isSome) ↔
      other = filename ∨ ∃ id, (stored storage.disk other id).isSome := by
    intro other
    simp only [filled]
    constructor
    · rintro ⟨id, there⟩
      by_cases own : other = filename
      · exact Or.inl own
      · rw [if_neg (fun both => own both.1)] at there
        exact Or.inr ⟨id, there⟩
    · rintro (rfl | ⟨id, there⟩)
      · exact ⟨chunkId, by simp⟩
      · refine ⟨id, ?_⟩
        split
        · rfl
        · exact there
  refine ⟨layout, ?_, ?_⟩
  · rw [grown]
    cases has with
    | true => simpa using before.nodup
    | false =>
        have new : filename ∉ tableNames storage.table := fun member => by simpa using known.mpr member
        exact before.nodup.append (List.nodup_singleton filename)
          (List.disjoint_singleton.mpr new)
  · intro other
    rw [present, ← before.listed, grown]
    cases has with
    | true =>
        have old := known.mp rfl
        rw [if_pos rfl, List.append_nil, or_iff_right_of_imp]
        rintro rfl
        exact old
    | false =>
        rw [if_neg (by simp), List.mem_append, List.mem_singleton, or_comm]

theorem save (before : Matches storage) {faults : Faults} (valid : ValidName filename)
    (nonempty : bytes ≠ []) (accurate : faults.Clean .access) (whole : faults.Clean .fwrite)
    (seen : (storage.disk.node? (filename :: dataName :: storage.disk.cwd)).isSome →
      faults.Clean .opendir ∧ faults.Clean .readdir) :
    ∃ reply next, step storage ⟨.save (some filename) (some bytes) chunkId, faults⟩ =
      some (reply, next) ∧ Matches next := by
  by_cases absent : stored storage.disk filename chunkId = none
  · rcases step_save_new before.layout valid nonempty accurate whole absent with
      ⟨disk, stepped, layout, same, _⟩ | ⟨has, told, tells, records⟩
    · exact ⟨_, _, stepped, before.unchanged layout same rfl⟩
    · have said : has = true ↔ ∃ other, (stored storage.disk filename other).isSome := by
        refine ⟨told, ?_⟩
        rintro ⟨other, present⟩
        have file : (storage.disk.node?
            (decimal other :: filename :: dataName :: storage.disk.cwd)).isSome := by
          rw [before.layout.node?_eq_stored, Option.isSome_map]
          exact present
        obtain ⟨opened, read⟩ := seen (by rw [Disk.parent_dir file]; rfl)
        exact tells opened read ⟨other, present⟩
      rcases records with ⟨undefined, _⟩ | ⟨disk, table, inserted, stepped, layout, filled⟩
      · -- the file that is found next to the chunk has its name in the table
        rw [insertToStruct_eq_none] at undefined
        have member := (before.listed filename).mpr (told undefined.1)
        simp [tableNames, undefined.2] at member
      · exact ⟨_, _, stepped, before.record layout said inserted filled⟩
  · exact ⟨_, _, step_save_known before.layout valid nonempty accurate
      (Option.isSome_iff_ne_none.mpr absent), before⟩

theorem delete (before : Matches storage) {faults : Faults} (valid : ValidName filename)
    (atomic : ∀ next, step storage ⟨.delete filename, faults⟩ = some (.deleted false, next) →
      next.disk.node? = storage.disk.node?) :
    ∃ reply next, step storage ⟨.delete filename, faults⟩ = some (reply, next) ∧ Matches next := by
  obtain ⟨removed, disk, stepped, layout, cwd, others, gone, _⟩ :=
    step_delete faults before.layout valid
  refine ⟨_, _, stepped, ?_⟩
  cases removed with
  | false =>
      refine before.unchanged layout ?_ rfl
      have same := atomic _ stepped
      funext other id
      simp only at same
      rw [stored, stored, same, cwd]
  | true =>
      have entries := removeFromStruct_eq_filter filename before.nodup
      have left : tableNames (removeFromStruct storage.table filename) =
          (tableNames storage.table).filter fun name => name ≠ filename := by
        rw [tableNames, entries, tableNames, List.filter_map]
        rfl
      refine ⟨layout, ?_, ?_⟩
      · simp only [if_true, left]
        exact before.nodup.filter _
      · intro other
        simp only [if_true, left, List.mem_filter, decide_eq_true_eq, before.listed]
        by_cases own : other = filename
        · subst own
          simp [gone rfl]
        · simp [others _ _ own, own]

theorem step (before : Matches storage) {action : Action} (seeing : Seeing storage action) :
    ∃ reply next, StorageLayer.step storage action = some (reply, next) ∧ Matches next := by
  obtain ⟨request, faults⟩ := action
  obtain ⟨⟨valid, accurate, whole, atomic⟩, found⟩ := seeing
  cases request with
  | save filename data chunkId =>
      match filename, data with
      | none, _ => exact ⟨_, _, step_save_unchecked storage chunkId faults (by simp), before⟩
      | some _, none => exact ⟨_, _, step_save_unchecked storage chunkId faults (by simp), before⟩
      | some filename, some bytes =>
          by_cases empty : bytes = []
          · exact ⟨_, _, step_save_unchecked storage chunkId faults (by simp [empty]), before⟩
          · exact before.save (valid filename rfl) empty accurate whole
              (found filename (some bytes) chunkId rfl)
  | delete filename => exact before.delete (valid filename rfl) atomic
  | read filename chunkId =>
      obtain ⟨opened, stepped, _⟩ := step_read chunkId faults before.layout (valid filename rfl)
      exact ⟨_, _, stepped, before⟩

end Matches

/-- From an empty node, over any run in which directories and chunk files may fail to be
created: no name is in the table twice, and one is in it exactly when its directory has a
regular file. -/
theorem table_names_match (storage : Storage) (fresh : storage.Fresh) (actions : List Action)
    (seeing : Guarded step Seeing storage actions) :
    ∃ trace last, run step storage actions = some (trace, last) ∧
      (tableNames last.table).Nodup ∧
      ∀ filename, filename ∈ tableNames last.table ↔
        HasRegular last.disk (filename :: dataName :: last.disk.cwd) := by
  obtain ⟨trace, last, ran, held⟩ := @run_history _ _ _ step Seeing (fun _ => Matches)
    (fun _ _ _ before seeing => before.step seeing |>.imp fun _ => Exists.imp fun _ => id)
    actions [] storage fresh.matches seeing
  refine ⟨trace, last, ran, held.nodup, ?_⟩
  intro filename
  rw [held.listed, held.layout.hasRegular_iff]

theorem table_names_match_savedAgain :
    ∃ trace last, run step emptyStorage savedAgain = some (trace, last) ∧
      (tableNames last.table).Nodup ∧
      ∀ filename, filename ∈ tableNames last.table ↔
        HasRegular last.disk (filename :: dataName :: last.disk.cwd) := by
  refine table_names_match emptyStorage emptyStorage_fresh savedAgain (savedAgain_orderly.imp ?_)
  intro storage action member orderly
  refine ⟨orderly, ?_⟩
  intro filename data chunkId _ _
  have clean : action.faults = fun _ => [] := by
    simp only [savedAgain, List.mem_cons, List.not_mem_nil, or_false] at member
    rcases member with rfl | rfl | rfl | rfl <;> rfl
  rw [clean]
  constructor
  · intro outcome listed
    simp at listed
  · intro outcome listed
    simp at listed

end DistributedFileSystem.StorageLayer
