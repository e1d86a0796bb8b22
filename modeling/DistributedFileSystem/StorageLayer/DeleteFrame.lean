import DistributedFileSystem.StorageLayer.NestedNames

/-! What deleting one file does to the others, whose names may lie below its own. -/

namespace DistributedFileSystem.StorageLayer

open ByteString Posix Transition

def entriesNamed (table : StorageStateOuter) (filename : Bytes) : List FileStateCurrentInner :=
  table.fileToChunkState.filter fun file => file.filePath = filename

theorem entriesNamed_removeFromStruct {table : StorageStateOuter} {filename other : Bytes}
    (different : filename ≠ other) :
    entriesNamed (removeFromStruct table filename) other = entriesNamed table other := by
  rw [entriesNamed, removeFromStruct_eq, entriesNamed]
  induction table.fileToChunkState with
  | nil => rfl
  | cons file rest ih =>
      by_cases same : file.filePath = filename
      · rw [List.eraseP_cons_of_pos (by simpa using same), List.filter_cons_of_neg]
        simpa [same] using different
      · rw [List.eraseP_cons_of_neg (by simpa using same), List.filter_cons, List.filter_cons, ih]

section Below

variable {disk : Disk} {mine other : List Name} {chunkId : Int32}

theorem chunk_below (rest : List Name) :
    decimal chunkId :: ((mine ++ rest).reverse ++ dataName :: disk.cwd) =
      (decimal chunkId :: rest.reverse) ++ (mine.reverse ++ dataName :: disk.cwd) := by
  simp

theorem chunkFile_below (above : mine <+: other)
    (notDir : disk.node? (mine.reverse ++ dataName :: disk.cwd) ≠ some .dir) :
    chunkFile disk other chunkId = none := by
  obtain ⟨rest, rfl⟩ := above
  have missing := Disk.node?_below_of_not_dir notDir (decimal chunkId :: rest.reverse) (by simp)
  rw [chunkFile, chunk_below, missing]

theorem outside_of_file {child : Name} {bytes : Bytes} (apart : ¬mine <+: other)
    (dir : disk.node? (mine.reverse ++ dataName :: disk.cwd) = some .dir)
    (found : disk.node? (child :: (other.reverse ++ dataName :: disk.cwd)) = some (.file bytes)) :
    ¬mine.reverse ++ dataName :: disk.cwd <:+
      child :: (other.reverse ++ dataName :: disk.cwd) := by
  intro above
  rw [← List.cons_append, List.suffix_append_self_iff] at above
  have deeper : mine <+: other ++ [child] := by
    rw [← List.reverse_suffix]
    simpa using above
  rcases List.prefix_concat_iff.mp deeper with same | above
  · simp [same, found] at dir
  · exact apart above

end Below

/-- A delete leaves another file alone, unless that one has a chunk and its name lies
below the deleted name. -/
theorem delete_harmless_iff {storage final : Storage} {actions : List Action}
    {trace : List (Action × Reply)} (fresh : storage.Fresh)
    (nested : ∀ action ∈ actions, action.Nested)
    (ran : run step storage actions = some (trace, final)) {mine other : List Name}
    (mineSpelled : Spelled mine) (fits : Fits mine) (otherSpelled : Spelled other)
    (different : mine ≠ other) {faults : Faults} (clean : FileSystemClean faults) :
    ∃ removed next, step final ⟨.delete (joined mine), faults⟩ = some (.deleted removed, next) ∧
      (entriesNamed next.table (joined other) = entriesNamed final.table (joined other) ∧
          (∀ chunkId bytes, chunkFile final.disk other chunkId = some bytes →
            chunkFile next.disk other chunkId = some bytes) ↔
        ¬(mine <+: other ∧ ∃ chunkId, (chunkFile final.disk other chunkId).isSome)) := by
  obtain ⟨_, last, again, sheltered⟩ := run_nested fresh.sheltered nested
  obtain ⟨_, rfl⟩ := Prod.mk.inj (Option.some.inj (again.symm.trans ran))
  have names : joined mine ≠ joined other :=
    fun same => different (mineSpelled.injective otherSpelled same)
  rcases step_delete_nested sheltered mineSpelled fits clean with
    ⟨notDir, stepped⟩ | ⟨dir, disk, stepped, pruned, gone⟩
  · refine ⟨false, last, stepped, iff_of_true ⟨rfl, fun _ _ found => found⟩ ?_⟩
    rintro ⟨above, chunkId, held⟩
    simp [chunkFile_below above notDir] at held
  · refine ⟨true, _, stepped, ?_⟩
    constructor
    · rintro ⟨_, kept⟩ ⟨above, chunkId, held⟩
      obtain ⟨bytes, found⟩ := Option.isSome_iff_exists.mp held
      have missing := @chunkFile_below disk mine other chunkId above (by
        rw [pruned.cwd, gone]
        simp)
      simp [kept chunkId bytes found] at missing
    · intro apart
      refine ⟨entriesNamed_removeFromStruct names, ?_⟩
      intro chunkId bytes found
      have away : ¬mine <+: other := fun above => apart ⟨above, chunkId, by simp [found]⟩
      rw [chunkFile_eq_some] at found ⊢
      have outside := outside_of_file away dir found
      rw [pruned.cwd, pruned.outside (by simpa using outside)]
      exact found

def savedBelow : Action := ⟨.save (some (ascii "a/b")) (some (ascii "x")) 0, fun _ => []⟩

def outer : List Name := [ascii "a"]

def inner : List Name := [ascii "a", ascii "b"]

theorem outer_spelled : Spelled outer := ⟨by decide, by decide⟩

theorem inner_spelled : Spelled inner := ⟨by decide, by decide⟩

theorem noFaults_clean : FileSystemClean fun _ => [] := by
  intro call _ _ outcome member
  contradiction

theorem savedBelow_nested : ∀ action ∈ [savedBelow], action.Nested := by
  intro action member
  rw [List.mem_singleton.mp member]
  refine ⟨?_, noFaults_clean⟩
  intro name same
  exact ⟨inner, inner_spelled, by rw [← Option.some.inj same]; decide, by unfold Fits; decide⟩

theorem delete_harmless_iff_outer : ∃ trace final removed next,
    run step emptyStorage [savedBelow] = some (trace, final) ∧
    step final ⟨.delete (joined outer), fun _ => []⟩ = some (.deleted removed, next) ∧
    (entriesNamed next.table (joined inner) = entriesNamed final.table (joined inner) ∧
        (∀ chunkId bytes, chunkFile final.disk inner chunkId = some bytes →
          chunkFile next.disk inner chunkId = some bytes) ↔
      ¬(outer <+: inner ∧ ∃ chunkId, (chunkFile final.disk inner chunkId).isSome)) := by
  obtain ⟨trace, final, ran, _⟩ := run_nested emptyStorage_fresh.sheltered savedBelow_nested
  obtain ⟨removed, next, stepped, harmless⟩ := delete_harmless_iff emptyStorage_fresh
    savedBelow_nested ran outer_spelled (by unfold Fits; decide) inner_spelled (by decide)
    noFaults_clean
  exact ⟨trace, final, removed, next, ran, stepped, harmless⟩

/-- The file `a/b` is saved and `a` is deleted. -/
theorem outer_delete_harms_inner : ¬∀ (storage final : Storage) (actions : List Action)
    (trace : List (Action × Reply)) (mine other : List Name) (faults : Faults)
    (removed : Bool) (next : Storage), storage.Fresh → (∀ action ∈ actions, action.Nested) →
    run step storage actions = some (trace, final) → Spelled mine → Fits mine → Spelled other →
    mine ≠ other → FileSystemClean faults →
    step final ⟨.delete (joined mine), faults⟩ = some (.deleted removed, next) →
    entriesNamed next.table (joined other) = entriesNamed final.table (joined other) ∧
      ∀ chunkId bytes, chunkFile final.disk other chunkId = some bytes →
        chunkFile next.disk other chunkId = some bytes := by
  intro always
  have held : ((run step emptyStorage [savedBelow]).map fun ended =>
      chunkFile ended.2.disk inner 0) = some (some (ascii "x")) := by decide +kernel
  have lost : ((run step emptyStorage [savedBelow]).bind fun ended =>
      (step ended.2 ⟨.delete (joined outer), fun _ => []⟩).map fun deleted =>
        (deleted.1, chunkFile deleted.2.disk inner 0)) = some (.deleted true, none) := by
    decide +kernel
  obtain ⟨⟨trace, final⟩, ran, found⟩ := Option.map_eq_some_iff.mp held
  rw [ran, Option.bind_some] at lost
  obtain ⟨⟨reply, next⟩, deleted, same⟩ := Option.map_eq_some_iff.mp lost
  obtain ⟨rfl, missing⟩ := Prod.mk.inj same
  have kept := (always emptyStorage final _ trace outer inner (fun _ => []) true next
    emptyStorage_fresh savedBelow_nested ran outer_spelled (by unfold Fits; decide) inner_spelled
    (by decide) noFaults_clean deleted).2 0 (ascii "x") found
  rw [missing] at kept
  exact Option.some_ne_none _ kept.symm

end DistributedFileSystem.StorageLayer
