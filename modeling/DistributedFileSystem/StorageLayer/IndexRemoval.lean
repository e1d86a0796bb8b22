import DistributedFileSystem.StorageLayer.DeleteFrame

/-! When a delete that succeeds takes the file out of the table. -/

namespace DistributedFileSystem.StorageLayer

open ByteString Posix Transition

def IsDirectory (disk : Disk) (names : List Name) : Prop :=
  disk.node? (names.reverse ++ dataName :: disk.cwd) = some .dir

def Unlists (storage : Storage) (names : List Name) : Prop :=
  ∀ faults next, FileSystemClean faults →
    step storage ⟨.delete (joined names), faults⟩ = some (.deleted true, next) →
    entriesNamed next.table (joined names) = [] ∧
      ∀ fileMappings, returnCurrentState next.table = .health fileMappings →
        ∀ mapping ∈ fileMappings, mapping.filename ≠ joined names

def SparesEnclosed (storage : Storage) (action : Action) : Prop :=
  ∀ names, action.request = .delete (joined names) → IsDirectory storage.disk names →
    ∀ file ∈ storage.table.fileToChunkState, ¬joined names ++ [slash] <+: file.filePath

structure Distinct (storage : Storage) : Prop where
  names : (storage.table.fileToChunkState.map FileStateCurrentInner.filePath).Nodup
  occupied : ∀ file ∈ storage.table.fileToChunkState, ∃ names, Spelled names ∧
    file.filePath = joined names ∧
    HasRegular storage.disk (names.reverse ++ dataName :: storage.disk.cwd)

theorem entriesNamed_removed (table : StorageStateOuter) (filename : Bytes) :
    entriesNamed (removeFromStruct table filename) filename = (entriesNamed table filename).tail := by
  rw [entriesNamed, removeFromStruct_eq, entriesNamed]
  induction table.fileToChunkState with
  | nil => rfl
  | cons file rest ih =>
      by_cases same : file.filePath = filename
      · rw [List.eraseP_cons_of_pos (by simpa using same),
          List.filter_cons_of_pos (by simpa using same), List.tail_cons]
      · rw [List.eraseP_cons_of_neg (by simpa using same),
          List.filter_cons_of_neg (by simpa using same),
          List.filter_cons_of_neg (by simpa using same), ih]

theorem unreported {table : StorageStateOuter} {filename : Bytes}
    (unlisted : entriesNamed table filename = []) {fileMappings : List FileMappings}
    (reported : returnCurrentState table = .health fileMappings) :
    ∀ mapping ∈ fileMappings, mapping.filename ≠ filename := by
  rw [returnCurrentState_eq, MsgType.health.injEq] at reported
  rw [← reported, List.forall_mem_map]
  rw [entriesNamed, List.filter_eq_nil_iff] at unlisted
  intro file member
  simpa [mappingOf] using unlisted file member

theorem unlists_iff {storage : Storage} (sheltered : Sheltered storage) {names : List Name}
    (spelled : Spelled names) (fits : Fits names) :
    Unlists storage names ↔
      (IsDirectory storage.disk names →
        (entriesNamed storage.table (joined names)).length ≤ 1) := by
  constructor
  · intro unlists dir
    have clean := noFaults_clean
    rcases step_delete_nested sheltered spelled fits clean with
      ⟨notDir, _⟩ | ⟨_, disk, stepped, _, _⟩
    · exact absurd dir notDir
    · have unlisted := (unlists _ _ clean stepped).1
      rw [entriesNamed_removed] at unlisted
      have length := congrArg List.length unlisted
      rw [List.length_tail, List.length_nil] at length
      omega
  · intro single faults next clean deleted
    suffices unlisted : entriesNamed next.table (joined names) = [] from
      ⟨unlisted, fun _ reported => unreported unlisted reported⟩
    rcases step_delete_nested sheltered spelled fits clean with
      ⟨_, stepped⟩ | ⟨dir, disk, stepped, _, _⟩
    · rw [stepped] at deleted
      simp at deleted
    · rw [stepped] at deleted
      obtain ⟨_, rfl⟩ := Prod.mk.inj (Option.some.inj deleted)
      have count := single dir
      rw [entriesNamed_removed]
      apply List.eq_nil_of_length_eq_zero
      rw [List.length_tail]
      omega

theorem joined_append {front rest : List Name} (frontNonempty : front ≠ [])
    (restNonempty : rest ≠ []) : joined (front ++ rest) = joined front ++ slash :: joined rest := by
  induction rest generalizing front with
  | nil => contradiction
  | cons name rest ih =>
      by_cases empty : rest = []
      · rw [empty, joined_concat name frontNonempty, joined_single]
      · obtain ⟨next, others, rfl⟩ := List.exists_cons_of_ne_nil empty
        have split := @ih (front ++ [name]) (by simp) (by simp)
        rw [List.append_assoc, List.singleton_append] at split
        rw [split, joined_concat name frontNonempty, joined_cons]
        simp

theorem enclosed_of_prefix {mine other : List Name} (nonempty : mine ≠ []) (above : mine <+: other)
    (different : mine ≠ other) : joined mine ++ [slash] <+: joined other := by
  obtain ⟨rest, rfl⟩ := above
  have remains : rest ≠ [] := by
    rintro rfl
    simp at different
  rw [joined_append nonempty remains]
  exact ⟨joined rest, by simp⟩

namespace Distinct

variable {storage next : Storage}

theorem of_fresh (fresh : storage.Fresh) : Distinct storage := by
  have empty : storage.table.fileToChunkState = [] := by rw [fresh.table, storageStateInit]
  exact ⟨by simp [empty], by simp [empty]⟩

theorem single (distinct : Distinct storage) (filename : Bytes) :
    (entriesNamed storage.table filename).length ≤ 1 := by
  have nodup := distinct.names
  rw [entriesNamed]
  generalize storage.table.fileToChunkState = table at nodup ⊢
  induction table with
  | nil => simp
  | cons file rest ih =>
      rw [List.map_cons, List.nodup_cons] at nodup
      by_cases same : file.filePath = filename
      · have others : rest.filter (fun file => file.filePath = filename) = [] := by
          rw [List.filter_eq_nil_iff]
          intro other member equal
          exact nodup.1 (List.mem_map.mpr ⟨other, member, (of_decide_eq_true equal).trans same.symm⟩)
        rw [List.filter_cons_of_pos (by simpa using same), others, List.length_singleton]
      · rw [List.filter_cons_of_neg (by simpa using same)]
        exact ih nodup.2

theorem grown (distinct : Distinct storage) {names : List Name} {chunkId : Int32}
    (spelled : Spelled names) (growth : Growth storage next names chunkId) : Distinct next := by
  cases growth with
  | directories front _ made same =>
      refine ⟨by rw [same]; exact distinct.names, ?_⟩
      intro file member
      rw [same] at member
      obtain ⟨own, ownSpelled, path, regular⟩ := distinct.occupied file member
      rw [made.cwd]
      exact ⟨own, ownSpelled, path, (hasRegular_of_made made).mpr regular⟩
  | chunk bytes has allocated _ filled answer inserted =>
      have paths := insertToStruct_filePath inserted
      constructor
      · rw [paths]
        cases has with
        | true => simpa using distinct.names
        | false =>
            simp only [Bool.false_eq_true, if_false]
            rw [← List.concat_eq_append, List.nodup_concat]
            refine ⟨?_, distinct.names⟩
            intro listed
            obtain ⟨file, member, same⟩ := List.mem_map.mp listed
            obtain ⟨own, ownSpelled, path, regular⟩ := distinct.occupied file member
            obtain rfl := ownSpelled.injective spelled (path.symm.trans same)
            simpa using answer.mpr regular
      · intro file member
        have listed : file.filePath ∈ storage.table.fileToChunkState.map
            FileStateCurrentInner.filePath ∨ file.filePath = joined names := by
          have known := List.mem_map_of_mem (f := FileStateCurrentInner.filePath) member
          rw [paths, List.mem_append] at known
          refine known.imp_right ?_
          intro new
          cases has with
          | true => simp at new
          | false => simpa using new
        rw [filled.cwd]
        rcases listed with old | new
        · obtain ⟨earlier, before, same⟩ := List.mem_map.mp old
          obtain ⟨own, ownSpelled, path, regular⟩ := distinct.occupied earlier before
          exact ⟨own, ownSpelled, same.symm.trans path,
            (hasRegular_of_filled filled).mpr (Or.inr regular)⟩
        · exact ⟨names, spelled, new, (hasRegular_of_filled filled).mpr (Or.inl rfl)⟩

theorem deleted (distinct : Distinct storage) {disk : Disk} {names : List Name}
    (spelled : Spelled names) (dir : IsDirectory storage.disk names)
    (spares : ∀ file ∈ storage.table.fileToChunkState, ¬joined names ++ [slash] <+: file.filePath)
    (pruned : Pruned storage.disk disk [names.reverse ++ dataName :: storage.disk.cwd]) :
    Distinct { disk := disk, table := removeFromStruct storage.table (joined names) } := by
  have kept := removeFromStruct_eq_filter (joined names) distinct.names
  constructor
  · simp only [kept]
    exact distinct.names.sublist (List.filter_sublist.map _)
  · intro file member
    simp only [kept] at member
    obtain ⟨before, different⟩ := List.mem_filter.mp member
    obtain ⟨own, ownSpelled, path, child, bytes, found⟩ := distinct.occupied file before
    -- the file of an entry that is kept is not below the directory that went
    have apart : ¬names <+: own := by
      intro above
      apply spares file before
      rw [path]
      apply enclosed_of_prefix spelled.nonempty above
      rintro rfl
      simp [path] at different
    have outside := outside_of_file apart dir found
    refine ⟨own, ownSpelled, path, child, bytes, ?_⟩
    simp only [pruned.cwd]
    rw [pruned.outside (by simpa using outside)]
    exact found

theorem step (distinct : Distinct storage) {action : Action} {reply : Reply}
    (stepped : NestedStep storage action reply next) (spares : SparesEnclosed storage action) :
    Distinct next := by
  cases stepped with
  | refused same _ => rwa [same]
  | saved names chunkId answer _ spelled _ growth => exact distinct.grown spelled growth
  | deleted names disk request _ spelled dir pruned _ same =>
      rw [same]
      exact distinct.deleted spelled dir (spares names request dir) pruned

theorem run {actions : List Action} {final : Storage} {trace : List (Action × Reply)}
    (distinct : Distinct storage) (sheltered : Sheltered storage)
    (nested : ∀ action ∈ actions, action.Nested)
    (spares : Guarded StorageLayer.step SparesEnclosed storage actions)
    (ran : Transition.run StorageLayer.step storage actions = some (trace, final)) :
    Distinct final := by
  induction actions generalizing storage trace with
  | nil =>
      obtain ⟨_, rfl⟩ := Prod.mk.inj (Option.some.inj ran)
      exact distinct
  | cons action rest ih =>
      rw [List.forall_mem_cons] at nested
      obtain ⟨reply, next, tail, stepped, finished, _⟩ := run_cons ran
      obtain ⟨_, _, again, change⟩ := step_nested sheltered nested.1
      obtain ⟨rfl, rfl⟩ : reply = _ ∧ next = _ := by simpa [stepped] using again
      exact ih (distinct.step change spares.1) (change.sheltered sheltered) nested.2
        (spares.2 _ _ stepped) finished

end Distinct

/-- Over any run: a delete that succeeds unlists its file exactly if the table has it
once, and it always does in a run none of whose deletes encloses a name in the table. -/
theorem delete_unlists_iff {storage : Storage} {actions : List Action} (fresh : storage.Fresh)
    (nested : ∀ action ∈ actions, action.Nested) :
    ∃ trace final, run step storage actions = some (trace, final) ∧
      (∀ names, Spelled names → Fits names →
        (Unlists final names ↔
          (IsDirectory final.disk names →
            (entriesNamed final.table (joined names)).length ≤ 1))) ∧
      (Guarded step SparesEnclosed storage actions →
        ∀ names, Spelled names → Fits names → Unlists final names) := by
  obtain ⟨trace, final, ran, sheltered⟩ := run_nested fresh.sheltered nested
  refine ⟨trace, final, ran, fun names spelled fits => unlists_iff sheltered spelled fits, ?_⟩
  intro spares names spelled fits
  have distinct := (Distinct.of_fresh fresh).run fresh.sheltered nested spares ran
  exact (unlists_iff sheltered spelled fits).mpr fun _ => distinct.single _

def outerDeleted : Action := ⟨.delete (joined outer), fun _ => []⟩

def savedTwice : List Action := [savedBelow, outerDeleted, savedBelow]

theorem savedTwice_nested : ∀ action ∈ savedTwice, action.Nested := by
  have saved := savedBelow_nested savedBelow (List.mem_singleton_self _)
  have deleted : outerDeleted.Nested :=
    ⟨⟨outer, outer_spelled, rfl, by unfold Fits; decide⟩, noFaults_clean⟩
  simp only [savedTwice, List.mem_cons, List.not_mem_nil, or_false]
  rintro action (rfl | rfl | rfl)
  · exact saved
  · exact deleted
  · exact saved

theorem delete_unlists_iff_savedTwice : ∃ trace final,
    run step emptyStorage savedTwice = some (trace, final) ∧
      (∀ names, Spelled names → Fits names →
        (Unlists final names ↔
          (IsDirectory final.disk names →
            (entriesNamed final.table (joined names)).length ≤ 1))) ∧
      (Guarded step SparesEnclosed emptyStorage savedTwice →
        ∀ names, Spelled names → Fits names → Unlists final names) :=
  delete_unlists_iff emptyStorage_fresh savedTwice_nested

theorem savedTwice_stays_listed : ¬∀ (storage final : Storage) (actions : List Action)
    (trace : List (Action × Reply)), storage.Fresh → (∀ action ∈ actions, action.Nested) →
    run step storage actions = some (trace, final) →
    ∀ names, Spelled names → Fits names → Unlists final names := by
  intro always
  have stays : ((run step emptyStorage savedTwice).bind fun ended =>
      (step ended.2 ⟨.delete (joined inner), fun _ => []⟩).map fun deleted =>
        (deleted.1, (entriesNamed deleted.2.table (joined inner)).length)) =
      some (.deleted true, 1) := by decide +kernel
  obtain ⟨⟨trace, final⟩, ran, ended⟩ := Option.bind_eq_some_iff.mp stays
  obtain ⟨⟨reply, next⟩, deleted, same⟩ := Option.map_eq_some_iff.mp ended
  obtain ⟨rfl, length⟩ := Prod.mk.inj same
  have unlisted := (always emptyStorage final savedTwice trace emptyStorage_fresh savedTwice_nested
    ran inner inner_spelled (by unfold Fits; decide) (fun _ => []) next noFaults_clean deleted).1
  rw [unlisted, List.length_nil] at length
  omega

end DistributedFileSystem.StorageLayer
