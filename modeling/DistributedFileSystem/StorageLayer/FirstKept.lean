import DistributedFileSystem.Library.Simulation
import DistributedFileSystem.StorageLayer.IndexAgreement

/-!
What the chunk store of a storage node is for: it keeps, for every file, the chunk that came
first under each id, until the file is removed. While every new chunk extends the entry of its
own file, the store on the disk does just that.
-/

namespace DistributedFileSystem.StorageLayer

open ByteString Posix Transition PutOnce

abbrev Chunks := Held Bytes Int32 Bytes

/-- The store without a disk and a table. -/
noncomputable def keepFirst (held : Chunks) (action : Action) : Option (Reply × Chunks) :=
  match action.request with
  | .save (some filename) (some data) chunkId =>
      if data = [] then some (.saved false, held)
      else some (.saved true, PutOnce.put held filename chunkId data)
  | .save _ _ _ => some (.saved false, held)
  | .delete filename =>
      some (.deleted (@decide (∃ chunkId, (held filename chunkId).isSome)
        (Classical.propDecidable _)), PutOnce.drop held filename)
  | .read filename chunkId => some (.opened ((held filename chunkId).map .file), held)

def Occupied (disk : Disk) : Prop :=
  ∀ filename, (disk.node? (filename :: dataName :: disk.cwd)).isSome →
    ∃ chunkId, (stored disk filename chunkId).isSome

def EndsWith (filename : Bytes) (storage : Storage) : Prop :=
  (∃ chunkId, (stored storage.disk filename chunkId).isSome) →
    ∃ last, storage.table.fileToChunkState.getLast? = some last ∧ last.filePath = filename

structure Keeps (storage : Storage) (held : Chunks) : Prop where
  indexed : Indexed storage
  occupied : Occupied storage.disk
  held : stored storage.disk = held

theorem fileSystemClean_nothing : FileSystemClean fun _ => [] := by
  intro call _ _ outcome listed
  simp at listed

theorem Storage.Fresh.keeps {storage : Storage} (fresh : storage.Fresh) :
    Keeps storage fun _ _ => none := by
  refine ⟨fresh.indexed, ?_, ?_⟩
  · intro filename present
    rw [show storage.disk.node? (filename :: dataName :: storage.disk.cwd) = none from
      fresh.absent (List.cons_ne_nil filename [])] at present
    contradiction
  · funext filename chunkId
    exact fresh.stored_eq_none filename chunkId

theorem directory_of_stored {disk : Disk} {filename : Bytes} {chunkId : Int32}
    (present : (stored disk filename chunkId).isSome) :
    (disk.node? (filename :: dataName :: disk.cwd)).isSome := by
  have found : (disk.node? (decimal chunkId :: filename :: dataName :: disk.cwd)).isSome := by
    unfold stored at present
    split at present
    · rename_i bytes found
      simp [found]
    · contradiction
  simp [Disk.parent_dir found]

namespace Keeps

variable {storage next : Storage} {held : Chunks} {filename : Bytes} {chunkId : Int32}
  {faults : Faults}

/-- A save that stores a new chunk makes a directory for its own file at most. -/
theorem occupied_saved {bytes : Bytes} {reply : Reply} (keeps : Keeps storage held)
    (valid : ValidName filename) (nonempty : bytes ≠ []) (clean : FileSystemClean faults)
    (stepped : step storage ⟨.save (some filename) (some bytes) chunkId, faults⟩ =
      some (reply, next))
    (same : ∀ other otherId, (stored storage.disk other otherId).isSome →
      (stored next.disk other otherId).isSome)
    (present : (stored next.disk filename chunkId).isSome) : Occupied next.disk := by
  have layout := keeps.indexed.layout
  have outcome := @save_outcome storage filename bytes chunkId faults layout.dataDirectory.store
    valid nonempty (clean .access (by simp) (by simp))
  rw [step_save] at stepped
  generalize saveChunkToFile (some filename) (some bytes) chunkId (storage.process faults) = ended
    at outcome stepped
  cases outcome with
  | stored faults _ =>
      obtain ⟨_, rfl⟩ := Prod.mk.inj (Option.some.inj stepped)
      exact keeps.occupied
  | refused disk faults _ _ unclean =>
      exact absurd ⟨clean .mkdir (by simp) (by simp), clean .fopen (by simp) (by simp),
        layout.free filename⟩ unclean
  | short disk faults count _ _ unclean =>
      exact absurd (clean .fwrite (by simp) (by simp)) unclean
  | recorded disk faults has table _ filled _ _ =>
      obtain ⟨_, rfl⟩ := Prod.mk.inj (Option.some.inj stepped)
      intro other there
      by_cases own : other = filename
      · exact ⟨chunkId, own ▸ present⟩
      · have apart : other :: dataName :: storage.disk.cwd ≠
            decimal chunkId :: filename :: dataName :: storage.disk.cwd := by
          intro equal
          simpa using congrArg List.length equal
        rw [filled.cwd] at there
        rcases filled.node _ apart with before | ⟨above, _, _⟩
        · simp only [Storage.process_disk, before] at there
          obtain ⟨otherId, found⟩ := keeps.occupied other there
          exact ⟨otherId, same other otherId found⟩
        · have equal := above.eq_of_length (by simp)
          exact absurd (List.cons.inj equal).1 own
  | outOfRange _ _ _ _ => simp at stepped

theorem lists_iff (keeps : Keeps storage held) :
    (storage.table.fileToChunkState.any fun file =>
        file.filePath = filename && file.chunkIds.contains chunkId) = true ↔
      (held filename chunkId).isSome := by
  rw [← keeps.held, ← keeps.indexed.lists_iff, Lists, List.any_eq_true]
  simp only [Bool.and_eq_true, decide_eq_true_eq, List.contains_iff_mem]

theorem read (keeps : Keeps storage held) (valid : ValidName filename)
    (clean : FileSystemClean faults) :
    step storage ⟨.read filename chunkId, faults⟩ =
      some (.opened ((held filename chunkId).map .file), storage) := by
  have layout := keeps.indexed.layout
  have opens : faults.next .openRead = .done := (clean .openRead (by simp) (by simp)).next
  rw [step_read_eq chunkId faults layout.dataDirectory valid, layout.node?_eq_stored, keeps.held]
  simp only [keeps.lists_iff, opens, and_true]
  cases held filename chunkId <;> rfl

theorem dir_iff (keeps : Keeps storage held) :
    storage.disk.node? (filename :: dataName :: storage.disk.cwd) ≠ none ↔
      ∃ chunkId, (held filename chunkId).isSome := by
  rw [← keeps.held, ← Option.isSome_iff_ne_none]
  exact ⟨keeps.occupied filename, fun ⟨_, present⟩ => directory_of_stored present⟩

theorem delete (keeps : Keeps storage held) (valid : ValidName filename)
    (clean : FileSystemClean faults) :
    ∃ next removed, step storage ⟨.delete filename, faults⟩ = some (.deleted removed, next) ∧
      (removed = true ↔ ∃ chunkId, (held filename chunkId).isSome) ∧
      Keeps next (PutOnce.drop held filename) := by
  have layout := keeps.indexed.layout
  by_cases dir : storage.disk.node? (filename :: dataName :: storage.disk.cwd) = none
  · obtain ⟨left, ran⟩ := removeDirectory_unopened descriptorLimit (storage.process faults)
      (layout.unopened valid dir)
    have nothing : ¬∃ chunkId, (held filename chunkId).isSome :=
      fun some => (keeps.dir_iff.mpr some) dir
    refine ⟨storage, false, step_delete_of_removed ran, by simpa using nothing, ?_⟩
    have same : PutOnce.drop held filename = held := by
      funext other chunkId
      rw [PutOnce.drop]
      split
      · rename_i own
        subst own
        exact (Option.not_isSome_iff_eq_none.mp fun there => nothing ⟨chunkId, there⟩).symm
      · rfl
    rwa [same]
  · obtain ⟨removed, disk, stepped, pruned, gone, succeeds⟩ :=
      deleteFile_step faults layout valid
    obtain rfl := succeeds clean.removal dir
    obtain ⟨layoutNext, others⟩ := layout.of_pruned pruned
    have empty : ∀ chunkId, stored disk filename chunkId = none := by
      intro chunkId
      by_contra present
      have there := directory_of_stored (Option.isSome_iff_ne_none.mpr present)
      rw [pruned.cwd, gone rfl] at there
      contradiction
    refine ⟨_, true, stepped, by simpa using keeps.dir_iff.mp dir, ?_, ?_, ?_⟩
    · exact keeps.indexed.remove layoutNext empty (fun other chunkId => others other chunkId) rfl
    · intro other present
      have different : other ≠ filename := by
        rintro rfl
        rw [pruned.cwd, gone rfl] at present
        contradiction
      rw [pruned.cwd] at present
      obtain ⟨node, found⟩ := Option.isSome_iff_exists.mp present
      obtain ⟨chunkId, held⟩ := keeps.occupied other (by simp [pruned.some_of_some found])
      exact ⟨chunkId, by rwa [others other chunkId different]⟩
    · funext other chunkId
      by_cases own : other = filename
      · rw [PutOnce.drop, if_pos own, own]
        exact empty chunkId
      · rw [PutOnce.drop, if_neg own, ← keeps.held]
        exact others other chunkId own

theorem save (keeps : Keeps storage held) (valid : ValidName filename) {bytes : Bytes}
    (nonempty : bytes ≠ []) (clean : FileSystemClean faults)
    (own : ExtendsOwnEntry storage ⟨.save (some filename) (some bytes) chunkId, faults⟩) :
    ∃ next, step storage ⟨.save (some filename) (some bytes) chunkId, faults⟩ =
        some (.saved true, next) ∧ Keeps next (PutOnce.put held filename chunkId bytes) := by
  have layout := keeps.indexed.layout
  by_cases absent : stored storage.disk filename chunkId = none
  · obtain ⟨memory, last⟩ := own nonempty absent
    obtain ⟨reply, next, stepped, indexed⟩ :=
      save_keeps keeps.indexed valid nonempty clean absent memory last
    obtain ⟨has, _, ⟨_, undefined⟩ | ⟨disk, table, _, recorded, _, filled⟩⟩ :=
      save_new layout valid nonempty clean absent
    · simp [undefined] at stepped
    · obtain ⟨rfl, rfl⟩ : reply = .saved true ∧ next = ⟨disk, table⟩ := by
        simpa [recorded, eq_comm] using stepped
      refine ⟨_, stepped, indexed, ?_, ?_⟩
      · refine keeps.occupied_saved valid nonempty clean stepped ?_ ?_
        · intro other otherId present
          rw [filled]
          split
          · rfl
          · exact present
        · simp [filled]
      · funext other otherId
        rw [filled, PutOnce.put, ← keeps.held, absent, Option.getD_none]
  · obtain ⟨first, found⟩ := Option.ne_none_iff_exists'.mp absent
    refine ⟨storage, step_save_known layout valid nonempty (clean .access (by simp) (by simp))
      (Option.isSome_iff_ne_none.mpr absent), ?_⟩
    have same : PutOnce.put held filename chunkId bytes = held := by
      funext other otherId
      rw [PutOnce.put, ← keeps.held, found, Option.getD_some]
      split
      · rename_i both
        rw [both.1, both.2, found]
      · rfl
    rwa [same]

/-- A file that is uploaded by itself goes on extending its own entry. -/
theorem extend (keeps : Keeps storage held) (valid : ValidName filename) {bytes : Bytes}
    (nonempty : bytes ≠ []) (last : EndsWith filename storage) :
    ∃ next, step storage ⟨.save (some filename) (some bytes) chunkId, fun _ => []⟩ =
        some (.saved true, next) ∧ Keeps next (PutOnce.put held filename chunkId bytes) ∧
      EndsWith filename next := by
  have clean := fileSystemClean_nothing
  obtain ⟨next, stepped, after⟩ := keeps.save valid nonempty clean
    (fun (_ : bytes ≠ []) (_ : stored storage.disk filename chunkId = none) => ⟨rfl, last⟩)
  refine ⟨next, stepped, after, ?_⟩
  by_cases absent : stored storage.disk filename chunkId = none
  · obtain ⟨has, told, ⟨_, undefined⟩ | ⟨disk, table, inserted, recorded, _⟩⟩ :=
      save_new keeps.indexed.layout valid nonempty clean absent
    · simp [undefined] at stepped
    · obtain rfl : next = ⟨disk, table⟩ := by simpa [recorded, eq_comm] using stepped
      intro _
      obtain ⟨front, entry, extended, source⟩ := insertToStruct_some inserted
      refine ⟨_, by rw [extended, List.getLast?_concat], ?_⟩
      suffices named : entry.filePath = filename by simpa [pushChunkId, Faults.next] using named
      rcases source with ⟨_, _, rfl⟩ | ⟨rfl, split⟩
      · rfl
      · obtain ⟨own, found, named⟩ := last (told.mp rfl)
        rw [split, List.getLast?_concat, Option.some.injEq] at found
        rw [found, named]
  · have known := @step_save_known storage filename bytes chunkId (fun _ => []) keeps.indexed.layout
      valid nonempty (clean .access (by simp) (by simp)) (Option.isSome_iff_ne_none.mpr absent)
    obtain rfl : next = storage := by simpa [known, eq_comm] using stepped
    exact last

/-- A permitted call that extends no foreign entry: the store answers and goes on as one that
keeps what came first. -/
theorem step {action : Action} (keeps : Keeps storage held) (permitted : action.Permitted)
    (own : ExtendsOwnEntry storage action) :
    ∃ reply next after, StorageLayer.step storage action = some (reply, next) ∧
      keepFirst held action = some (reply, after) ∧ Keeps next after := by
  obtain ⟨request, faults⟩ := action
  obtain ⟨valid, clean⟩ := permitted
  match request with
  | .save none _ chunkId =>
      exact ⟨_, _, held, step_save_unchecked storage chunkId faults (by simp), rfl, keeps⟩
  | .save (some _) none chunkId =>
      exact ⟨_, _, held, step_save_unchecked storage chunkId faults (by simp), rfl, keeps⟩
  | .save (some filename) (some bytes) chunkId =>
      by_cases empty : bytes = []
      · exact ⟨_, _, held, step_save_unchecked storage chunkId faults (by simp [empty]),
          by simp [keepFirst, empty], keeps⟩
      · obtain ⟨next, stepped, after⟩ := keeps.save (valid filename rfl) empty clean own
        exact ⟨_, next, _, stepped, by simp [keepFirst, empty], after⟩
  | .delete filename =>
      obtain ⟨next, removed, stepped, told, after⟩ := keeps.delete (valid filename rfl) clean
      refine ⟨_, next, _, stepped, ?_, after⟩
      simp only [keepFirst, ← told, Bool.decide_eq_true]
  | .read filename chunkId =>
      exact ⟨_, storage, held, keeps.read (valid filename rfl) clean, rfl, keeps⟩

theorem run {actions : List Action} (keeps : Keeps storage held)
    (permitted : ∀ action ∈ actions, action.Permitted)
    (own : Guarded StorageLayer.step ExtendsOwnEntry storage actions) :
    ∃ replies final last, Transition.run StorageLayer.step storage actions = some (replies, final) ∧
      Transition.run keepFirst held actions = some (replies, last) ∧ Keeps final last := by
  induction actions generalizing storage held with
  | nil => exact ⟨[], storage, held, rfl, rfl, keeps⟩
  | cons action rest ih =>
      rw [List.forall_mem_cons] at permitted
      obtain ⟨reply, next, after, stepped, kept, still⟩ := keeps.step permitted.1 own.1
      obtain ⟨replies, final, last, ran, mirrored, ends⟩ :=
        ih still permitted.2 (own.2 reply next stepped)
      exact ⟨_, final, last, run_cons_of_step stepped ran, run_cons_of_step kept mirrored, ends⟩

end Keeps

end DistributedFileSystem.StorageLayer
