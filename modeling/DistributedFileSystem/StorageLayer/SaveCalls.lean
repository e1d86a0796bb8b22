import DistributedFileSystem.Library.Posix.Ancestors
import DistributedFileSystem.StorageLayer.FileOperation

/-!
What a save finds and leaves, by the disk it starts from and the outcomes of its calls.
-/

namespace DistributedFileSystem.StorageLayer

open ByteString Posix

variable {σ : Type}

def Sees (process : Process σ) (path : Bytes) : Prop :=
  process.faults.next .access = .done ∧ (process.disk.lookup true path).isSome

/-- The listing of the directory comes to a regular file before `readdir` ends it. -/
def ShowsRegular (process : Process σ) (path : Bytes) : Prop :=
  process.faults.next .opendir = .done ∧ ∃ dir index name bytes,
    process.disk.resolve true path = some dir ∧ process.disk.node? dir = some .dir ∧
    (process.disk.listing dir)[index]? = some (name, .file bytes) ∧
    (process.faults.next .readdir).Transfers (index + 1)

/-- The file can be opened once the directories above it are made as far as `mkdir` makes
them, and takes all of the bytes. -/
structure Storable (process : Process σ) (path data : Bytes) : Prop where
  permitted : process.faults.next .fopen = .done
  opens : ((process.disk.mkdirs (process.faults .mkdir) (ancestors path)).openAppend path).isSome
  whole : (process.faults.next .fwrite).Transfers data.length

theorem fileExists_sees (path : Bytes) (process : Process σ) :
    ∃ existed, fileExists path process = some (existed, process.spend .access) ∧
      (existed = true ↔ Sees process path) := by
  refine ⟨(if process.faults.next .access = .done then process.disk.lookup true path
    else none).isSome, ?_, ?_⟩
  · rw [fileExists, access, bind_apply, attempt_stat]
    rfl
  · rw [Sees]
    split
    · rename_i permitted
      simp [permitted]
    · rename_i refused
      simp [refused]

theorem isRegularEntry_iff {disk : Disk} {dir : Location} {entry : Name × Node}
    (member : entry ∈ disk.listing dir) :
    isRegularEntry entry = true ↔ ∃ name bytes, entry = (name, .file bytes) := by
  obtain ⟨name, node⟩ := entry
  cases node with
  | dir => simp [isRegularEntry, isRegular]
  | symlink target => simp [isRegularEntry, isRegular]
  | file bytes =>
      simp only [Disk.listing, List.mem_cons, Prod.mk.injEq, reduceCtorEq, and_false, false_or,
        List.mem_filterMap, Option.map_eq_some_iff] at member
      obtain ⟨_, _, _, present, rfl, rfl⟩ := member
      have valid := Disk.name_valid (Option.isSome_of_eq_some present)
      simp [isRegularEntry, isRegular, valid.2.2.1, valid.2.2.2.1]

theorem directoryHasFiles_shows (path : Bytes) (process : Process σ) :
    ∃ has faults, directoryHasFiles path process = some (has, { process with faults := faults }) ∧
      (∀ call, call ≠ .opendir → call ≠ .readdir → faults call = process.faults call) ∧
      (has = true ↔ ShowsRegular process path) := by
  obtain ⟨opened, disk, ran, outcome⟩ :=
    attempt_cases .opendir (fun disk => disk.opendir path) process
  rw [directoryHasFiles, opendir, bind_of_some ran]
  rcases outcome with ⟨rfl, rfl, closed⟩ | ⟨dir, rfl, permitted, found⟩
  · refine ⟨false, process.faults.spend .opendir, rfl, ?_, ?_⟩
    · exact fun call other _ => Faults.spend_of_ne other
    · refine iff_of_false (by simp) ?_
      rintro ⟨permitted, dir, _, _, _, resolved, isDir, _⟩
      have refused := closed permitted
      simp [Disk.opendir, resolved, isDir] at refused
  · obtain ⟨resolved, isDir, rfl⟩ : process.disk.resolve true path = some dir ∧
        process.disk.node? dir = some .dir ∧ disk = process.disk := by
      rw [Disk.opendir] at found
      split at found
      · rename_i location resolved
        split at found
        · rename_i isDir
          obtain ⟨rfl, rfl⟩ := Prod.mk.inj (Option.some.inj found)
          exact ⟨resolved, isDir, rfl⟩
        · contradiction
      · contradiction
    obtain ⟨entries, read, shown⟩ := readdir_transfers dir (process.spend .opendir)
    refine ⟨entries.any isRegularEntry, (process.faults.spend .opendir).spend .readdir, ?_, ?_, ?_⟩
    · exact bind_of_some read
    · intro call notOpendir notReaddir
      rw [Faults.spend_of_ne notReaddir, Faults.spend_of_ne notOpendir]
    · rw [Process.spend_faults, Faults.next_of_eq (Faults.spend_of_ne (by simp)),
        Process.spend_disk] at shown
      rw [List.any_eq_true]
      constructor
      · rintro ⟨entry, member, regular⟩
        obtain ⟨index, listed, transfers⟩ := (shown entry).mp member
        obtain ⟨name, bytes, rfl⟩ :=
          (isRegularEntry_iff (List.mem_of_getElem? listed)).mp regular
        exact ⟨permitted, dir, index, name, bytes, resolved, isDir, listed, transfers⟩
      · rintro ⟨_, other, index, name, bytes, leads, _, listed, transfers⟩
        obtain rfl : dir = other := Option.some.inj (resolved.symm.trans leads)
        exact ⟨_, (shown _).mpr ⟨index, listed, transfers⟩,
          (isRegularEntry_iff (List.mem_of_getElem? listed)).mpr ⟨name, bytes, rfl⟩⟩

theorem mkdirEachSlash_mkdirs (seen path : Bytes) (process : Process σ) :
    ∃ faults, mkdirEachSlash seen path process = some ((), {
        process with
        disk := process.disk.mkdirs (process.faults .mkdir) (ancestorsFrom seen path)
        faults := faults }) ∧
      (∀ call, call ≠ .mkdir → faults call = process.faults call) ∧
      faults .mkdir = (process.faults .mkdir).drop (ancestorsFrom seen path).length := by
  induction path generalizing seen process with
  | nil =>
      rw [ancestorsFrom_nil]
      exact ⟨process.faults, rfl, fun _ _ => rfl, rfl⟩
  | cons byte rest ih =>
      rw [mkdirEachSlash, ancestorsFrom_cons]
      split
      · obtain ⟨code, ran⟩ := mkdir_mkdirs seen process
        obtain ⟨faults, finished, same, left⟩ := ih (seen ++ [byte]) {
          process.spend .mkdir with disk := process.disk.mkdirs (process.faults .mkdir) [seen] }
        have spent : process.faults.spend .mkdir .mkdir = (process.faults .mkdir).tail :=
          Function.update_self _ _ _
        simp only [Process.spend_faults, spent] at finished left
        refine ⟨faults, ?_, ?_, ?_⟩
        · rw [bind_of_some ran, Disk.mkdirs_append]
          simpa using finished
        · exact fun call other => (same call other).trans (Faults.spend_of_ne other)
        · simpa [List.drop_drop, Nat.add_comm] using left
      · exact ih (seen ++ [byte]) process

theorem last_separator {path : Bytes} (separated : slash ∈ path) :
    ∃ front last, path = front ++ slash :: last ∧ slash ∉ last := by
  obtain ⟨last, front, split, plain⟩ := List.eq_append_cons_of_mem (List.mem_reverse.mpr separated)
  refine ⟨front.reverse, last.reverse, ?_, by simpa using plain⟩
  rw [← List.reverse_reverse path, split]
  simp

theorem createDirectories_mkdirs {path : Bytes} (fits : path.length < pathSize)
    (process : Process σ) :
    ∃ faults, createDirectories path process = some (true, {
        process with
        disk := process.disk.mkdirs (process.faults .mkdir) (ancestors path)
        faults := faults }) ∧
      (∀ call, call ≠ .mkdir → faults call = process.faults call) := by
  rw [createDirectories, snprintf_of_fits fits]
  by_cases separated : slash ∈ path
  · obtain ⟨front, last, rfl, plain⟩ := last_separator separated
    have parent : ((front ++ slash :: last).rdropWhile (· ≠ slash)).dropLast = front := by
      rw [rdropWhile_separator front plain, List.dropLast_concat]
    obtain ⟨faults, finished, same, left⟩ := mkdirEachSlash_mkdirs [] front process
    obtain ⟨code, ran⟩ := mkdir_mkdirs front {
      process with
      disk := process.disk.mkdirs (process.faults .mkdir) (ancestorsFrom [] front)
      faults := faults }
    have made : (process.disk.mkdirs (process.faults .mkdir) (ancestorsFrom [] front)).mkdirs
        (faults .mkdir) [front] =
          process.disk.mkdirs (process.faults .mkdir) (ancestors (front ++ slash :: last)) := by
      rw [ancestors, ancestorsFrom_append _ _ plain, List.nil_append, left, Disk.mkdirs_append]
      by_cases empty : front = []
      · rw [if_pos empty, Disk.mkdirs_none (by simp [empty, Disk.mkdir, Disk.resolve])]
        rfl
      · rw [if_neg empty]
    refine ⟨faults.spend .mkdir, ?_, ?_⟩
    · rw [parent, if_neg (not_not_intro separated), bind_of_some finished, bind_of_some ran, made]
      rfl
    · exact fun call other => (Faults.spend_of_ne other).trans (same call other)
  · rw [if_pos separated, ancestors, ancestorsFrom_last [] separated]
    exact ⟨process.faults, rfl, fun _ _ => rfl⟩

theorem takesChunk_storable {path : Bytes} (fits : path.length < pathSize) (data : Bytes)
    (process : Process σ) :
    ∃ taken disk faults, takesChunk path data process =
        some (taken, { process with disk := disk, faults := faults }) ∧
      (∀ call, call ≠ .mkdir → call ≠ .fopen → call ≠ .fwrite →
        faults call = process.faults call) ∧
      (taken = true ↔ Storable process path data) := by
  obtain ⟨faults, created, same⟩ := createDirectories_mkdirs fits process
  obtain ⟨opened, disk, ran, outcome⟩ := attempt_cases .fopen (fun disk => disk.openAppend path)
    ({ process with
      disk := process.disk.mkdirs (process.faults .mkdir) (ancestors path)
      faults := faults } : Process σ)
  have fopens : faults.next .fopen = process.faults.next .fopen :=
    Faults.next_of_eq (same _ (by simp))
  have writes : (faults.spend .fopen).next .fwrite = process.faults.next .fwrite :=
    Faults.next_of_eq ((Faults.spend_of_ne (by simp)).trans (same _ (by simp)))
  rw [takesChunk, bind_of_some created]
  simp only [Bool.not_true, Bool.false_eq_true, if_false]
  rw [fopenAppend, bind_of_some ran]
  rcases outcome with ⟨rfl, rfl, closed⟩ | ⟨file, rfl, permitted, found⟩
  · refine ⟨false, _, faults.spend .fopen, rfl, ?_, iff_of_false (by simp) ?_⟩
    · intro call notMkdir notFopen _
      rw [Faults.spend_of_ne notFopen, same call notMkdir]
    · rintro ⟨permitted, opens, _⟩
      rw [closed (fopens.trans permitted)] at opens
      contradiction
  · refine ⟨_, _, (faults.spend .fopen).spend .fwrite, rfl, ?_, decide_eq_true_iff.trans ?_⟩
    · intro call notMkdir notFopen notFwrite
      rw [Faults.spend_of_ne notFwrite, Faults.spend_of_ne notFopen, same call notMkdir]
    · simp only [Process.spend_faults, writes, written_eq_iff]
      exact ⟨fun whole => ⟨fopens.symm.trans permitted, by simp [found], whole⟩,
        fun storable => storable.whole⟩

theorem Storable.iff_of_eq {process other : Process σ} {path data : Bytes}
    (disk : other.disk = process.disk) (mkdirs : other.faults .mkdir = process.faults .mkdir)
    (fopens : other.faults .fopen = process.faults .fopen)
    (writes : other.faults .fwrite = process.faults .fwrite) :
    Storable other path data ↔ Storable process path data := by
  constructor
  · rintro ⟨permitted, opens, whole⟩
    rw [Faults.next_of_eq fopens] at permitted
    rw [disk, mkdirs] at opens
    rw [Faults.next_of_eq writes] at whole
    exact ⟨permitted, opens, whole⟩
  · rintro ⟨permitted, opens, whole⟩
    rw [← Faults.next_of_eq fopens] at permitted
    rw [← disk, ← mkdirs] at opens
    rw [← Faults.next_of_eq writes] at whole
    exact ⟨permitted, opens, whole⟩

theorem chunkPath_length (filename : Bytes) (chunkId : Int32) :
    (chunkPath filename chunkId).length < pathSize := by
  rw [chunkPath, snprintf, List.length_take, pathSize]
  omega

section Save

variable {filename data : Bytes} {chunkId : Int32}

/-- The directory of the file is the last one on the way to its chunk, however the paths are cut. -/
theorem ancestors_chunkPath {front : Bytes} (above : front ∈ ancestors (chunkPath filename chunkId)) :
    front = directoryPath filename ∨ front ++ [slash] <+: directoryPath filename := by
  have path : ascii "data/" ++ filename ++ ascii "/" ++ decimal chunkId =
      ascii "data/" ++ filename ++ slash :: decimal chunkId := by
    simp [ascii, slash]
  have separated := (mem_ancestors.mp above).2
  rw [chunkPath, snprintf, path] at separated
  rw [directoryPath, snprintf]
  generalize ascii "data/" ++ filename = directory at separated
  have short := separated.length_le.trans (List.length_take_le _ _)
  have within := separated.trans (List.take_prefix _ _)
  rcases List.prefix_or_prefix_of_prefix within (List.prefix_append directory _) with above | ⟨rest, same⟩
  · exact Or.inr (List.prefix_take_iff.mpr ⟨above, short⟩)
  · rcases List.eq_nil_or_concat' rest with rfl | ⟨more, byte, rfl⟩
    · rw [List.append_nil] at same
      exact Or.inr (List.prefix_take_iff.mpr ⟨by rw [same], short⟩)
    · rw [← List.append_assoc] at same
      obtain ⟨rfl, ends⟩ := List.append_inj' same rfl
      obtain rfl : byte = slash := List.singleton_inj.mp ends
      rw [List.append_assoc, List.prefix_append_right_inj] at within
      cases more with
      | nil =>
          rw [List.append_nil] at short ⊢
          rw [List.length_append, List.length_singleton] at short
          exact Or.inl (List.take_of_length_le (by omega)).symm
      | cons first others =>
          rw [List.cons_append, List.cons_prefix_cons] at within
          have member : slash ∈ decimal chunkId := within.2.subset (by simp)
          exact absurd member (decimal_valid chunkId).2.1

/-- Where the directory shows a file no directory is missing, and the chunk is opened on the disk
as it is. -/
theorem ShowsRegular.storable_iff {process : Process σ}
    (shows : ShowsRegular process (directoryPath filename)) :
    Storable process (chunkPath filename chunkId) data ↔ process.faults.next .fopen = .done ∧
      (process.disk.openAppend (chunkPath filename chunkId)).isSome ∧
      (process.faults.next .fwrite).Transfers data.length := by
  obtain ⟨_, dir, _, _, _, resolved, isDir, _⟩ := shows
  have there : (process.disk.lookup true (directoryPath filename)).isSome := by
    simp [Disk.lookup, resolved, isDir]
  have same : process.disk.mkdirs (process.faults .mkdir) (ancestors (chunkPath filename chunkId)) =
      process.disk :=
    Disk.mkdirs_none fun front above => Disk.mkdir_front (ancestors_chunkPath above) there
  constructor
  · rintro ⟨permitted, opens, whole⟩
    rw [same] at opens
    exact ⟨permitted, opens, whole⟩
  · rintro ⟨permitted, opens, whole⟩
    rw [← same] at opens
    exact ⟨permitted, opens, whole⟩

/-- The save ends where `access` sees the chunk or the chunk cannot be stored, and is put in
the table where neither is so. -/
theorem saveChunkToFile_calls (nonempty : data ≠ []) (process : Process StorageStateOuter) :
    ∃ has disk faults, (has = true ↔ ShowsRegular process (directoryPath filename)) ∧
      (∀ call, call = .malloc ∨ call = .realloc → faults call = process.faults call) ∧
      (Sees process (chunkPath filename chunkId) ∧
          saveChunkToFile (some filename) (some data) chunkId process =
            some (true, { process with disk := disk, faults := faults }) ∨
        ¬Sees process (chunkPath filename chunkId) ∧
          ¬Storable process (chunkPath filename chunkId) data ∧
          saveChunkToFile (some filename) (some data) chunkId process =
            some (false, { process with disk := disk, faults := faults }) ∨
        ¬Sees process (chunkPath filename chunkId) ∧
          Storable process (chunkPath filename chunkId) data ∧
          saveChunkToFile (some filename) (some data) chunkId process =
            recordChunk filename chunkId has { process with disk := disk, faults := faults }) := by
  obtain ⟨existed, looks, sees⟩ := fileExists_sees (chunkPath filename chunkId) process
  obtain ⟨has, listed, looked, sameListed, shows⟩ :=
    directoryHasFiles_shows (directoryPath filename) (process.spend .access)
  obtain ⟨taken, disk, final, took, sameFinal, stores⟩ :=
    takesChunk_storable (chunkPath_length filename chunkId) data
      ({ process.spend .access with faults := listed } : Process StorageStateOuter)
  have kept : ∀ call, call ≠ .access → call ≠ .opendir → call ≠ .readdir →
      listed call = process.faults call := by
    intro call notAccess notOpendir notReaddir
    exact (sameListed call notOpendir notReaddir).trans (Faults.spend_of_ne notAccess)
  have shown : ShowsRegular (process.spend .access) (directoryPath filename) ↔
      ShowsRegular process (directoryPath filename) := by
    simp only [ShowsRegular, Process.spend_faults, Process.spend_disk,
      Faults.next_of_eq (Faults.spend_of_ne (show Call.opendir ≠ .access by simp)),
      Faults.next_of_eq (Faults.spend_of_ne (show Call.readdir ≠ .access by simp))]
  have storable : Storable ({ process.spend .access with faults := listed } : Process _)
        (chunkPath filename chunkId) data ↔
      Storable process (chunkPath filename chunkId) data :=
    Storable.iff_of_eq rfl (kept _ (by simp) (by simp) (by simp))
      (kept _ (by simp) (by simp) (by simp)) (kept _ (by simp) (by simp) (by simp))
  rw [shown] at shows
  rw [storable] at stores
  have spared : ∀ call, call = .malloc ∨ call = .realloc → listed call = process.faults call := by
    rintro call (rfl | rfl) <;> exact kept _ (by simp) (by simp) (by simp)
  rw [saveChunkToFile_eq chunkId nonempty, bind_of_some looks, bind_of_some looked]
  cases existed with
  | true => exact ⟨has, process.disk, listed, shows, spared, Or.inl ⟨sees.mp rfl, rfl⟩⟩
  | false =>
      have unseen : ¬Sees process (chunkPath filename chunkId) := fun seen => by simp [seen] at sees
      have left : ∀ call, call = .malloc ∨ call = .realloc → final call = process.faults call := by
        rintro call (rfl | rfl) <;>
          exact (sameFinal _ (by simp) (by simp) (by simp)).trans (spared _ (by simp))
      simp only [Bool.false_eq_true, if_false]
      rw [bind_of_some took]
      refine ⟨has, disk, final, shows, left, Or.inr ?_⟩
      cases taken with
      | false => exact Or.inl ⟨unseen, fun storable => by simp [storable] at stores, rfl⟩
      | true => exact Or.inr ⟨unseen, stores.mp rfl, rfl⟩

end Save

end DistributedFileSystem.StorageLayer
