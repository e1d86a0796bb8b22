import DistributedFileSystem.Library.Posix.Calls
import DistributedFileSystem.StorageLayer.DeleteFile

/-! The calls of `remove_directory` in their order, up to the first that fails. -/

namespace DistributedFileSystem.StorageLayer

open ByteString Posix

variable {σ : Type}

def entryCalls (directory : Bytes → Watched σ Unit) (filepath : Bytes) : Node → Watched σ Unit
  | .dir => directory filepath
  | _ => Watched.unlink filepath

def entriesCalls (directory : Bytes → Watched σ Unit) (path : Bytes) : List Name → Watched σ Unit
  | [] => return ()
  | name :: rest => do
      if name = dot ∨ name = dotdot then
        entriesCalls directory path rest
      else
        let filepath := snprintf filepathSize (path ++ ascii "/" ++ name)
        let node ← Watched.looking (lstat filepath)
        entryCalls directory filepath node
        entriesCalls directory path rest

def directoryCalls : Nat → Bytes → Watched σ Unit
  | 0, _ => Watched.fails
  | depth + 1, path => do
      let dir ← Watched.looking (opendir path)
      let entries ← Watched.reading (readdir dir)
      entriesCalls (directoryCalls depth) path (entries.map Prod.fst)
      Watched.rmdir path
      return ()

def Removed (passed : Option Unit) (code : Int) : Prop := code = status passed

/-- A call that returns -1 ends the removal. -/
theorem watches_or_return {first second : Watched σ Unit} {action rest : Sys σ Int}
    (watches : Watches first action Removed) (continues : Watches second rest Removed) :
    Watches (do first; second) (do if (← action) = -1 then return -1 else rest) Removed := by
  refine watches.bind ?_ ?_
  · rintro ⟨⟩ code rfl
    simpa [status] using continues
  · rintro code rfl
    exact ⟨-1, rfl, rfl⟩

theorem entriesCalls_watches {directory : Bytes → Watched σ Unit} {recurse : Bytes → Sys σ Int}
    (below : ∀ path, Watches (directory path) (recurse path) Removed) (path : Bytes)
    (entries : List Name) :
    Watches (entriesCalls directory path entries) (removeEntries recurse path entries) Removed := by
  induction entries with
  | nil => exact Watches.pure rfl
  | cons name rest ih =>
      rw [entriesCalls, removeEntries]
      split
      · exact ih
      · refine (Watches.lstat _).bind ?_ ?_
        · rintro node _ rfl
          cases node with
          | dir => exact watches_or_return (below _) ih
          | file _ => exact watches_or_return (Watches.unlink _) ih
          | symlink _ => exact watches_or_return (Watches.unlink _) ih
        · rintro _ rfl
          exact ⟨-1, rfl, rfl⟩

theorem directoryCalls_watches (depth : Nat) (path : Bytes) :
    Watches (directoryCalls depth path) (removeDirectory depth path : Sys σ Int) Removed := by
  induction depth generalizing path with
  | zero => exact Watches.fails rfl
  | succ depth ih =>
      rw [directoryCalls, removeDirectory]
      refine (Watches.opendir path).bind ?_ ?_
      · rintro dir _ rfl
        refine (Watches.readdir dir).bind ?_ ?_
        · rintro entries _ ⟨⟩
          exact watches_or_return (entriesCalls_watches ih path _)
            (watches_or_return (Watches.rmdir path) (Watches.pure rfl))
        · rintro _ ⟨⟩
      · rintro _ rfl
        exact ⟨-1, rfl, rfl⟩

def readNames (disk : Disk) (location : Location) : Outcome → List Name
  | .done => disk.children location
  | .refused => []
  | .short count => (disk.children location).take (count - 2)

theorem readNames_sublist (disk : Disk) (location : Location) (outcome : Outcome) :
    (readNames disk location outcome).Sublist (disk.children location) := by
  cases outcome with
  | done => exact List.Sublist.refl _
  | refused => exact List.nil_sublist _
  | short count => exact List.take_sublist _ _

section Flat

variable {names : List Name}

theorem entriesCalls_dots (directory : Bytes → Watched σ Unit) (path : Bytes) (rest : List Name) :
    entriesCalls directory path (dot :: dotdot :: rest) = entriesCalls directory path rest := by
  simp [entriesCalls]

theorem readdir_names (dir : Location) (process : Process σ) :
    ∃ entries, readdir dir process = some (entries, process.spend .readdir) ∧
      ∀ (directory : Bytes → Watched σ Unit) (path : Bytes),
        entriesCalls directory path (entries.map Prod.fst) = entriesCalls directory path
          (readNames process.disk dir (process.faults.next .readdir)) := by
  refine ⟨_, rfl, ?_⟩
  intro directory path
  cases process.faults.next .readdir with
  | done => rw [Disk.listing_names, entriesCalls_dots, readNames]
  | refused => rfl
  | short count =>
      simp only [readNames, List.map_take, Disk.listing_names]
      match count with
      | 0 => rfl
      | 1 => simp [entriesCalls]
      | count + 2 => simp [entriesCalls]

structure FlatCalls (process : Process σ) (location : Location) (entries : List Name)
    (calls : List CallResult) (ended : Option (Unit × Process σ)) : Prop where
  ends : ended.isSome ↔ process.faults.Passes .lstat entries.length ∧
    process.faults.Passes .unlink entries.length
  takes : (∃ one, .took one ∈ calls) ↔ entries ≠ [] ∧ process.faults.next .lstat = .done ∧
    process.faults.next .unlink = .done
  regular : ∀ one, .took one ∈ calls → process.disk.regular one = true
  leaves : ∀ next, ended = some ((), next) →
    Lost process.disk next.disk (entries.map (· :: location)) ∧
      next.faults .rmdir = process.faults .rmdir

theorem FlatCalls.stopped {process : Process σ} {location : Location} {name : Name}
    {rest : List Name} {calls : List CallResult}
    (refused : process.faults.next .lstat ≠ .done ∨ process.faults.next .unlink ≠ .done)
    (untaken : ∀ one, .took one ∉ calls) :
    FlatCalls process location (name :: rest) calls none := by
  refine ⟨?_, ?_, fun one taken => absurd taken (untaken one), by simp⟩
  · rw [List.length_cons, Faults.passes_succ, Faults.passes_succ]
    simp only [Option.isSome_none, Bool.false_eq_true, false_iff]
    tauto
  · refine iff_of_false (fun ⟨one, taken⟩ => untaken one taken) ?_
    tauto

theorem FlatCalls.went {process : Process σ} {location : Location} {name : Name}
    {rest : List Name} {calls : List CallResult} {ended : Option (Unit × Process σ)} {disk : Disk}
    (looks : process.faults.next .lstat = .done) (unlinks : process.faults.next .unlink = .done)
    (found : process.disk.regular (name :: location) = true)
    (erased : process.disk.erase (name :: location) = some disk)
    (flat : FlatCalls { (process.spend .lstat).spend .unlink with disk := disk } location rest
      calls ended) :
    FlatCalls process location (name :: rest) ([.kept, .took (name :: location)] ++ calls) ended := by
  have lost := Lost.of_erase erased
  have lstats : ((process.faults.spend .lstat).spend .unlink) .lstat =
      (process.faults.spend .lstat) .lstat := Faults.spend_of_ne (by simp)
  have unlinksLeft : ((process.faults.spend .lstat).spend .unlink) .unlink =
      (process.faults.spend .unlink) .unlink := by
    simp [Faults.spend]
  refine ⟨?_, ?_, ?_, ?_⟩
  · rw [flat.ends, List.length_cons, Faults.passes_succ, Faults.passes_succ]
    simp only [looks, unlinks, true_and]
    exact and_congr (Faults.passes_of_eq lstats) (Faults.passes_of_eq unlinksLeft)
  · simp [looks, unlinks]
  · intro one taken
    rcases List.mem_append.mp taken with here | later
    · obtain rfl : one = name :: location := by simpa using here
      exact found
    · obtain ⟨bytes, kept⟩ := Disk.regular_iff.mp (flat.regular one later)
      refine Disk.regular_iff.mpr ⟨bytes, ?_⟩
      exact (Pruned.of_erase erased).some_of_some kept
  · rintro next rfl
    obtain ⟨lostRest, unspent⟩ := flat.leaves next rfl
    refine ⟨lost.trans lostRest, unspent.trans ?_⟩
    simp [Faults.spend]

/-- Calls of other kinds before the entries are of no account. -/
theorem FlatCalls.before {process : Process σ} {location : Location} {entries : List Name}
    {calls : List CallResult} {ended : Option (Unit × Process σ)} {call : Call}
    (others : .lstat ≠ call ∧ .unlink ≠ call ∧ .rmdir ≠ call)
    (flat : FlatCalls (process.spend call) location entries calls ended) :
    FlatCalls process location entries calls ended := by
  have same : ∀ other, other ≠ call →
      (process.spend call).faults other = process.faults other :=
    fun _ different => Faults.spend_of_ne different
  obtain ⟨ends, takes, regular, leaves⟩ := flat
  rw [Faults.passes_of_eq (same _ others.1), Faults.passes_of_eq (same _ others.2.1)] at ends
  rw [Faults.next_of_eq (same _ others.1), Faults.next_of_eq (same _ others.2.1)] at takes
  refine ⟨ends, takes, regular, ?_⟩
  intro next finished
  exact ⟨(leaves next finished).1, (leaves next finished).2.trans (same _ others.2.2)⟩

theorem entry_run {process : Process σ} {name : Name} {bytes : Bytes}
    (located : DirectoryAt process.disk names)
    (found : process.disk.node? (name :: (names.reverse ++ process.disk.cwd)) = some (.file bytes))
    (directory : Bytes → Watched σ Unit) (rest : Watched σ Unit) :
    ((process.faults.next .lstat ≠ .done ∨ process.faults.next .unlink ≠ .done) ∧
      ∃ calls, (∀ one, .took one ∉ calls) ∧
        (do
          let node ← Watched.looking (lstat (joined (names ++ [name])))
          entryCalls directory (joined (names ++ [name])) node
          rest) process = (calls, none)) ∨
    process.faults.next .lstat = .done ∧ process.faults.next .unlink = .done ∧
      ∃ disk, process.disk.erase (name :: (names.reverse ++ process.disk.cwd)) = some disk ∧
        (do
          let node ← Watched.looking (lstat (joined (names ++ [name])))
          entryCalls directory (joined (names ++ [name])) node
          rest) process =
        ([.kept, .took (name :: (names.reverse ++ process.disk.cwd))] ++
            (rest { (process.spend .lstat).spend .unlink with disk := disk }).1,
          (rest { (process.spend .lstat).spend .unlink with disk := disk }).2) := by
  have spells := located.spells_child (by rw [found]; rfl)
  have looked := lstat_run process spells
  have erases := Disk.unlink_of_spells spells
  rw [found] at erases
  have unspent : (process.faults.spend .lstat).next .unlink = process.faults.next .unlink :=
    Faults.next_of_eq (Faults.spend_of_ne (by simp))
  have entry : entryCalls directory (joined (names ++ [name])) (.file bytes) =
    Watched.unlink (joined (names ++ [name])) := rfl
  by_cases looks : process.faults.next .lstat = .done
  · rw [if_pos looks, found] at looked
    rw [Watched.bind_of_some (Watched.looking_of_some looked), entry]
    by_cases unlinks : process.faults.next .unlink = .done
    · have empty := @Disk.children_of_not_dir process.disk _ (by rw [found]; simp)
      obtain ⟨disk, erased⟩ := Option.isSome_iff_exists.mp (Disk.erase_isSome empty)
      have unlinked : Watched.unlink _ (process.spend .lstat) = _ :=
        Watched.erasing_erased (unspent.trans unlinks) erases
          (spells.trans (if_pos located.dir)) erased
      refine Or.inr ⟨looks, unlinks, disk, erased, ?_⟩
      rw [Watched.bind_of_some unlinked]
      rfl
    · have stopped : Watched.unlink _ (process.spend .lstat) = _ :=
        Watched.erasing_failed erases (Or.inl fun permitted =>
          unlinks (unspent.symm.trans permitted))
      rw [Watched.bind_of_none stopped]
      exact Or.inl ⟨Or.inr unlinks, _, by simp, rfl⟩
  · rw [if_neg looks] at looked
    rw [Watched.bind_of_none (Watched.looking_of_none looked)]
    exact Or.inl ⟨Or.inl looks, _, by simp, rfl⟩

theorem entriesCalls_flat (directory : Bytes → Watched σ Unit) (entries : List Name)
    (process : Process σ) (located : DirectoryAt process.disk names) (nodup : entries.Nodup)
    (files : ∀ name ∈ entries, ∃ bytes,
      process.disk.node? (name :: (names.reverse ++ process.disk.cwd)) = some (.file bytes)) :
    ∃ calls ended, entriesCalls directory (joined names) entries process = (calls, ended) ∧
      FlatCalls process (names.reverse ++ process.disk.cwd) entries calls ended := by
  induction entries generalizing process with
  | nil =>
      refine ⟨[], _, rfl, ⟨by simp [Faults.passes_zero], by simp, by simp, ?_⟩⟩
      rintro next ⟨⟩
      exact ⟨Lost.refl _, rfl⟩
  | cons name rest ih =>
      obtain ⟨⟨bytes, found⟩, filesRest⟩ := List.forall_mem_cons.mp files
      obtain ⟨fresh, nodupRest⟩ := List.nodup_cons.mp nodup
      have present : (process.disk.node? (name :: (names.reverse ++ process.disk.cwd))).isSome := by
        simp [found]
      obtain ⟨_, _, notDot, notDotdot, _⟩ := Disk.name_valid present
      rw [entriesCalls, if_neg (not_or.mpr ⟨notDot, notDotdot⟩), located.filepath present]
      rcases entry_run located found directory (entriesCalls directory (joined names) rest) with
        ⟨refused, calls, untaken, ran⟩ | ⟨looks, unlinks, disk, erased, ran⟩
      · exact ⟨calls, none, ran, FlatCalls.stopped refused untaken⟩
      · have pruned := Pruned.of_erase erased
        have there := @DirectoryAt.of_entries _ _ names [name] located pruned
        obtain ⟨calls, ended, ranRest, flat⟩ :=
          ih { (process.spend .lstat).spend .unlink with disk := disk } there nodupRest (by
            intro other member
            have different : other ≠ name := fun same => fresh (same ▸ member)
            simp only [pruned.cwd]
            rw [node?_of_sibling pruned different]
            exact filesRest other member)
        simp only [pruned.cwd] at flat
        rw [ranRest] at ran
        exact ⟨_, _, ran, flat.went looks unlinks (Disk.regular_iff.mpr ⟨bytes, found⟩) erased⟩

theorem rmdir_flat {process : Process σ} (located : DirectoryAt process.disk names) :
    ∃ calls ended, (do Watched.rmdir (joined names); return ()) process = (calls, ended) ∧
      (ended.isSome ↔ process.faults.next .rmdir = .done ∧
        process.disk.children (names.reverse ++ process.disk.cwd) = []) ∧
      (ended = none → calls = [.failed]) := by
  obtain ⟨last, parent, here, member, ends, spells⟩ := located.spells false
  have dir := located.dir
  rw [here] at dir ⊢
  have trimmed := joined_trimmed located.nonempty fun name member =>
    (located.valid name member).component
  have erases := Disk.rmdir_of_spells spells (located.valid last member) trimmed ends
  rw [if_pos dir] at erases
  by_cases removable : process.faults.next .rmdir = .done ∧
      process.disk.children (last :: parent) = []
  · obtain ⟨disk, erased⟩ := Option.isSome_iff_exists.mp (Disk.erase_isSome removable.2)
    have resolved : process.disk.resolve false ((joined names).rdropWhile (· = slash)) =
        some (last :: parent) := by
      rw [trimmed]
      exact spells.trans (if_pos (Disk.parent_dir (by rw [dir]; rfl)))
    have ran : Watched.rmdir (joined names) process = _ :=
      Watched.erasing_erased removable.1 erases resolved erased
    exact ⟨_, _, Watched.bind_of_some ran, iff_of_true rfl removable, by simp [pure]⟩
  · have ran : Watched.rmdir (joined names) process = ([.failed], none) := by
      refine Watched.erasing_failed erases ?_
      rw [Disk.erase_eq_none_iff]
      tauto
    exact ⟨_, _, Watched.bind_of_none ran, iff_of_false (by simp) removable, fun _ => rfl⟩

theorem FlatCalls.thenRmdir {process start : Process σ} {entries : List Name}
    {action : Watched σ Unit} {calls : List CallResult} {ended : Option (Unit × Process σ)}
    (located : DirectoryAt process.disk names)
    (listed : entries.Sublist (process.disk.children (names.reverse ++ process.disk.cwd)))
    (flat : FlatCalls process (names.reverse ++ process.disk.cwd) entries calls ended)
    (ran : action start = (calls, ended)) :
    ∃ more final, (do action; Watched.rmdir (joined names); return ()) start =
        (calls ++ more, final) ∧
      (final.isSome ↔ entries = process.disk.children (names.reverse ++ process.disk.cwd) ∧
        process.faults.Passes .lstat entries.length ∧
        process.faults.Passes .unlink entries.length ∧ process.faults.next .rmdir = .done) ∧
      (final = none → ∀ one, .took one ∉ more) := by
  cases ended with
  | none =>
      refine ⟨[], none, by rw [Watched.bind_of_none ran, List.append_nil], ?_, by simp⟩
      refine iff_of_false (by simp) ?_
      rintro ⟨_, lstats, unlinks, _⟩
      simpa using flat.ends.mpr ⟨lstats, unlinks⟩
  | some pair =>
      obtain ⟨⟨⟩, next⟩ := pair
      obtain ⟨lost, unspent⟩ := flat.leaves next rfl
      obtain ⟨more, final, removed, removable, failure⟩ :=
        rmdir_flat (located.of_entries lost.pruned)
      rw [lost.cwd, lost.children_eq_nil_iff listed, Faults.next_of_eq unspent] at removable
      refine ⟨more, final, by rw [Watched.bind_of_some ran, removed], ?_, ?_⟩
      · rw [removable]
        have passed := flat.ends.mp rfl
        tauto
      · intro failed
        rw [failure failed]
        simp

def GoesThrough (disk : Disk) (location : Location) (faults : Faults) : Prop :=
  faults.next .opendir = .done ∧
    readNames disk location (faults.next .readdir) = disk.children location ∧
    faults.Passes .lstat (disk.children location).length ∧
    faults.Passes .unlink (disk.children location).length ∧ faults.next .rmdir = .done

def TakesFile (disk : Disk) (location : Location) (faults : Faults) : Prop :=
  faults.next .opendir = .done ∧ readNames disk location (faults.next .readdir) ≠ [] ∧
    faults.next .lstat = .done ∧ faults.next .unlink = .done

theorem directoryCalls_flat (depth : Nat) {process : Process σ}
    (located : DirectoryAt process.disk names)
    (files : ∀ name ∈ process.disk.children (names.reverse ++ process.disk.cwd), ∃ bytes,
      process.disk.node? (name :: (names.reverse ++ process.disk.cwd)) = some (.file bytes)) :
    ∃ calls ended, directoryCalls (depth + 1) (joined names) process = (calls, ended) ∧
      (ended.isSome ↔
        GoesThrough process.disk (names.reverse ++ process.disk.cwd) process.faults) ∧
      (ended = none →
        ((∃ one, .took one ∈ calls) ↔
          TakesFile process.disk (names.reverse ++ process.disk.cwd) process.faults) ∧
        ∀ one, .took one ∈ calls → process.disk.regular one = true) := by
  obtain ⟨last, parent, here, _, _, spells⟩ := located.spells true
  have opened := opendir_run process spells
  have dir := located.dir
  rw [here] at dir
  by_cases permitted : process.faults.next .opendir = .done
  · rw [if_pos ⟨permitted, dir⟩, ← here] at opened
    obtain ⟨entries, read, same⟩ :=
      readdir_names (names.reverse ++ process.disk.cwd) (process.spend .opendir)
    have outcome : (process.faults.spend .opendir).next .readdir = process.faults.next .readdir :=
      Faults.next_of_eq (Faults.spend_of_ne (by simp))
    rw [Process.spend_disk, Process.spend_faults, outcome] at same
    have reading : Watched.reading (readdir (names.reverse ++ process.disk.cwd))
        (process.spend .opendir) =
          ([.kept], some (entries, (process.spend .opendir).spend .readdir)) := by
      simp [Watched.reading, read]
    have listed := readNames_sublist process.disk (names.reverse ++ process.disk.cwd)
      (process.faults.next .readdir)
    obtain ⟨calls, ended, ran, later⟩ := entriesCalls_flat (directoryCalls depth) _
      ((process.spend .opendir).spend .readdir) located
      ((process.disk.children_nodup _).sublist listed)
      fun name member => files name (listed.subset member)
    have flat := (later.before (by simp)).before (by simp)
    obtain ⟨more, final, finished, through, untaken⟩ := flat.thenRmdir located listed ran
    rw [directoryCalls, Watched.bind_of_some (Watched.looking_of_some opened),
      Watched.bind_of_some reading, same, finished]
    refine ⟨_, final, rfl, ?_, ?_⟩
    · rw [through, GoesThrough]
      constructor
      · rintro ⟨whole, passes⟩
        rw [whole] at passes
        exact ⟨permitted, whole, passes⟩
      · rintro ⟨_, whole, passes⟩
        rw [whole]
        exact ⟨rfl, passes⟩
    · intro failed
      have nothing := untaken failed
      refine ⟨?_, ?_⟩
      · simpa [TakesFile, permitted, nothing] using flat.takes
      · simpa [nothing] using flat.regular
  · rw [if_neg fun both => permitted both.1] at opened
    rw [directoryCalls, Watched.bind_of_none (Watched.looking_of_none opened)]
    refine ⟨_, none, rfl, iff_of_false (by simp) fun through => permitted through.1, fun _ => ⟨?_, by simp⟩⟩
    exact iff_of_false (by simp) fun takes => permitted takes.1

end Flat

theorem not_takesFile_of_missing {disk : Disk} {location : Location}
    (missing : disk.node? location = none) (faults : Faults) : ¬TakesFile disk location faults := by
  rintro ⟨_, read, _⟩
  apply read
  apply List.eq_nil_of_sublist_nil
  have none := @Disk.children_of_not_dir disk location (by rw [missing]; simp)
  rw [← none]
  exact readNames_sublist _ _ _

end DistributedFileSystem.StorageLayer
