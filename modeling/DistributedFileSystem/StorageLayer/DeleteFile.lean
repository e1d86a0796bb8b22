import DistributedFileSystem.Library.Posix.Change
import DistributedFileSystem.StorageLayer.FileOperation

/-! Removing a file and its chunks (`httpServer/deleteFile.c`). -/

namespace DistributedFileSystem.StorageLayer

open ByteString Posix

def filepathSize : Nat := 1024

/-- Every level of the recursion keeps its directory open, so past the limit on
open descriptors `opendir` is refused. -/
def descriptorLimit : Nat := 1024

def removeEntries {σ : Type} (removeDirectory : Bytes → Sys σ Int) (path : Bytes) :
    List Name → Sys σ Int
  | [] => return 0
  | name :: rest => do
      if name = dot ∨ name = dotdot then
        removeEntries removeDirectory path rest
      else
        let filepath := snprintf filepathSize (path ++ ascii "/" ++ name)
        match ← lstat filepath with
        | none => return -1
        | some .dir =>
            if (← removeDirectory filepath) = -1 then
              return -1
            removeEntries removeDirectory path rest
        | some _ =>
            if (← unlink filepath) = -1 then
              return -1
            removeEntries removeDirectory path rest

def removeDirectory {σ : Type} : Nat → Bytes → Sys σ Int
  | 0, _ => return -1
  | depth + 1, path => do
      match ← opendir path with
      | none => return -1
      | some dir =>
          let entries ← readdir dir
          if (← removeEntries (removeDirectory depth) path (entries.map Prod.fst)) = -1 then
            return -1
          if (← rmdir path) = -1 then
            return -1
          return 0

def removeDirectoryIn {σ : Type} (order : Location → List (Name × Node) → List (Name × Node)) :
    Nat → Bytes → Sys σ Int
  | 0, _ => return -1
  | depth + 1, path => do
      match ← opendir path with
      | none => return -1
      | some dir =>
          let entries := order dir (← readdir dir)
          if (← removeEntries (removeDirectoryIn order depth) path (entries.map Prod.fst)) = -1 then
            return -1
          if (← rmdir path) = -1 then
            return -1
          return 0

theorem removeDirectoryIn_listed {σ : Type} (depth : Nat) :
    (removeDirectoryIn (fun _ entries => entries) depth : Bytes → Sys σ Int) =
      removeDirectory depth := by
  induction depth with
  | zero => rfl
  | succ depth ih =>
      funext path
      rw [removeDirectoryIn, removeDirectory, ih]

def deleteFile (filename : Bytes) : Sys StorageStateOuter Bool := do
  let delResult ← removeDirectory descriptorLimit (directoryPath filename)
  if delResult ≠ 0 then
    return false
  modify fun process => { process with memory := removeFromStruct process.memory filename }
  return true

structure DirectoryAt (disk : Disk) (names : List Name) : Prop where
  nonempty : names ≠ []
  valid : ∀ name ∈ names, ValidName name
  dir : disk.node? (names.reverse ++ disk.cwd) = some .dir
  fits : ∀ more, (disk.node? (more ++ (names.reverse ++ disk.cwd))).isSome →
    (joined (names ++ more.reverse)).length < filepathSize

def Shallower (disk : Disk) (depth : Nat) (location : Location) : Prop :=
  ∀ more, (disk.node? (more ++ location)).isSome → more.length < depth

def CleanRemoval (faults : Faults) : Prop :=
  faults.Clean .opendir ∧ faults.Clean .readdir ∧ faults.Clean .lstat ∧ faults.Clean .unlink ∧
    faults.Clean .rmdir

/-- What removing the nodes under `tops` may do: it ends, keeps the memory, takes
nothing else away and on success leaves nothing at the tops. -/
def Removes {σ : Type} (action : Sys σ Int) (process : Process σ) (tops : List Location)
    (enough : Prop) : Prop :=
  ∃ result disk faults, action process =
      some (result, { process with disk := disk, faults := faults }) ∧
    Pruned process.disk disk tops ∧ (∀ call, process.faults.Clean call → faults.Clean call) ∧
    (result = 0 ∨ result = -1) ∧ (result = 0 → ∀ top ∈ tops, disk.node? top = none) ∧
    (CleanRemoval process.faults → enough → result = 0)

variable {σ : Type}

theorem CleanRemoval.keep {first second : Faults} (clean : CleanRemoval first)
    (keeps : ∀ call, first.Clean call → second.Clean call) : CleanRemoval second := by
  obtain ⟨opendir, readdir, lstat, unlink, rmdir⟩ := clean
  exact ⟨keeps _ opendir, keeps _ readdir, keeps _ lstat, keeps _ unlink, keeps _ rmdir⟩

theorem shallower_of_pruned {before after : Disk} {tops : List Location} {depth : Nat}
    {location : Location} (pruned : Pruned before after tops)
    (shallow : Shallower before depth location) : Shallower after depth location := by
  intro more present
  apply shallow more
  obtain ⟨node, found⟩ := Option.isSome_iff_exists.mp present
  rw [pruned.some_of_some found]
  rfl

theorem DirectoryAt.of_pruned {before after : Disk} {tops : List Location} {names : List Name}
    (located : DirectoryAt before names) (pruned : Pruned before after tops)
    (away : ∀ top ∈ tops, ¬top <:+ names.reverse ++ before.cwd) : DirectoryAt after names := by
  refine ⟨located.nonempty, located.valid, ?_, ?_⟩
  · rw [pruned.cwd, pruned.outside away]
    exact located.dir
  · intro more present
    apply located.fits more
    obtain ⟨node, found⟩ := Option.isSome_iff_exists.mp present
    rw [pruned.cwd] at found
    rw [pruned.some_of_some found]
    rfl

/-- Paths that fit the buffer do not go deeper than 512 levels. -/
theorem DirectoryAt.shallower {disk : Disk} {names : List Name} (located : DirectoryAt disk names)
    {depth : Nat} (deep : 512 ≤ depth) :
    Shallower disk depth (names.reverse ++ disk.cwd) := by
  intro more present
  have fits := located.fits more present
  have spelled : ∀ name ∈ names ++ more.reverse, name ≠ [] := by
    intro name member
    rcases List.mem_append.mp member with above | below
    · exact (located.valid name above).1
    · exact (Disk.names_valid present name (List.mem_reverse.mp below)).1
  have bound := two_length_le_joined spelled
  have levels := List.length_pos_iff.mpr located.nonempty
  rw [List.length_append, List.length_reverse] at bound
  simp only [filepathSize] at fits
  omega

theorem DirectoryAt.child {disk : Disk} {names : List Name} {name : Name}
    (located : DirectoryAt disk names)
    (dir : disk.node? (name :: (names.reverse ++ disk.cwd)) = some .dir) :
    DirectoryAt disk (names ++ [name]) := by
  have nameValid : ValidName name := Disk.name_valid (by rw [dir]; rfl)
  refine ⟨by simp, ?_, by simpa using dir, ?_⟩
  · intro other member
    rcases List.mem_append.mp member with old | new
    · exact located.valid other old
    · rw [List.mem_singleton.mp new]
      exact nameValid
  · intro more present
    have fits := located.fits (more ++ [name]) (by simpa using present)
    simpa using fits

theorem DirectoryAt.filepath {disk : Disk} {names : List Name} {name : Name}
    (located : DirectoryAt disk names)
    (present : (disk.node? (name :: (names.reverse ++ disk.cwd))).isSome) :
    snprintf filepathSize (joined names ++ ascii "/" ++ name) = joined (names ++ [name]) := by
  have fits := located.fits [name] (by simpa using present)
  have spelled : joined names ++ ascii "/" ++ name = joined (names ++ [name]) := by
    rw [joined_concat name located.nonempty]
    simp [ascii, slash]
  rw [spelled, snprintf_of_fits (by simpa using fits)]

theorem DirectoryAt.spells_child {disk : Disk} {names : List Name} {name : Name}
    (located : DirectoryAt disk names)
    (present : (disk.node? (name :: (names.reverse ++ disk.cwd))).isSome) :
    disk.Spells false (joined (names ++ [name])) name (names.reverse ++ disk.cwd) := by
  apply Disk.spells_joined _ located.dir (fun _ _ => rfl)
  intro other member
  rcases List.mem_append.mp member with old | new
  · exact located.valid other old
  · rw [List.mem_singleton.mp new]
    exact Disk.name_valid present

theorem DirectoryAt.spells {disk : Disk} {names : List Name} (located : DirectoryAt disk names)
    (follow : Bool) :
    ∃ last parent, names.reverse ++ disk.cwd = last :: parent ∧ last ∈ names ∧
      (components (joined names)).getLast? = some last ∧
      disk.Spells follow (joined names) last parent := by
  obtain ⟨front, last, rfl⟩ := (List.eq_nil_or_concat' names).resolve_left located.nonempty
  have here : (front ++ [last]).reverse ++ disk.cwd = last :: (front.reverse ++ disk.cwd) := by simp
  have dir := located.dir
  rw [here] at dir
  refine ⟨last, front.reverse ++ disk.cwd, here, by simp,
    components_last fun name member => (located.valid name member).component, ?_⟩
  apply Disk.spells_joined located.valid (Disk.parent_dir (by rw [dir]; rfl))
  intro target found
  simp [dir] at found

theorem Removes.andThen {first second : Sys σ Int} {process : Process σ}
    {early late : List Location} {enoughFirst enough : Prop}
    (removed : Removes first process early enoughFirst) (needs : enough → enoughFirst)
    (continues : ∀ disk faults, Pruned process.disk disk early →
      (∀ call, process.faults.Clean call → faults.Clean call) →
      (∀ top ∈ early, disk.node? top = none) →
      Removes second { process with disk := disk, faults := faults } late enough) :
    Removes (do if (← first) = -1 then return -1 else second) process (early ++ late) enough := by
  obtain ⟨result, disk, faults, ran, pruned, keeps, codes, gone, succeeds⟩ := removed
  rcases codes with rfl | rfl
  · obtain ⟨final, last, left, ranLater, prunedLater, keepsLater, codesLater, goneLater,
      succeedsLater⟩ := continues disk faults pruned keeps (gone rfl)
    refine ⟨final, last, left, ?_, ?_, fun call clean => keepsLater call (keeps call clean),
      codesLater, ?_, ?_⟩
    · rw [bind_of_some ran]
      simpa using ranLater
    · exact (pruned.widen fun top member => ⟨top, by simp [member], List.suffix_refl top⟩).trans
        (prunedLater.widen fun top member => ⟨top, by simp [member], List.suffix_refl top⟩)
    · intro finished top member
      rcases List.mem_append.mp member with inEarly | inLate
      · exact prunedLater.none_of_none (gone rfl top inEarly)
      · exact goneLater finished top inLate
    · exact fun clean holds => succeedsLater (clean.keep keeps) holds
  · refine ⟨-1, disk, faults, ?_, ?_, keeps, Or.inr rfl, by simp, ?_⟩
    · rw [bind_of_some ran]
      rfl
    · exact pruned.widen fun top member => ⟨top, by simp [member], List.suffix_refl top⟩
    · intro clean holds
      simpa using succeeds clean (needs holds)

theorem attemptErase_removes (call : Call) (effect : Disk → Option (Unit × Disk))
    (location : Location) (process : Process σ)
    (erases : effect process.disk = (process.disk.erase location).map fun next => ((), next))
    (cleans : CleanRemoval process.faults → process.faults.Clean call)
    (notRoot : location ≠ []) :
    Removes (do return status (← attempt call effect)) process [location]
      (process.disk.children location = []) := by
  obtain ⟨result, disk, ran, cases⟩ := attempt_cases call effect process
  refine ⟨status result, disk, process.faults.spend call, by rw [bind_of_some ran]; rfl, ?_⟩
  rcases cases with ⟨rfl, rfl, refused⟩ | ⟨_, rfl, _, effected⟩
  · refine ⟨Pruned.refl _ _, fun _ clean => clean.spend call, Or.inr rfl, by simp [status], ?_⟩
    intro clean empty
    have absent := refused (cleans clean).next
    obtain ⟨name, parent, rfl⟩ := List.exists_cons_of_ne_nil notRoot
    have erasable := Disk.erase_isSome empty
    rw [erases, Option.map_eq_none_iff] at absent
    simp [absent] at erasable
  · rw [erases] at effected
    obtain ⟨next, erased, same⟩ := Option.map_eq_some_iff.mp effected
    obtain rfl : next = disk := (Prod.mk.inj same).2
    refine ⟨Pruned.of_erase erased, fun _ clean => clean.spend call, Or.inl rfl, ?_, fun _ _ => rfl⟩
    intro _ top member
    rw [List.mem_singleton.mp member, (Disk.erase_some erased).2.2, if_pos rfl]

theorem unlink_removes {names : List Name} {name : Name} {node : Node} (process : Process σ)
    (located : DirectoryAt process.disk names)
    (found : process.disk.node? (name :: (names.reverse ++ process.disk.cwd)) = some node)
    (notDir : node ≠ .dir) :
    Removes (unlink (joined (names ++ [name]))) process
      [name :: (names.reverse ++ process.disk.cwd)] True := by
  have empty := @Disk.children_of_not_dir process.disk
    (name :: (names.reverse ++ process.disk.cwd)) (by simp [found, notDir])
  obtain ⟨result, disk, faults, ran, pruned, keeps, codes, gone, succeeds⟩ :=
    attemptErase_removes .unlink (fun disk => disk.unlink (joined (names ++ [name])))
      (name :: (names.reverse ++ process.disk.cwd)) process (by
        rw [Disk.unlink_of_spells (located.spells_child (by rw [found]; rfl)), found]
        cases node <;> simp_all)
      (fun clean => clean.2.2.2.1) (by simp)
  exact ⟨result, disk, faults, ran, pruned, keeps, codes, gone, fun clean _ => succeeds clean empty⟩

theorem rmdir_removes {names : List Name} (process : Process σ)
    (located : DirectoryAt process.disk names) :
    Removes (rmdir (joined names)) process [names.reverse ++ process.disk.cwd]
      (process.disk.children (names.reverse ++ process.disk.cwd) = []) := by
  obtain ⟨last, parent, here, member, ends, spells⟩ := located.spells false
  have dir := located.dir
  rw [here] at dir ⊢
  apply attemptErase_removes .rmdir (fun disk => disk.rmdir (joined names)) _ process
  · rw [Disk.rmdir_of_spells spells (located.valid last member)
      (joined_trimmed located.nonempty fun name member => (located.valid name member).component) ends, if_pos dir]
  · exact fun clean => clean.2.2.2.2
  · simp

theorem Removes.spend {α : Type} {first : Sys σ α} {rest : α → Sys σ Int} {process : Process σ}
    {call : Call} {value : α} {tops : List Location} {enoughLater enough : Prop}
    (ran : first process = some (value, process.spend call))
    (later : Removes (rest value) (process.spend call) tops enoughLater)
    (needs : CleanRemoval process.faults → enough → enoughLater) :
    Removes (first >>= rest) process tops enough := by
  obtain ⟨result, disk, faults, finished, pruned, keeps, codes, gone, succeeds⟩ := later
  refine ⟨result, disk, faults, by rw [bind_of_some ran, finished]; rfl, pruned,
    fun other clean => keeps other (clean.spend call), codes, gone, ?_⟩
  exact fun clean holds => succeeds (clean.keep fun _ one => one.spend call) (needs clean holds)

theorem Removes.refused {α : Type} {first : Sys σ α} {rest : α → Sys σ Int}
    {process : Process σ} {call : Call} {value : α} {tops : List Location} {enough : Prop}
    (ran : first process = some (value, process.spend call)) (fails : rest value = pure (-1))
    (unclean : ¬CleanRemoval process.faults) : Removes (first >>= rest) process tops enough := by
  refine ⟨-1, process.disk, process.faults.spend call, ?_, Pruned.refl _ _,
    fun _ clean => clean.spend call, Or.inr rfl, by simp, fun clean => absurd clean unclean⟩
  rw [bind_of_some ran, fails]
  rfl

theorem lstat_run {path : Bytes} {last : Name} {parent : Location} (process : Process σ)
    (spells : process.disk.Spells false path last parent) :
    lstat path process =
      some (if process.faults.next .lstat = .done then process.disk.node? (last :: parent) else none,
        process.spend .lstat) := by
  rw [lstat, attempt_stat, Disk.lookup_of_spells spells]

theorem sibling_away {name other : Name} {location : Location} (different : other ≠ name) :
    ¬name :: location <:+ other :: location := by
  intro suffix
  have same := suffix.eq_of_length (by simp)
  exact different (List.cons.inj same).1.symm

theorem below_away {name : Name} {location : Location} : ¬name :: location <:+ location := by
  intro suffix
  have shorter := suffix.length_le
  simp at shorter

theorem DirectoryAt.of_entries {before after : Disk} {names entries : List Name}
    (located : DirectoryAt before names)
    (pruned : Pruned before after (entries.map (· :: (names.reverse ++ before.cwd)))) :
    DirectoryAt after names := by
  refine located.of_pruned pruned ?_
  intro top member
  obtain ⟨name, _, rfl⟩ := List.mem_map.mp member
  exact below_away

theorem node?_of_sibling {before after : Disk} {name other : Name} {location : Location}
    (pruned : Pruned before after [name :: location]) (different : other ≠ name) :
    after.node? (other :: location) = before.node? (other :: location) := by
  apply pruned.outside
  intro top member
  rw [List.mem_singleton.mp member]
  exact sibling_away different

theorem entry_removes {depth : Nat} {names : List Name} (recurse : Bytes → Sys σ Int)
    (child : ∀ (process : Process σ) (name : Name), DirectoryAt process.disk (names ++ [name]) →
      Removes (recurse (joined (names ++ [name]))) process
        [name :: (names.reverse ++ process.disk.cwd)]
        (Shallower process.disk depth (name :: (names.reverse ++ process.disk.cwd))))
    {name : Name} {rest : List Name} {process : Process σ} {late : List Location}
    (located : DirectoryAt process.disk names)
    (present : (process.disk.node? (name :: (names.reverse ++ process.disk.cwd))).isSome)
    (continues : ∀ disk faults,
      Pruned process.disk disk [name :: (names.reverse ++ process.disk.cwd)] →
      Removes (removeEntries recurse (joined names) rest)
        { process with disk := disk, faults := faults } late
        (Shallower process.disk (depth + 1) (names.reverse ++ process.disk.cwd))) :
    Removes (removeEntries recurse (joined names) (name :: rest)) process
      ([name :: (names.reverse ++ process.disk.cwd)] ++ late)
      (Shallower process.disk (depth + 1) (names.reverse ++ process.disk.cwd)) := by
  obtain ⟨_, _, notDot, notDotdot, _⟩ := Disk.name_valid present
  simp only [removeEntries, notDot, notDotdot, or_self, if_false, located.filepath present]
  have looked := lstat_run process (located.spells_child present)
  by_cases permitted : process.faults.next .lstat = .done
  · rw [if_pos permitted] at looked
    obtain ⟨node, found⟩ := Option.isSome_iff_exists.mp present
    rw [found] at looked
    refine Removes.spend looked ?_ fun _ holds => holds
    cases node with
    | dir =>
        have removed := child (process.spend .lstat) name (located.child found)
        refine removed.andThen ?_ fun disk faults pruned _ _ => continues disk faults pruned
        intro shallow more existing
        have bound := shallow (more ++ [name]) (by simpa using existing)
        simpa using bound
    | file bytes =>
        have removed := unlink_removes (process.spend .lstat) located found (by simp)
        exact removed.andThen (fun _ => trivial)
          fun disk faults pruned _ _ => continues disk faults pruned
    | symlink target =>
        have removed := unlink_removes (process.spend .lstat) located found (by simp)
        exact removed.andThen (fun _ => trivial)
          fun disk faults pruned _ _ => continues disk faults pruned
  · rw [if_neg permitted] at looked
    exact Removes.refused looked rfl fun clean => permitted clean.2.2.1.next

theorem removeEntries_removes {depth : Nat} {names : List Name} (recurse : Bytes → Sys σ Int)
    (child : ∀ (process : Process σ) (name : Name), DirectoryAt process.disk (names ++ [name]) →
      Removes (recurse (joined (names ++ [name]))) process
        [name :: (names.reverse ++ process.disk.cwd)]
        (Shallower process.disk depth (name :: (names.reverse ++ process.disk.cwd))))
    (entries : List Name) (process : Process σ) (located : DirectoryAt process.disk names)
    (nodup : entries.Nodup)
    (listed : ∀ name ∈ entries, name = dot ∨ name = dotdot ∨
      (process.disk.node? (name :: (names.reverse ++ process.disk.cwd))).isSome) :
    Removes (removeEntries recurse (joined names) entries) process
      ((entries.filter fun name => name ≠ dot && name ≠ dotdot).map
        (· :: (names.reverse ++ process.disk.cwd)))
      (Shallower process.disk (depth + 1) (names.reverse ++ process.disk.cwd)) := by
  -- each entry goes in its turn, and those still to come are not touched by it
  induction entries generalizing process with
  | nil =>
      exact ⟨0, process.disk, process.faults, rfl, Pruned.refl _ _, fun _ clean => clean,
        Or.inl rfl, by simp, fun _ _ => rfl⟩
  | cons name rest ih =>
      have restNodup := (List.nodup_cons.mp nodup).2
      by_cases fixed : name = dot ∨ name = dotdot
      · have tail := ih process located restNodup
          fun other member => listed other (by simp [member])
        have skipped : ((name :: rest).filter fun name => name ≠ dot && name ≠ dotdot) =
            rest.filter fun name => name ≠ dot && name ≠ dotdot := by
          rcases fixed with rfl | rfl <;> simp
        rw [skipped]
        simpa only [removeEntries, fixed, if_true] using tail
      · have present : (process.disk.node? (name :: (names.reverse ++ process.disk.cwd))).isSome := by
          have info := listed name (by simp)
          tauto
        have kept : ((name :: rest).filter fun name => name ≠ dot && name ≠ dotdot) =
            [name] ++ rest.filter fun name => name ≠ dot && name ≠ dotdot := by
          rw [not_or] at fixed
          simp [fixed]
        rw [kept, List.map_append]
        refine entry_removes recurse child located present ?_
        intro disk faults pruned
        have there := @DirectoryAt.of_entries _ _ names [name] located pruned
        have tail := ih { process with disk := disk, faults := faults } there restNodup (by
          intro other member
          have different : other ≠ name := fun same =>
            (List.nodup_cons.mp nodup).1 (same ▸ member)
          simp only [pruned.cwd]
          rw [node?_of_sibling pruned different]
          exact listed other (by simp [member]))
        simp only [pruned.cwd] at tail
        obtain ⟨result, final, left, ran, prunedLater, keeps, codes, gone, succeeds⟩ := tail
        exact ⟨result, final, left, ran, prunedLater, keeps, codes, gone, fun clean shallow =>
          succeeds clean (shallower_of_pruned pruned shallow)⟩

theorem Removes.narrow {action : Sys σ Int} {process : Process σ} {tops fewer : List Location}
    {enough : Prop} (removed : Removes action process tops enough) (subset : fewer ⊆ tops)
    (covered : ∀ top ∈ tops, ∃ other ∈ fewer, other <:+ top) :
    Removes action process fewer enough := by
  obtain ⟨result, disk, faults, ran, pruned, keeps, codes, gone, succeeds⟩ := removed
  exact ⟨result, disk, faults, ran, pruned.widen covered, keeps, codes,
    fun finished top member => gone finished top (subset member), succeeds⟩

theorem children_of_gone {before after : Disk} {entries : List Name} {dir : Location}
    (pruned : Pruned before after
      ((entries.filter fun name => name ≠ dot && name ≠ dotdot).map (· :: dir)))
    (gone : ∀ top ∈ (entries.filter fun name => name ≠ dot && name ≠ dotdot).map (· :: dir),
      after.node? top = none)
    (covers : before.children dir ⊆ entries) : after.children dir = [] := by
  rw [List.eq_nil_iff_forall_not_mem]
  intro name member
  have present := Disk.mem_children.mp member
  obtain ⟨_, _, notDot, notDotdot, _⟩ := Disk.name_valid present
  obtain ⟨node, found⟩ := Option.isSome_iff_exists.mp present
  have listed := covers (Disk.mem_children.mpr (by rw [pruned.some_of_some found]; rfl))
  have absent := gone (name :: dir)
    (List.mem_map_of_mem (List.mem_filter.mpr ⟨listed, by simp [notDot, notDotdot]⟩))
  rw [found] at absent
  simp at absent

theorem removeListed_removes {depth : Nat} {names : List Name} (recurse : Bytes → Sys σ Int)
    (child : ∀ (process : Process σ) (name : Name), DirectoryAt process.disk (names ++ [name]) →
      Removes (recurse (joined (names ++ [name]))) process
        [name :: (names.reverse ++ process.disk.cwd)]
        (Shallower process.disk depth (name :: (names.reverse ++ process.disk.cwd))))
    (entries : List Name) (process : Process σ) (located : DirectoryAt process.disk names)
    (subset : entries ⊆ dot :: dotdot :: process.disk.children (names.reverse ++ process.disk.cwd))
    (nodup : entries.Nodup) :
    Removes (do
        if (← removeEntries recurse (joined names) entries) = -1 then
          return -1
        if (← rmdir (joined names)) = -1 then
          return -1
        return 0) process [names.reverse ++ process.disk.cwd]
      (Shallower process.disk (depth + 1) (names.reverse ++ process.disk.cwd) ∧
        process.disk.children (names.reverse ++ process.disk.cwd) ⊆ entries) := by
  have listed : ∀ name ∈ entries, name = dot ∨ name = dotdot ∨
      (process.disk.node? (name :: (names.reverse ++ process.disk.cwd))).isSome := by
    intro name member
    have found := subset member
    simpa [Disk.mem_children] using found
  have emptied := removeEntries_removes recurse child entries process located nodup listed
  have continues : ∀ disk faults, Pruned process.disk disk
        ((entries.filter fun name => name ≠ dot && name ≠ dotdot).map
          (· :: (names.reverse ++ process.disk.cwd))) →
      (∀ call, process.faults.Clean call → faults.Clean call) →
      (∀ top ∈ (entries.filter fun name => name ≠ dot && name ≠ dotdot).map
        (· :: (names.reverse ++ process.disk.cwd)), disk.node? top = none) →
      Removes (do
          if (← rmdir (joined names)) = -1 then
            return -1
          return 0) { process with disk := disk, faults := faults }
        ([names.reverse ++ process.disk.cwd] ++ [])
        (Shallower process.disk (depth + 1) (names.reverse ++ process.disk.cwd) ∧
          process.disk.children (names.reverse ++ process.disk.cwd) ⊆ entries) := by
    intro disk faults pruned _ gone
    have there := located.of_entries pruned
    have removed := rmdir_removes { process with disk := disk, faults := faults } there
    simp only [pruned.cwd] at removed
    refine removed.andThen (fun covers => children_of_gone pruned gone covers.2) ?_
    · intro last left _ _ _
      exact ⟨0, last, left, rfl, Pruned.refl _ _, fun _ clean => clean, Or.inl rfl, by simp,
        fun _ _ => rfl⟩
  refine (emptied.andThen And.left continues).narrow (by simp) ?_
  intro top member
  refine ⟨names.reverse ++ process.disk.cwd, by simp, ?_⟩
  simp only [List.append_nil, List.mem_append, List.mem_map, List.mem_singleton] at member
  rcases member with ⟨name, _, rfl⟩ | rfl
  · exact List.suffix_cons _ _
  · exact List.suffix_refl _

/-- `remove_directory` on a directory whose path and all paths below it fit the
buffer: by induction on the depth still allowed. -/
theorem removeDirectoryIn_removes {order : Location → List (Name × Node) → List (Name × Node)}
    (orders : ∀ dir entries, (order dir entries).Perm entries) (depth : Nat) (names : List Name)
    (process : Process σ) (located : DirectoryAt process.disk names) :
    Removes (removeDirectoryIn order depth (joined names)) process
      [names.reverse ++ process.disk.cwd]
      (Shallower process.disk depth (names.reverse ++ process.disk.cwd)) := by
  induction depth generalizing names process with
  | zero =>
      refine ⟨-1, process.disk, process.faults, rfl, Pruned.refl _ _, fun _ clean => clean,
        Or.inr rfl, by simp, ?_⟩
      intro _ shallow
      have impossible := shallow [] (by simp [located.dir])
      simp at impossible
  | succ depth ih =>
      rw [removeDirectoryIn]
      obtain ⟨last, parent, here, _, _, spells⟩ := located.spells true
      have opened := opendir_run process spells
      have dir := located.dir
      rw [here] at dir
      by_cases permitted : process.faults.next .opendir = .done
      · rw [if_pos ⟨permitted, dir⟩, ← here] at opened
        have child : ∀ (process : Process σ) (name : Name),
            DirectoryAt process.disk (names ++ [name]) →
            Removes (removeDirectoryIn order depth (joined (names ++ [name]))) process
              [name :: (names.reverse ++ process.disk.cwd)]
              (Shallower process.disk depth (name :: (names.reverse ++ process.disk.cwd))) := by
          intro process name below
          simpa using ih (names ++ [name]) process below
        obtain ⟨entries, read, sublist, all⟩ :=
          readdir_run (names.reverse ++ process.disk.cwd) (process.spend .opendir)
        have named := sublist.map Prod.fst
        rw [Disk.listing_names] at named
        have same := (orders (names.reverse ++ process.disk.cwd) entries).map Prod.fst
        have distinct := (Disk.listing_nodup _ _).sublist (sublist.map Prod.fst)
        have removed := removeListed_removes (removeDirectoryIn order depth) child
          ((order (names.reverse ++ process.disk.cwd) entries).map Prod.fst)
          ((process.spend .opendir).spend .readdir) located
          (fun name member => named.subset (same.subset member)) (same.nodup_iff.mpr distinct)
        -- the listing is complete as soon as `readdir` is not cut short
        have covers : CleanRemoval process.faults →
            process.disk.children (names.reverse ++ process.disk.cwd) ⊆
              (order (names.reverse ++ process.disk.cwd) entries).map Prod.fst := by
          intro clean name member
          apply same.symm.subset
          rw [all (clean.2.1.spend .opendir), Disk.listing_names]
          exact List.mem_cons_of_mem _ (List.mem_cons_of_mem _ member)
        refine Removes.spend opened (Removes.spend read removed fun _ holds => holds) ?_
        exact fun clean shallow => ⟨shallow, covers clean⟩
      · rw [if_neg (fun both => permitted both.1)] at opened
        exact Removes.refused opened rfl fun clean => permitted clean.1.next

theorem removeDirectory_removes (depth : Nat) (names : List Name) (process : Process σ)
    (located : DirectoryAt process.disk names) :
    Removes (removeDirectory depth (joined names)) process [names.reverse ++ process.disk.cwd]
      (Shallower process.disk depth (names.reverse ++ process.disk.cwd)) := by
  rw [← removeDirectoryIn_listed]
  exact removeDirectoryIn_removes (fun _ _ => List.Perm.refl _) depth names process located

theorem removeDirectory_unopened (depth : Nat) {path : Bytes} (process : Process σ)
    (unopened : process.disk.opendir path = none) :
    ∃ faults, removeDirectory depth path process =
      some (-1, { process with faults := faults }) := by
  cases depth with
  | zero => exact ⟨process.faults, rfl⟩
  | succ depth =>
      have opened : opendir path process = some (none, process.spend .opendir) :=
        attempt_of_none unopened
      refine ⟨process.faults.spend .opendir, ?_⟩
      rw [removeDirectory, bind_of_some opened]
      rfl

theorem deleteFile_of_removed {filename : Bytes} {process next : Process StorageStateOuter}
    {result : Int}
    (removed : removeDirectory descriptorLimit (directoryPath filename) process =
      some (result, next)) :
    deleteFile filename process = some (decide (result = 0),
      { next with
        memory := if result = 0 then removeFromStruct next.memory filename else next.memory }) := by
  rw [deleteFile, bind_of_some removed]
  by_cases success : result = 0
  · simp only [success, ne_eq, not_true_eq_false, if_false, if_true]
    rfl
  · simp only [success, ne_eq, not_false_eq_true, if_true, if_false, decide_false]
    rfl

end DistributedFileSystem.StorageLayer
