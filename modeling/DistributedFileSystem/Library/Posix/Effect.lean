import DistributedFileSystem.Library.Posix.Path

/-! What each file system call does to the disk when nothing refuses it. -/

namespace Posix

open ByteString

namespace Disk

def stat (disk : Disk) (follow : Bool) (path : Bytes) : Option (Node × Disk) :=
  (disk.lookup follow path).map fun node => (node, disk)

def opendir (disk : Disk) (path : Bytes) : Option (Location × Disk) :=
  match disk.resolve true path with
  | some location => if disk.node? location = some .dir then some (location, disk) else none
  | none => none

def mkdir (disk : Disk) (path : Bytes) : Option (Unit × Disk) :=
  match disk.resolve false (path.rdropWhile (· = slash)) with
  | some location => (disk.create location .dir).map fun next => ((), next)
  | none => none

/-- `fopen` with mode `ab`: an existing regular file is kept, a missing one is made. -/
def openAppend (disk : Disk) (path : Bytes) : Option (Location × Disk) :=
  match disk.resolve true path with
  | some location =>
      match disk.node? location with
      | some (.file _) => some (location, disk)
      | some _ => none
      | none => (disk.create location (.file [])).map fun next => (location, next)
  | none => none

def unlink (disk : Disk) (path : Bytes) : Option (Unit × Disk) :=
  match disk.resolve false path with
  | some location =>
      match disk.node? location with
      | some .dir => none
      | some _ => (disk.erase location).map fun next => ((), next)
      | none => none
  | none => none

/-- `rmdir` refuses a path whose last component is `.` or `..`. -/
def rmdir (disk : Disk) (path : Bytes) : Option (Unit × Disk) :=
  let trimmed := path.rdropWhile (· = slash)
  match (components trimmed).getLast?, disk.resolve false trimmed with
  | some last, some location =>
      if last = dot ∨ last = dotdot ∨ disk.node? location ≠ some .dir then none
      else (disk.erase location).map fun next => ((), next)
  | _, _ => none

def listing (disk : Disk) (location : Location) : List (Name × Node) :=
  (dot, .dir) :: (dotdot, .dir) :: (disk.children location).filterMap fun name =>
    (disk.node? (name :: location)).map fun node => (name, node)

end Disk

namespace Disk

variable {disk : Disk} {follow : Bool} {path : Bytes} {last : Name} {parent : Location}

theorem listing_names (disk : Disk) (location : Location) :
    (disk.listing location).map Prod.fst = dot :: dotdot :: disk.children location := by
  have all : ∀ names : List Name, (∀ name ∈ names, (disk.node? (name :: location)).isSome) →
      (names.filterMap fun name => (disk.node? (name :: location)).map fun node =>
        (name, node)).map Prod.fst = names := by
    intro names present
    induction names with
    | nil => rfl
    | cons name rest ih =>
        obtain ⟨node, found⟩ := Option.isSome_iff_exists.mp (present name (by simp))
        simp [found, ih fun other member => present other (by simp [member])]
  simp [listing, all _ fun name member => mem_children.mp member]

theorem listing_nodup (disk : Disk) (location : Location) :
    ((disk.listing location).map Prod.fst).Nodup := by
  rw [listing_names]
  have dots : dot ≠ dotdot := by decide
  have valid : ∀ name ∈ disk.children location, name ≠ dot ∧ name ≠ dotdot := by
    intro name member
    obtain ⟨_, _, notDot, notDotdot, _⟩ := name_valid (mem_children.mp member)
    exact ⟨notDot, notDotdot⟩
  simp only [List.nodup_cons, List.mem_cons, not_or]
  exact ⟨⟨dots, fun member => (valid _ member).1 rfl⟩, fun member => (valid _ member).2 rfl,
    disk.children_nodup location⟩

theorem node?_none_of_parent (notDir : disk.node? parent ≠ some .dir) (name : Name) :
    disk.node? (name :: parent) = none :=
  node?_below_of_not_dir notDir [name] (by simp)

theorem lookup_of_spells (spells : disk.Spells follow path last parent) :
    disk.lookup follow path = disk.node? (last :: parent) := by
  rw [lookup, spells]
  split
  · rfl
  · rename_i notDir
    exact (node?_none_of_parent notDir last).symm

theorem opendir_of_spells (spells : disk.Spells true path last parent) :
    disk.opendir path =
      if disk.node? (last :: parent) = some .dir then some (last :: parent, disk) else none := by
  rw [opendir, spells]
  by_cases dir : disk.node? parent = some .dir
  · simp [dir]
  · simp [dir, node?_none_of_parent dir]

theorem create_of_not_dir (notDir : disk.node? parent ≠ some .dir) (node : Node) :
    disk.create (last :: parent) node = none := by
  simp [create, notDir]

theorem mkdir_of_spells (spells : disk.Spells false (path.rdropWhile (· = slash)) last parent) :
    disk.mkdir path = (disk.create (last :: parent) .dir).map fun next => ((), next) := by
  rw [mkdir, spells]
  by_cases dir : disk.node? parent = some .dir
  · simp [dir]
  · simp [dir, create_of_not_dir dir]

theorem openAppend_of_spells (spells : disk.Spells true path last parent) :
    disk.openAppend path =
      match disk.node? (last :: parent) with
      | some (.file _) => some (last :: parent, disk)
      | some _ => none
      | none => (disk.create (last :: parent) (.file [])).map fun next => (last :: parent, next) := by
  rw [openAppend, spells]
  by_cases dir : disk.node? parent = some .dir
  · simp [dir]
  · simp [dir, node?_none_of_parent dir, create_of_not_dir dir]

theorem unlink_of_spells (spells : disk.Spells false path last parent) :
    disk.unlink path =
      match disk.node? (last :: parent) with
      | some .dir => none
      | some _ => (disk.erase (last :: parent)).map fun next => ((), next)
      | none => none := by
  rw [unlink, spells]
  by_cases dir : disk.node? parent = some .dir
  · simp [dir]
  · simp [dir, node?_none_of_parent dir]

theorem rmdir_of_spells (spells : disk.Spells false path last parent) (valid : ValidName last)
    (trimmed : path.rdropWhile (· = slash) = path)
    (ends : (components path).getLast? = some last) :
    disk.rmdir path =
      if disk.node? (last :: parent) = some .dir then
        (disk.erase (last :: parent)).map fun next => ((), next)
      else none := by
  obtain ⟨_, _, notDot, notDotdot, _⟩ := valid
  rw [rmdir, trimmed, ends, spells]
  by_cases dir : disk.node? parent = some .dir
  · by_cases itself : disk.node? (last :: parent) = some .dir
    · simp [dir, itself, notDot, notDotdot]
    · simp [dir, itself]
  · simp [dir, node?_none_of_parent dir]

end Disk

theorem joined_concat_trimmed (front : List Name) {last : Name} (lastSpelled : Component last) :
    (joined (front ++ [last])).rdropWhile (· = slash) = joined (front ++ [last]) := by
  rw [List.rdropWhile_eq_self_iff]
  intro notNil
  have ends : (joined (front ++ [last])).getLast? = last.getLast? := by
    by_cases single : front = []
    · simp [single, joined, List.intercalate]
    · rw [joined_concat last single, List.getLast?_append_cons, List.getLast?_cons]
      cases last with
      | nil => exact absurd rfl lastSpelled.1
      | cons first rest => simp [List.getLast?_cons]
  have final : last.getLast? = some ((joined (front ++ [last])).getLast notNil) := by
    rw [← ends, List.getLast?_eq_some_getLast]
  simp only [decide_eq_true_eq]
  intro same
  rw [same] at final
  exact lastSpelled.2.1 (List.mem_of_getLast? final)

theorem joined_trimmed {names : List Name} (nonempty : names ≠ [])
    (spelled : ∀ name ∈ names, Component name) :
    (joined names).rdropWhile (· = slash) = joined names := by
  obtain ⟨front, last, rfl⟩ := (List.eq_nil_or_concat' names).resolve_left nonempty
  exact joined_concat_trimmed front (spelled last (by simp))

theorem components_last {names : List Name} {last : Name}
    (spelled : ∀ name ∈ names ++ [last], Component name) :
    (components (joined (names ++ [last]))).getLast? = some last := by
  rw [components_joined (.of_component (by simp) spelled)]
  simp

end Posix
