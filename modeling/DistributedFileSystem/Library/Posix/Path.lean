import DistributedFileSystem.Library.Posix.Disk

/-!
Path resolution: the walk over the components of a path, with `.`, `..`,
repeated and trailing separators and symbolic links.
-/

namespace Posix

open ByteString

def linkMax : Nat := 40

def components (path : Bytes) : List Name := path.splitOn slash

namespace Disk

def start (path : Bytes) (here : Location) : Location :=
  if path.head? = some slash then [] else here

/-- Walk down the components from `here`. A symbolic link is handed to `expand`,
save a last one when `follow` is false. The last component need not exist. -/
def walkWith (disk : Disk) (expand : Location → List Name → Option Location) (follow : Bool) :
    Location → List Name → Option Location
  | here, [] => some here
  | here, name :: rest =>
      if disk.node? here ≠ some .dir then none
      else if name = [] ∨ name = dot then walkWith disk expand follow here rest
      else if name = dotdot then walkWith disk expand follow here.tail rest
      else if nameMax < name.length then none
      else
        match disk.node? (name :: here) with
        | some (.symlink target) =>
            if rest = [] ∧ follow = false then some (name :: here)
            else expand (start target here) (components target ++ rest)
        | _ => walkWith disk expand follow (name :: here) rest

def walk (disk : Disk) (follow : Bool) : Nat → Location → List Name → Option Location
  | 0 => walkWith disk (fun _ _ => none) follow
  | links + 1 => walkWith disk (walk disk follow links) follow

def resolve (disk : Disk) (follow : Bool) (path : Bytes) : Option Location :=
  if path = [] then none
  else disk.walk follow linkMax (start path disk.cwd) (components path)

def lookup (disk : Disk) (follow : Bool) (path : Bytes) : Option Node :=
  (disk.resolve follow path).bind disk.node?

def visitedWith (disk : Disk) (expand : Location → List Name → List Location) (follow : Bool) :
    Location → List Name → List Location
  | here, [] => [here]
  | here, name :: rest =>
      here ::
        if disk.node? here ≠ some .dir then []
        else if name = [] ∨ name = dot then visitedWith disk expand follow here rest
        else if name = dotdot then visitedWith disk expand follow here.tail rest
        else if nameMax < name.length then []
        else
          match disk.node? (name :: here) with
          | some (.symlink target) =>
              (name :: here) ::
                if rest = [] ∧ follow = false then []
                else expand (start target here) (components target ++ rest)
          | _ => visitedWith disk expand follow (name :: here) rest

def visited (disk : Disk) (follow : Bool) : Nat → Location → List Name → List Location
  | 0 => visitedWith disk (fun _ _ => []) follow
  | links + 1 => visitedWith disk (visited disk follow links) follow

def onTheWay (disk : Disk) (follow : Bool) (path : Bytes) : List Location :=
  if path = [] then [] else disk.visited follow linkMax (start path disk.cwd) (components path)

end Disk

def joined (names : List Name) : Bytes := [slash].intercalate names

structure Relative (names : List Name) : Prop where
  nonempty : names ≠ []
  first : names.head? ≠ some []
  plain : ∀ name ∈ names, slash ∉ name

theorem Relative.of_component {names : List Name} (nonempty : names ≠ [])
    (spelled : ∀ name ∈ names, Component name) : Relative names := by
  refine ⟨nonempty, ?_, fun name member => (spelled name member).2.1⟩
  intro empty
  exact (spelled [] (List.mem_of_head? empty)).1 rfl

theorem Relative.front {front back : List Name} (relative : Relative (front ++ back))
    (nonempty : front ≠ []) : Relative front := by
  refine ⟨nonempty, ?_, fun name member => relative.plain name (List.mem_append_left _ member)⟩
  intro empty
  exact relative.first (by rw [List.head?_append, empty, Option.some_or])

theorem components_joined {names : List Name} (relative : Relative names) :
    components (joined names) = names :=
  List.splitOn_intercalate slash relative.plain relative.nonempty

theorem joined_components (path : Bytes) : joined (components path) = path :=
  List.intercalate_splitOn slash

theorem components_append (front back : Bytes) :
    components (front ++ slash :: back) = components front ++ components back :=
  List.splitOn_append_cons_self front back

theorem components_name {name : Bytes} (plain : slash ∉ name) : components name = [name] :=
  List.splitOn_eq_singleton plain

theorem not_mem_of_components {path : Bytes} {name : Name} (member : name ∈ components path) :
    slash ∉ name := by
  induction path generalizing name with
  | nil =>
      rw [components_name List.not_mem_nil, List.mem_singleton] at member
      simp [member]
  | cons byte rest ih =>
      rw [components, List.splitOn_cons_eq_if_modifyHead] at member
      split at member
      · rcases List.mem_cons.mp member with rfl | later
        · simp
        · exact ih later
      · rename_i different
        obtain ⟨first, others, split⟩ := List.exists_cons_of_ne_nil (List.splitOn_ne_nil slash rest)
        rw [split, List.modifyHead_cons, List.mem_cons] at member
        rw [components, split] at ih
        rcases member with rfl | later
        · rw [List.mem_cons, not_or]
          exact ⟨fun same => different (by simp [same]), ih (by simp)⟩
        · exact ih (by simp [later])

theorem relative_components {path : Bytes} (nonempty : path ≠ [])
    (inside : path.head? ≠ some slash) : Relative (components path) := by
  refine ⟨List.splitOn_ne_nil slash path, ?_, fun _ => not_mem_of_components⟩
  intro first
  obtain ⟨rest, split⟩ := List.head?_eq_some_iff.mp first
  have text := joined_components path
  rw [split] at text
  cases rest with
  | nil => exact nonempty (by simpa [joined, List.intercalate] using text.symm)
  | cons next others => exact inside (by simp [← text, joined, List.intercalate])

theorem rdropWhile_separator (front : Bytes) {last : Bytes} (plain : slash ∉ last) :
    (front ++ slash :: last).rdropWhile (· ≠ slash) = front ++ [slash] := by
  have stops : ∀ byte ∈ last.reverse, (decide (byte ≠ slash)) = true := by
    intro byte member
    rw [decide_eq_true_eq]
    rintro rfl
    exact plain (List.mem_reverse.mp member)
  rw [List.rdropWhile, List.reverse_append, List.reverse_cons, List.append_assoc,
    List.dropWhile_append_of_pos stops]
  simp

theorem joined_cons {name next : Name} {rest : List Name} :
    joined (name :: next :: rest) = name ++ slash :: joined (next :: rest) := by
  simp [joined, List.intercalate]

theorem joined_concat {names : List Name} (name : Name) (nonempty : names ≠ []) :
    joined (names ++ [name]) = joined names ++ slash :: name := by
  induction names with
  | nil => exact absurd rfl nonempty
  | cons first rest ih =>
      cases rest with
      | nil => simp [joined, List.intercalate]
      | cons next others =>
          have tail := ih (by simp)
          simp only [List.cons_append] at tail ⊢
          rw [joined_cons, joined_cons, tail]
          simp

theorem joined_injective {left right : List Name} (leftNonempty : left ≠ [])
    (rightNonempty : right ≠ []) (leftSpelled : ∀ name ∈ left, Component name)
    (rightSpelled : ∀ name ∈ right, Component name) (same : joined left = joined right) :
    left = right := by
  rw [← components_joined (.of_component leftNonempty leftSpelled), same,
    components_joined (.of_component rightNonempty rightSpelled)]

theorem joined_length_mono {front names : List Name} (above : front <+: names) :
    (joined front).length ≤ (joined names).length := by
  obtain ⟨rest, rfl⟩ := above
  induction rest generalizing front with
  | nil => simp
  | cons name rest ih =>
      have first : (joined front).length ≤ (joined (front ++ [name])).length := by
        by_cases empty : front = []
        · simp [empty, joined]
        · rw [joined_concat name empty, List.length_append]
          omega
      have later := @ih (front ++ [name])
      rw [List.append_assoc, List.singleton_append] at later
      omega

/-- Every name but the last takes a separator with it. -/
theorem two_length_le_joined {names : List Name} (spelled : ∀ name ∈ names, name ≠ []) :
    2 * names.length ≤ (joined names).length + 1 := by
  induction names with
  | nil => simp
  | cons name rest ih =>
      rw [List.forall_mem_cons] at spelled
      have letters := List.length_pos_iff.mpr spelled.1
      have later := ih spelled.2
      cases rest with
      | nil =>
          have single : joined [name] = name := by simp [joined, List.intercalate]
          rw [single, List.length_singleton]
          omega
      | cons next others =>
          rw [joined_cons]
          simp only [List.length_cons, List.length_append] at later ⊢
          omega

theorem joined_head? {names : List Name} (relative : Relative names) :
    joined names ≠ [] ∧ (joined names).head? ≠ some slash := by
  cases names with
  | nil => exact absurd rfl relative.nonempty
  | cons first rest =>
      have nonempty : first ≠ [] := fun empty => relative.first (by rw [empty, List.head?_cons])
      obtain ⟨letter, letters, rfl⟩ := List.exists_cons_of_ne_nil nonempty
      have notSlash : letter ≠ slash := by
        rintro rfl
        exact relative.plain _ List.mem_cons_self List.mem_cons_self
      cases rest with
      | nil => simp [joined, List.intercalate, notSlash]
      | cons next others => simp [joined_cons, notSlash]

namespace Disk

variable {disk : Disk} {expand : Location → List Name → Option Location} {follow : Bool}

theorem walkWith_name {here : Location} {name : Name} (rest : List Name)
    (valid : ValidName name) (dir : disk.node? here = some .dir)
    (plain : ∀ target, disk.node? (name :: here) ≠ some (.symlink target)) :
    disk.walkWith expand follow here (name :: rest) =
      disk.walkWith expand follow (name :: here) rest := by
  obtain ⟨nonempty, _, notDot, notDotdot, short⟩ := valid
  have fits : ¬nameMax < name.length := by omega
  simp only [walkWith, dir, ne_eq, not_true_eq_false, if_false, nonempty, notDot, or_self,
    notDotdot, fits]

theorem mem_visitedWith {expand : Location → List Name → List Location} {here : Location}
    (names : List Name) : here ∈ disk.visitedWith expand follow here names := by
  cases names with
  | nil => simp [visitedWith]
  | cons name rest => simp [visitedWith]

theorem walkWith_missing {here : Location} {names : List Name} (missing : disk.node? here = none) :
    (disk.walkWith expand follow here names).bind disk.node? = none := by
  cases names with
  | nil => simp [walkWith, missing]
  | cons name rest => simp [walkWith, missing]

theorem ancestor_dir {names : List Name} {here : Location}
    (dir : disk.node? (names ++ here) = some .dir) : disk.node? here = some .dir := by
  by_contra notDir
  cases names with
  | nil => exact notDir dir
  | cons next others =>
      have absent := node?_below_of_not_dir notDir (next :: others) (by simp)
      rw [dir] at absent
      simp at absent

theorem names_valid {names : List Name} {here : Location}
    (present : (disk.node? (names ++ here)).isSome) : ∀ name ∈ names, ValidName name := by
  induction names with
  | nil => simp
  | cons name rest ih =>
      rw [List.forall_mem_cons]
      exact ⟨name_valid present, ih (by simp [@parent_dir disk name (rest ++ here) present])⟩

/-- A name too long for a directory entry ends the walk wherever it stands. -/
theorem walkWith_long {names : List Name} {here : Location}
    (spelled : ∀ name ∈ names, Component name)
    (plain : ∀ more target, disk.node? (more ++ here) ≠ some (.symlink target))
    (long : ∃ name ∈ names, nameMax < name.length) :
    disk.walkWith expand follow here names = none := by
  induction names generalizing here with
  | nil => simp at long
  | cons name rest ih =>
      rw [List.forall_mem_cons] at spelled
      by_cases dir : disk.node? here = some .dir
      · by_cases short : name.length ≤ nameMax
        · rw [walkWith_name rest (spelled.1.valid short) dir (plain [name])]
          apply ih spelled.2
          · intro more
            simpa using plain (more ++ [name])
          · obtain ⟨other, member, exceeds⟩ := long
            rcases List.mem_cons.mp member with rfl | later
            · omega
            · exact ⟨other, later, exceeds⟩
        · obtain ⟨nonempty, _, notDot, notDotdot⟩ := spelled.1
          have exceeds : nameMax < name.length := by omega
          simp only [walkWith, dir, ne_eq, not_true_eq_false, if_false, nonempty, notDot, or_self,
            notDotdot, exceeds, if_true]
      · rw [walkWith, if_pos dir]

theorem walkWith_dirs (names tail : List Name) (here : Location)
    (valid : ∀ name ∈ names, ValidName name)
    (dir : disk.node? (names.reverse ++ here) = some .dir) :
    disk.walkWith expand follow here (names ++ tail) =
      disk.walkWith expand follow (names.reverse ++ here) tail := by
  induction names generalizing here with
  | nil => rfl
  | cons name rest ih =>
      have deep : disk.node? (rest.reverse ++ (name :: here)) = some .dir := by simpa using dir
      have nameDir := ancestor_dir deep
      have hereDir := @parent_dir disk name here (by simp [nameDir])
      rw [List.cons_append, walkWith_name _ (valid name (by simp)) hereDir (by simp [nameDir]),
        ih (name :: here) (fun other member => valid other (by simp [member])) deep]
      simp

theorem walkWith_last {here : Location} {last : Name} (valid : ValidName last)
    (dir : disk.node? here = some .dir)
    (plain : ∀ target, disk.node? (last :: here) = some (.symlink target) → follow = false) :
    disk.walkWith expand follow here [last] = some (last :: here) := by
  obtain ⟨nonempty, _, notDot, notDotdot, short⟩ := valid
  have fits : ¬nameMax < last.length := by omega
  simp only [walkWith, dir, ne_eq, not_true_eq_false, if_false, nonempty, notDot, or_self,
    notDotdot, fits]
  split
  · rename_i target found
    simp [plain target found]
  · rfl

theorem resolve_eq_walkWith {names : List Name} (relative : Relative names) :
    disk.resolve follow (joined names) =
      disk.walkWith (disk.walk follow (linkMax - 1)) follow disk.cwd names := by
  have path := joined_head? relative
  rw [resolve, if_neg path.1, start, if_neg path.2, components_joined relative]
  rfl

def PlainBelow (disk : Disk) (top : Location) : Prop :=
  ∀ names target, disk.node? (names ++ top) ≠ some (.symlink target)

theorem PlainBelow.below {top : Location} (plain : disk.PlainBelow top) (names : List Name) :
    disk.PlainBelow (names ++ top) := by
  intro more target
  rw [← List.append_assoc]
  exact plain (more ++ names) target

def Spells (disk : Disk) (follow : Bool) (path : Bytes) (last : Name) (parent : Location) : Prop :=
  disk.resolve follow path = if disk.node? parent = some .dir then some (last :: parent) else none

theorem walkWith_plain (names : List Name) (last : Name) (here : Location)
    (valid : ∀ name ∈ names ++ [last], ValidName name) (plain : disk.PlainBelow here) :
    disk.walkWith expand follow here (names ++ [last]) =
      if disk.node? (names.reverse ++ here) = some .dir then
        some (last :: (names.reverse ++ here)) else none := by
  induction names generalizing here with
  | nil =>
      by_cases dir : disk.node? here = some .dir
      · rw [if_pos (by simpa using dir)]
        exact walkWith_last (valid last (by simp)) dir
          fun target found => absurd found (plain [last] target)
      · rw [if_neg (by simpa using dir)]
        simp [walkWith, dir]
  | cons name rest ih =>
      by_cases dir : disk.node? here = some .dir
      · rw [List.cons_append, walkWith_name _ (valid name (by simp)) dir (plain [name]),
          ih (name :: here) (fun other member => valid other (by simp [member]))
            (plain.below [name])]
        simp
      · have notDir : disk.node? ((name :: rest).reverse ++ here) ≠ some .dir :=
          fun found => dir (ancestor_dir found)
        rw [if_neg notDir]
        simp [walkWith, dir]

theorem resolve_long {base names : List Name}
    (valid : ∀ name ∈ base, ValidName name) (spelled : ∀ name ∈ names, Component name)
    (dir : disk.node? (base.reverse ++ disk.cwd) = some .dir)
    (plain : disk.PlainBelow (base.reverse ++ disk.cwd))
    (long : ∃ name ∈ names, nameMax < name.length) :
    disk.resolve follow (joined (base ++ names)) = none := by
  have nonempty : names ≠ [] := by
    rintro rfl
    simp at long
  have components : ∀ name ∈ base ++ names, Component name := by
    intro name member
    rcases List.mem_append.mp member with above | below
    · exact (valid name above).component
    · exact spelled name below
  rw [resolve_eq_walkWith (.of_component (by simp [nonempty]) components),
    walkWith_dirs base names disk.cwd valid dir]
  exact walkWith_long spelled plain long

theorem spells_joined {names : List Name} {last : Name}
    (valid : ∀ name ∈ names ++ [last], ValidName name)
    (dir : disk.node? (names.reverse ++ disk.cwd) = some .dir)
    (plain : ∀ target,
      disk.node? (last :: (names.reverse ++ disk.cwd)) = some (.symlink target) → follow = false) :
    disk.Spells follow (joined (names ++ [last])) last (names.reverse ++ disk.cwd) := by
  rw [Spells, if_pos dir,
    resolve_eq_walkWith (.of_component (by simp) fun name member => (valid name member).component),
    walkWith_dirs names [last] disk.cwd (fun name member => valid name (by simp [member])) dir]
  exact walkWith_last (valid last (by simp)) dir plain

end Disk

end Posix
