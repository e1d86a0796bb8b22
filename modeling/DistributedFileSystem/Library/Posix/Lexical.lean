import DistributedFileSystem.Library.Posix.Effect

/-!
Where a path leads when no symbolic link stands on its way: the components alone decide,
each `..` taking back the name before it or, when there is none, a step up.
-/

namespace Posix

open ByteString

def enter (here : Location) (name : Name) : Location :=
  if name = [] ∨ name = dot then here
  else if name = dotdot then here.tail
  else name :: here

def lexical (here : Location) (path : Bytes) : Location :=
  (components path).foldl enter (Disk.start path here)

/-- The directory that holds the entry of a path. A path that ends in a separator names its
entry by an empty component. -/
def container (here : Location) (path : Bytes) : Location :=
  lexical here (path.rdropWhile (· ≠ slash))

/-- The steps up that are left, and the names that are entered after them, innermost first. -/
structure Descent where
  ups : Nat
  names : List Name
  deriving DecidableEq, Repr

def Descent.enter (descent : Descent) (name : Name) : Descent :=
  if name = [] ∨ name = dot then descent
  else if name = dotdot then
    match descent.names with
    | [] => { descent with ups := descent.ups + 1 }
    | _ :: rest => { descent with names := rest }
  else { descent with names := name :: descent.names }

def descent (names : List Name) : Descent := names.foldl Descent.enter ⟨0, []⟩

def Inside (top location : Location) : Prop := ∃ more, more ≠ [] ∧ location = more ++ top

theorem Inside.append {top location : Location} (inside : Inside top location)
    (names : List Name) : Inside top (names ++ location) := by
  obtain ⟨more, nonempty, rfl⟩ := inside
  exact ⟨names ++ more, by simp [nonempty], by rw [List.append_assoc]⟩

theorem foldl_enter (names : List Name) (here : Location) :
    names.foldl enter here = (descent names).names ++ here.drop (descent names).ups := by
  induction names using List.reverseRecOn with
  | nil => rfl
  | append_singleton names name ih =>
      rw [descent, List.foldl_append, List.foldl_append, ih, ← descent]
      simp only [List.foldl_cons, List.foldl_nil, enter, Descent.enter]
      split
      · rfl
      · split
        · cases (descent names).names with
          | nil => rw [List.nil_append, List.nil_append, List.tail_drop]
          | cons last rest => rfl
        · rfl

/-- A walk ends below where it starts exactly when its names enter again all that its steps up
have left, and one more. -/
theorem inside_foldl_enter {names : List Name} {top : Location} :
    Inside top (names.foldl enter top) ↔
      Inside (top.take (descent names).ups) (descent names).names := by
  rw [foldl_enter, Inside, Inside]
  refine exists_congr fun more => and_congr_right fun _ => ?_
  constructor
  · intro same
    have both : (descent names).names ++ top.drop (descent names).ups =
        more ++ top.take (descent names).ups ++ top.drop (descent names).ups := by
      rw [same, List.append_assoc, List.take_append_drop]
    exact List.append_cancel_right both
  · intro same
    rw [same, List.append_assoc, List.take_append_drop]

theorem descent_of_no_dotdot {names : List Name} (plain : dotdot ∉ names) :
    descent names = ⟨0, (names.filter fun name => name ≠ [] ∧ name ≠ dot).reverse⟩ := by
  induction names using List.reverseRecOn with
  | nil => rfl
  | append_singleton names name ih =>
      rw [List.mem_append, List.mem_singleton, not_or] at plain
      rw [descent, List.foldl_append, ← descent, ih plain.1, List.filter_append,
        List.reverse_append]
      by_cases skipped : name = [] ∨ name = dot
      · have none : ¬(name ≠ [] ∧ name ≠ dot) := by simpa [or_iff_not_imp_left] using skipped
        simp [Descent.enter, skipped, none]
      · have kept : name ≠ [] ∧ name ≠ dot := not_or.mp skipped
        simp [Descent.enter, kept, Ne.symm plain.2]

theorem foldl_enter_suffix {names rest : List Name} (plain : dotdot ∉ rest) (here : Location) :
    names.foldl enter here <:+ (names ++ rest).foldl enter here := by
  rw [List.foldl_append, foldl_enter rest, descent_of_no_dotdot plain]
  exact List.suffix_append _ _

theorem no_dotdot {names : List Name} (valid : ∀ name ∈ names, name = [] ∨ ValidName name) :
    dotdot ∉ names := by
  intro member
  rcases valid dotdot member with empty | named
  · simp [dotdot, ascii] at empty
  · exact named.2.2.2.1 rfl

theorem enter_of_valid {name : Name} (valid : ValidName name) (here : Location) :
    enter here name = name :: here := by
  simp [enter, valid.1, valid.2.2.1, valid.2.2.2.1]

theorem container_joined {names : List Name} {last : Name} (relative : Relative names)
    (plain : slash ∉ last) (here : Location) :
    container here (joined (names ++ [last])) = names.foldl enter here := by
  obtain ⟨nonempty, inside⟩ := joined_head? relative
  have head : (joined names ++ [slash]).head? = (joined names).head? :=
    List.head?_append_of_ne_nil _ nonempty
  rw [container, joined_concat last relative.nonempty, rdropWhile_separator _ plain, lexical,
    Disk.start, head, if_neg inside, components_append, components_joined relative,
    components_name List.not_mem_nil, List.foldl_append]
  rfl

namespace Disk

variable {disk : Disk}

theorem walkWith_foldl {expand : Location → List Name → Option Location} {follow : Bool}
    (linkless : ∀ location target, disk.node? location ≠ some (.symlink target))
    {names : List Name} {here location : Location}
    (walked : disk.walkWith expand follow here names = some location) :
    location = names.foldl enter here := by
  induction names generalizing here with
  | nil => exact (Option.some.inj walked).symm
  | cons name rest ih =>
      rw [walkWith] at walked
      rw [List.foldl_cons, enter]
      split at walked
      · contradiction
      · split at walked
        · rename_i skipped
          rw [if_pos skipped]
          exact ih walked
        · rename_i named
          rw [if_neg named]
          split at walked
          · rename_i up
            rw [if_pos up]
            exact ih walked
          · rename_i down
            rw [if_neg down]
            split at walked
            · contradiction
            · split at walked
              · rename_i target found
                exact absurd found (linkless _ target)
              · exact ih walked

/-- On a disk without symbolic links, a path that leads anywhere leads to its lexical location. -/
theorem resolve_lexical {follow : Bool} {path : Bytes} {location : Location}
    (linkless : ∀ location target, disk.node? location ≠ some (.symlink target))
    (resolved : disk.resolve follow path = some location) :
    location = lexical disk.cwd path := by
  rw [resolve] at resolved
  split at resolved
  · contradiction
  · exact walkWith_foldl linkless resolved

theorem foldl_enter_dir {names rest : List Name} {here : Location} (plain : dotdot ∉ rest)
    (dir : disk.node? ((names ++ rest).foldl enter here) = some .dir) :
    disk.node? (names.foldl enter here) = some .dir := by
  obtain ⟨more, split⟩ := foldl_enter_suffix plain here
  rw [← split] at dir
  exact ancestor_dir dir

theorem walkWith_enter {expand : Location → List Name → Option Location} {follow : Bool}
    {names : List Name} (tail : List Name) {here : Location}
    (valid : ∀ name ∈ names, name = [] ∨ ValidName name)
    (dir : disk.node? (names.foldl enter here) = some .dir) :
    disk.walkWith expand follow here (names ++ tail) =
      disk.walkWith expand follow (names.foldl enter here) tail := by
  induction names generalizing here with
  | nil => rfl
  | cons name rest ih =>
      rw [List.forall_mem_cons] at valid
      have entered : disk.node? (enter here name) = some .dir :=
        @foldl_enter_dir disk [name] rest here (no_dotdot valid.2) dir
      rw [List.foldl_cons, ← ih valid.2 dir, List.cons_append]
      rcases valid.1 with rfl | named
      · rw [enter, if_pos (Or.inl rfl)] at entered ⊢
        rw [walkWith, if_neg (not_not.mpr entered), if_pos (Or.inl rfl)]
      · rw [enter_of_valid named] at entered ⊢
        have hereDir := @parent_dir disk name here (by simp [entered])
        exact walkWith_name _ named hereDir (by simp [entered])

/-- A path that ends in separators names the entry before them. -/
theorem spells_enter {names : List Name} (relative : Relative names)
    (valid : ∀ name ∈ names, name = [] ∨ ValidName name)
    (above : disk.node? (names.dropLast.foldl enter disk.cwd) = some .dir) :
    ∃ last parent, names.foldl enter disk.cwd = last :: parent ∧ ValidName last ∧
      disk.node? parent = some .dir ∧
      disk.Spells false ((joined names).rdropWhile (· = slash)) last parent := by
  induction names using List.reverseRecOn with
  | nil => exact absurd rfl relative.nonempty
  | append_singleton names name ih =>
      rw [List.dropLast_concat] at above
      rw [List.forall_mem_append, List.forall_mem_singleton] at valid
      rw [List.foldl_append, List.foldl_cons, List.foldl_nil]
      rcases valid.2 with rfl | named
      · -- the separator is repeated
        have before : Relative names := by
          apply relative.front
          rintro rfl
          exact relative.first rfl
        have split := List.dropLast_append_getLast before.nonempty
        have final : dotdot ∉ [names.getLast before.nonempty] := by
          have plain := no_dotdot valid.1
          rw [← split, List.mem_append, not_or] at plain
          exact plain.2
        have earlier := foldl_enter_dir final (by rw [split, above])
        rw [enter, if_pos (Or.inl rfl), joined_concat [] before.nonempty,
          List.rdropWhile_concat_pos _ _ _ (by rw [decide_eq_true_eq])]
        exact ih before valid.1 earlier
      · refine ⟨name, names.foldl enter disk.cwd, enter_of_valid named _, named, above, ?_⟩
        rw [joined_concat_trimmed names named.component, Spells, if_pos above,
          resolve_eq_walkWith relative, walkWith_enter [name] valid.1 above]
        exact walkWith_last named above fun _ _ => rfl

end Disk

end Posix
