import DistributedFileSystem.Library.Bytes
import Mathlib.Data.List.AList

/-!
A POSIX directory tree: nodes at locations, path resolution, and the effect a
file system call has when it succeeds.
-/

namespace Posix

open ByteString

abbrev Name := Bytes

/-- The names from a node up to the root, innermost first. -/
abbrev Location := List Name

inductive Node where
  | file (bytes : Bytes)
  | dir
  | symlink (target : Bytes)
  deriving DecidableEq, Repr

def dot : Name := ascii "."

def dotdot : Name := ascii ".."

def nameMax : Nat := 255

def ValidName (name : Name) : Prop :=
  name ≠ [] ∧ slash ∉ name ∧ name ≠ dot ∧ name ≠ dotdot ∧ name.length ≤ nameMax

instance (name : Name) : Decidable (ValidName name) := by
  unfold ValidName
  infer_instance

def Component (name : Name) : Prop :=
  name ≠ [] ∧ slash ∉ name ∧ name ≠ dot ∧ name ≠ dotdot

instance (name : Name) : Decidable (Component name) := by
  unfold Component
  infer_instance

theorem ValidName.component {name : Name} (valid : ValidName name) : Component name :=
  ⟨valid.1, valid.2.1, valid.2.2.1, valid.2.2.2.1⟩

theorem Component.valid {name : Name} (component : Component name)
    (short : name.length ≤ nameMax) : ValidName name :=
  ⟨component.1, component.2.1, component.2.2.1, component.2.2.2, short⟩

structure Disk where
  nodes : AList fun _ : Location => Node
  cwd : Location
  rooted : nodes.lookup [] = some .dir
  closed : ∀ name parent, name :: parent ∈ nodes → nodes.lookup parent = some .dir
  named : ∀ name parent, name :: parent ∈ nodes → ValidName name

namespace Disk

def node? (disk : Disk) (location : Location) : Option Node := disk.nodes.lookup location

def regular (disk : Disk) (location : Location) : Bool :=
  match disk.node? location with
  | some (.file _) => true
  | _ => false

theorem regular_iff {disk : Disk} {location : Location} :
    disk.regular location = true ↔ ∃ bytes, disk.node? location = some (.file bytes) := by
  unfold regular
  split
  · rename_i bytes found
    simp [found]
  · rename_i different
    simp only [Bool.false_eq_true, false_iff, not_exists]
    exact different

def children (disk : Disk) (location : Location) : List Name :=
  disk.nodes.keys.filterMap fun
    | name :: parent => if parent = location then some name else none
    | [] => none

theorem mem_children {disk : Disk} {location : Location} {name : Name} :
    name ∈ disk.children location ↔ (disk.node? (name :: location)).isSome := by
  rw [node?, AList.lookup_isSome, AList.mem_keys, children, List.mem_filterMap]
  constructor
  · rintro ⟨key, member, found⟩
    cases key with
    | nil => simp at found
    | cons first parent =>
        by_cases same : parent = location
        · simp only [same, if_true, Option.some.injEq] at found
          rwa [← found, ← same]
        · simp [same] at found
  · intro member
    exact ⟨name :: location, member, by simp⟩

theorem children_nodup (disk : Disk) (location : Location) : (disk.children location).Nodup := by
  refine List.Nodup.filterMap ?_ disk.nodes.keys_nodup
  intro left right name leftName rightName
  cases left <;> cases right <;> simp_all

theorem parent_dir {disk : Disk} {name : Name} {parent : Location}
    (present : (disk.node? (name :: parent)).isSome) : disk.node? parent = some .dir :=
  disk.closed name parent (AList.lookup_isSome.mp present)

theorem name_valid {disk : Disk} {name : Name} {parent : Location}
    (present : (disk.node? (name :: parent)).isSome) : ValidName name :=
  disk.named name parent (AList.lookup_isSome.mp present)

theorem node?_below_of_not_dir {disk : Disk} {location : Location}
    (notDir : disk.node? location ≠ some .dir) :
    ∀ names, names ≠ [] → disk.node? (names ++ location) = none := by
  intro names nonempty
  induction names with
  | nil => exact absurd rfl nonempty
  | cons name rest ih =>
      by_contra present
      have above := @parent_dir disk name (rest ++ location)
        (Option.isSome_iff_ne_none.mpr present)
      cases rest with
      | nil => exact notDir above
      | cons next others =>
          have absent := ih (by simp)
          rw [above] at absent
          simp at absent

theorem children_of_not_dir {disk : Disk} {location : Location}
    (notDir : disk.node? location ≠ some .dir) : disk.children location = [] := by
  rw [List.eq_nil_iff_forall_not_mem]
  intro name listed
  exact notDir (parent_dir (mem_children.mp listed))

def create (disk : Disk) (location : Location) (node : Node) : Option Disk :=
  match location with
  | [] => none
  | name :: parent =>
      if allowed : disk.node? (name :: parent) = none ∧ disk.node? parent = some .dir ∧
          ValidName name then
        some {
          nodes := disk.nodes.insert (name :: parent) node
          cwd := disk.cwd
          rooted := by rw [AList.lookup_insert_ne (by simp)]; exact disk.rooted
          closed := by
            intro child above member
            have fresh : above ≠ name :: parent := by
              rintro rfl
              rcases (AList.mem_insert _).mp member with same | old
              · simp at same
              · have isDir := disk.closed _ _ old
                rw [show disk.nodes.lookup _ = none from allowed.1] at isDir
                simp at isDir
            rw [AList.lookup_insert_ne fresh]
            rcases (AList.mem_insert _).mp member with same | old
            · rw [(List.cons.inj same).2]
              exact allowed.2.1
            · exact disk.closed _ _ old
          named := by
            intro child above member
            rcases (AList.mem_insert _).mp member with same | old
            · rw [(List.cons.inj same).1]
              exact allowed.2.2
            · exact disk.named _ _ old
        }
      else none

def overwrite (disk : Disk) (location : Location) (bytes : Bytes) : Disk :=
  if regular : disk.regular location = true then
    {
      nodes := disk.nodes.insert location (.file bytes)
      cwd := disk.cwd
      rooted := by
        have notRoot : [] ≠ location := by
          rintro rfl
          obtain ⟨old, found⟩ := regular_iff.mp regular
          simp [show disk.node? [] = some .dir from disk.rooted] at found
        rw [AList.lookup_insert_ne notRoot]
        exact disk.rooted
      closed := by
        intro child above member
        have old : child :: above ∈ disk.nodes := by
          rcases (AList.mem_insert _).mp member with same | old
          · rw [same]
            obtain ⟨bytes, found⟩ := regular_iff.mp regular
            exact AList.lookup_isSome.mp (by rw [show disk.nodes.lookup _ = _ from found]; rfl)
          · exact old
        have isDir := disk.closed _ _ old
        have different : above ≠ location := by
          rintro rfl
          obtain ⟨bytes, found⟩ := regular_iff.mp regular
          simp [show disk.nodes.lookup _ = _ from found] at isDir
        rw [AList.lookup_insert_ne different]
        exact isDir
      named := by
        intro child above member
        rcases (AList.mem_insert _).mp member with same | old
        · obtain ⟨bytes, found⟩ := regular_iff.mp regular
          rw [← same] at found
          exact name_valid (by rw [found]; rfl)
        · exact disk.named _ _ old
    }
  else disk

def erase (disk : Disk) (location : Location) : Option Disk :=
  match location with
  | [] => none
  | name :: parent =>
      if empty : disk.children (name :: parent) = [] then
        some {
          nodes := disk.nodes.erase (name :: parent)
          cwd := disk.cwd
          rooted := by rw [AList.lookup_erase_ne (by simp)]; exact disk.rooted
          closed := by
            intro child above member
            have old := (AList.mem_erase.mp member).2
            have different : above ≠ name :: parent := by
              rintro rfl
              have listed : child ∈ disk.children (name :: parent) :=
                mem_children.mpr (AList.lookup_isSome.mpr old)
              simp [empty] at listed
            rw [AList.lookup_erase_ne different]
            exact disk.closed _ _ old
          named := fun child above member => disk.named _ _ (AList.mem_erase.mp member).2
        }
      else none

def root : Disk where
  nodes := AList.singleton [] .dir
  cwd := []
  rooted := rfl
  closed := by
    intro name parent member
    rw [AList.mem_keys, AList.keys_singleton, List.mem_singleton] at member
    contradiction
  named := by
    intro name parent member
    rw [AList.mem_keys, AList.keys_singleton, List.mem_singleton] at member
    contradiction

def populate (disk : Disk) (nodes : List (Location × Node)) : Disk :=
  nodes.foldl (fun disk (location, node) => (disk.create location node).getD disk) disk

theorem create_some {disk next : Disk} {location : Location} {node : Node}
    (created : disk.create location node = some next) :
    disk.node? location = none ∧ next.cwd = disk.cwd ∧
      ∀ other, next.node? other = if other = location then some node else disk.node? other := by
  cases location with
  | nil => simp [create] at created
  | cons name parent =>
      simp only [create] at created
      split at created
      · rename_i allowed
        simp only [Option.some.injEq] at created
        subst next
        refine ⟨allowed.1, rfl, ?_⟩
        intro other
        split
        · rename_i same
          rw [same]
          exact AList.lookup_insert _
        · rename_i different
          exact AList.lookup_insert_ne different
      · simp at created

theorem create_isSome {disk : Disk} {name : Name} {parent : Location} (node : Node)
    (fresh : disk.node? (name :: parent) = none) (above : disk.node? parent = some .dir)
    (valid : ValidName name) : (disk.create (name :: parent) node).isSome := by
  simp [create, fresh, above, valid]

theorem overwrite_spec {disk : Disk} {location : Location} (bytes : Bytes)
    (regular : disk.regular location = true) :
    (disk.overwrite location bytes).cwd = disk.cwd ∧
      ∀ other, (disk.overwrite location bytes).node? other =
        if other = location then some (.file bytes) else disk.node? other := by
  rw [overwrite, dif_pos regular]
  refine ⟨rfl, ?_⟩
  intro other
  split
  · rename_i same
    rw [same]
    exact AList.lookup_insert _
  · rename_i different
    exact AList.lookup_insert_ne different

theorem erase_some {disk next : Disk} {location : Location}
    (erased : disk.erase location = some next) :
    disk.children location = [] ∧ next.cwd = disk.cwd ∧
      ∀ other, next.node? other = if other = location then none else disk.node? other := by
  cases location with
  | nil => simp [erase] at erased
  | cons name parent =>
      simp only [erase] at erased
      split at erased
      · rename_i empty
        simp only [Option.some.injEq] at erased
        subst next
        refine ⟨empty, rfl, ?_⟩
        intro other
        split
        · rename_i same
          rw [same]
          exact AList.lookup_erase _ _
        · rename_i different
          exact AList.lookup_erase_ne different
      · simp at erased

theorem erase_eq_none_iff {disk : Disk} {name : Name} {parent : Location} :
    disk.erase (name :: parent) = none ↔ disk.children (name :: parent) ≠ [] := by
  simp [erase]

theorem erase_isSome {disk : Disk} {name : Name} {parent : Location}
    (empty : disk.children (name :: parent) = []) : (disk.erase (name :: parent)).isSome := by
  simp [erase, empty]

end Disk

end Posix
