import Mathlib.Data.List.Perm.Basic
import Mathlib.Data.Set.Finite.Basic
import Mathlib.Logic.Function.Basic

/-!
A heap accounted for cell by cell: what a program has allocated since some point, each block
once, over a heap that it otherwise leaves as it was.
-/

namespace HeapCells

variable {Address Block : Type*}

/-- The heap holds the cells where `base` holds nothing, and is `base` elsewhere. -/
structure Ledger (base heap : Address → Option Block) (cells : List (Address × Block)) :
    Prop where
  nodup : (cells.map Prod.fst).Nodup
  unused : ∀ cell ∈ cells, base cell.1 = none
  holds : ∀ cell ∈ cells, heap cell.1 = some cell.2
  others : ∀ address, address ∉ cells.map Prod.fst → heap address = base address

namespace Ledger

variable {base heap : Address → Option Block} {cells more : List (Address × Block)}
  {address : Address} {block next : Block}

theorem empty (base : Address → Option Block) : Ledger base base [] :=
  ⟨List.nodup_nil, nofun, nofun, fun _ _ => rfl⟩

theorem eq_base (ledger : Ledger base heap []) : heap = base :=
  funext fun address => ledger.others address (by simp)

theorem eq_base_iff (ledger : Ledger base heap cells) : heap = base ↔ cells = [] := by
  constructor
  · rintro rfl
    refine List.eq_nil_iff_forall_not_mem.mpr fun cell member => ?_
    have held := ledger.holds cell member
    rw [ledger.unused cell member] at held
    contradiction
  · rintro rfl
    exact ledger.eq_base

theorem perm (ledger : Ledger base heap cells) (same : cells.Perm more) :
    Ledger base heap more where
  nodup := (same.map Prod.fst).nodup_iff.mp ledger.nodup
  unused cell member := ledger.unused cell (same.mem_iff.mpr member)
  holds cell member := ledger.holds cell (same.mem_iff.mpr member)
  others address absent :=
    ledger.others address fun member => absent ((same.map Prod.fst).mem_iff.mp member)

theorem base_eq_none (ledger : Ledger base heap cells) (free : heap address = none) :
    base address = none := by
  by_cases mine : address ∈ cells.map Prod.fst
  · obtain ⟨cell, member, rfl⟩ := List.mem_map.mp mine
    exact ledger.unused cell member
  · rw [← ledger.others address mine, free]

theorem notMem (ledger : Ledger base heap cells) (free : heap address = none) :
    address ∉ cells.map Prod.fst := by
  intro mine
  obtain ⟨cell, member, rfl⟩ := List.mem_map.mp mine
  simp [ledger.holds cell member] at free

/-- Finitely many cells leave room where `base` left room for infinitely many. -/
theorem exists_free (ledger : Ledger base heap cells)
    (room : {address | base address = none}.Infinite) : ∃ free, heap free = none := by
  obtain ⟨free, unused, absent⟩ := room.exists_notMem_finite (cells.map Prod.fst).finite_toSet
  exact ⟨free, (ledger.others free absent).trans unused⟩

theorem head (ledger : Ledger base heap ((address, block) :: cells)) :
    heap address = some block :=
  ledger.holds (address, block) List.mem_cons_self

theorem replace {after : Address → Option Block} {old new : List (Address × Block)}
    (ledger : Ledger base heap (old ++ cells))
    (covered : ∀ cell ∈ new, cell.1 ∈ old.map Prod.fst) (nodup : (new.map Prod.fst).Nodup)
    (filled : ∀ cell ∈ new, after cell.1 = some cell.2)
    (cleared : ∀ address ∈ old.map Prod.fst, address ∉ new.map Prod.fst → after address = none)
    (same : ∀ address, address ∉ old.map Prod.fst → after address = heap address) :
    Ledger base after (new ++ cells) := by
  have split := ledger.nodup
  rw [List.map_append, List.nodup_append] at split
  have apart : ∀ cell ∈ cells, cell.1 ∉ old.map Prod.fst := fun cell member mine =>
    split.2.2 cell.1 mine cell.1 (List.mem_map_of_mem member) rfl
  have inside : ∀ address ∈ new.map Prod.fst, address ∈ old.map Prod.fst := by
    rw [List.forall_mem_map]
    exact covered
  refine ⟨?_, ?_, ?_, ?_⟩
  · rw [List.map_append, List.nodup_append]
    refine ⟨nodup, split.2.1, ?_⟩
    rintro address mine other theirs rfl
    exact split.2.2 address (inside address mine) address theirs rfl
  · rw [List.forall_mem_append]
    refine ⟨?_, fun cell member => ledger.unused cell (List.mem_append_right old member)⟩
    intro cell member
    obtain ⟨was, listed, at_address⟩ := List.mem_map.mp (covered cell member)
    rw [← at_address]
    exact ledger.unused was (List.mem_append_left cells listed)
  · rw [List.forall_mem_append]
    refine ⟨filled, ?_⟩
    intro cell member
    rw [same cell.1 (apart cell member), ledger.holds cell (List.mem_append_right old member)]
  · intro address unlisted
    rw [List.map_append, List.mem_append, not_or] at unlisted
    by_cases mine : address ∈ old.map Prod.fst
    · obtain ⟨was, listed, rfl⟩ := List.mem_map.mp mine
      rw [cleared was.1 mine unlisted.1, ledger.unused was (List.mem_append_left cells listed)]
    · rw [same address mine]
      apply ledger.others
      rw [List.map_append, List.mem_append, not_or]
      exact ⟨mine, unlisted.2⟩

section Changes

variable [DecidableEq Address]

theorem allocate (ledger : Ledger base heap cells) (free : heap address = none) (block : Block) :
    Ledger base (Function.update heap address (some block)) ((address, block) :: cells) := by
  have absent := ledger.notMem free
  refine ⟨List.nodup_cons.mpr ⟨absent, ledger.nodup⟩, ?_, ?_, ?_⟩
  · rw [List.forall_mem_cons]
    exact ⟨ledger.base_eq_none free, ledger.unused⟩
  · rw [List.forall_mem_cons]
    refine ⟨Function.update_self .., ?_⟩
    intro cell member
    have other : cell.1 ≠ address := fun same => absent (same ▸ List.mem_map_of_mem member)
    rw [Function.update_of_ne other, ledger.holds cell member]
  · intro elsewhere unlisted
    rw [List.map_cons, List.mem_cons, not_or] at unlisted
    rw [Function.update_of_ne unlisted.1, ledger.others elsewhere unlisted.2]

theorem store (ledger : Ledger base heap ((address, block) :: cells)) (next : Block) :
    Ledger base (Function.update heap address (some next)) ((address, next) :: cells) := by
  refine @replace _ _ base heap cells _ [(address, block)] [(address, next)] ledger ?_ ?_ ?_ ?_ ?_
  · simp
  · simp
  · simp
  · simp
  · intro other different
    exact Function.update_of_ne (by simpa using different) ..

theorem free (ledger : Ledger base heap ((address, block) :: cells)) :
    Ledger base (Function.update heap address none) cells := by
  refine @replace _ _ base heap cells _ [(address, block)] [] ledger ?_ ?_ ?_ ?_ ?_
  · simp
  · simp
  · simp
  · simp
  · intro other different
    exact Function.update_of_ne (by simpa using different) ..

theorem move {moved : Address} (ledger : Ledger base heap ((address, block) :: cells))
    (unused : address = moved ∨ heap moved = none) (next : Block) :
    Ledger base (Function.update (Function.update heap address none) moved (some next))
      ((moved, next) :: cells) := by
  refine ledger.free.allocate ?_ next
  rcases unused with rfl | free
  · exact Function.update_self ..
  · by_cases same : moved = address
    · rw [same, Function.update_self]
    · rw [Function.update_of_ne same, free]

theorem release (ledger : Ledger base heap (cells ++ more)) :
    Ledger base (fun address => if address ∈ cells.map Prod.fst then none else heap address)
      more := by
  refine @replace _ _ base heap more _ cells [] ledger nofun List.nodup_nil nofun ?_ ?_
  · intro address member _
    exact if_pos member
  · intro address absent
    exact if_neg absent

end Changes

end Ledger

end HeapCells
