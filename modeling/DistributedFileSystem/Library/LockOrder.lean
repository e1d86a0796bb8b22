import DistributedFileSystem.Library.Transition
import Mathlib.Algebra.BigOperators.Group.Finset.Basic
import Mathlib.Algebra.Order.BigOperators.Group.Finset
import Mathlib.Logic.Function.Basic
import Mathlib.Order.WellFounded

/-!
Tasks that share data under locks. When each takes its locks in rising order and gives all of
them back, no schedule ends with a task that waits for ever; and what a task alone works on
comes out as if the task had run alone.
-/

namespace LockOrder

open Transition

universe u v

/-- What a task does: `update` and `branch` are atomic. -/
inductive Program (Lock : Type u) (Data : Type v) where
  | done
  | acquire (lock : Lock) (next : Program Lock Data)
  | release (lock : Lock) (next : Program Lock Data)
  | update (change : Data → Data) (next : Program Lock Data)
  | branch (test : Data → Bool) (yes no : Program Lock Data)

variable {Task Lock Data Rank : Type*}

namespace Program

def size : Program Lock Data → Nat
  | .done => 0
  | .acquire _ next => next.size + 1
  | .release _ next => next.size + 1
  | .update _ next => next.size + 1
  | .branch _ yes no => max yes.size no.size + 1

/-- Locks are taken above those that are held, given back when held, and none is kept. -/
def Ordered [LT Rank] [DecidableEq Lock] (rank : Lock → Rank) :
    List Lock → Program Lock Data → Prop
  | held, .done => held = []
  | held, .acquire lock next =>
      (∀ other ∈ held, rank other < rank lock) ∧ Ordered rank (lock :: held) next
  | held, .release lock next => lock ∈ held ∧ Ordered rank (held.erase lock) next
  | held, .update _ next => Ordered rank held next
  | held, .branch _ yes no => Ordered rank held yes ∧ Ordered rank held no

def alone : Program Lock Data → Data → Data
  | .done, data => data
  | .acquire _ next, data => next.alone data
  | .release _ next, data => next.alone data
  | .update change next, data => next.alone (change data)
  | .branch test yes no, data => if test data then yes.alone data else no.alone data

def Sees {View : Type*} (view : Data → View) : Program Lock Data → Prop
  | .done => True
  | .acquire _ next => next.Sees view
  | .release _ next => next.Sees view
  | .update change next =>
      (∀ data other, view data = view other → view (change data) = view (change other)) ∧
        next.Sees view
  | .branch test yes no =>
      (∀ data other, view data = view other → test data = test other) ∧
        yes.Sees view ∧ no.Sees view

def Spares {View : Type*} (view : Data → View) : Program Lock Data → Prop
  | .done => True
  | .acquire _ next => next.Spares view
  | .release _ next => next.Spares view
  | .update change next => (∀ data, view (change data) = view data) ∧ next.Spares view
  | .branch _ yes no => yes.Spares view ∧ no.Spares view

def Raises (weight : Data → Nat) : Nat → Program Lock Data → Prop
  | _, .done => True
  | most, .acquire _ next => next.Raises weight most
  | most, .release _ next => next.Raises weight most
  | most, .update change next => ∃ now later, now + later ≤ most ∧
      (∀ data, weight (change data) ≤ weight data + now) ∧ next.Raises weight later
  | most, .branch _ yes no => yes.Raises weight most ∧ no.Raises weight most

theorem Sees.alone {View : Type*} {view : Data → View} {program : Program Lock Data}
    (sees : program.Sees view) {data other : Data} (same : view data = view other) :
    view (program.alone data) = view (program.alone other) := by
  induction program generalizing data other with
  | done => exact same
  | acquire _ _ ih => exact ih sees same
  | release _ _ ih => exact ih sees same
  | update change _ ih => exact ih sees.2 (sees.1 data other same)
  | branch test yes no ihYes ihNo =>
      simp only [Program.alone, sees.1 data other same]
      split
      · exact ihYes sees.2.1 same
      · exact ihNo sees.2.2 same

end Program

structure State (Task Lock Data : Type*) where
  owner : Lock → Option Task
  program : Task → Program Lock Data
  data : Data

section Steps

variable [DecidableEq Task] [DecidableEq Lock]

def step (state : State Task Lock Data) (task : Task) : Option (Unit × State Task Lock Data) :=
  match state.program task with
  | .done => none
  | .acquire lock next =>
      if state.owner lock = none then
        some ((), ⟨Function.update state.owner lock (some task),
          Function.update state.program task next, state.data⟩)
      else none
  | .release lock next =>
      some ((), ⟨Function.update state.owner lock none,
        Function.update state.program task next, state.data⟩)
  | .update change next =>
      some ((), { state with
        program := Function.update state.program task next
        data := change state.data })
  | .branch test yes no =>
      some ((), { state with
        program := Function.update state.program task (if test state.data then yes else no) })

def Orderly [LT Rank] (rank : Lock → Rank) (state : State Task Lock Data) : Prop :=
  ∃ held : Task → List Lock, ∀ task, (held task).Nodup ∧
    (state.program task).Ordered rank (held task) ∧
    ∀ lock, state.owner lock = some task ↔ lock ∈ held task

variable {state next : State Task Lock Data} {task : Task}

theorem step_cases (stepped : step state task = some ((), next)) :
    ∃ rest, next.program = Function.update state.program task rest ∧
      ((∃ lock, state.program task = .acquire lock rest ∧ state.owner lock = none ∧
          next.owner = Function.update state.owner lock (some task) ∧
          next.data = state.data) ∨
        (∃ lock, state.program task = .release lock rest ∧
          next.owner = Function.update state.owner lock none ∧ next.data = state.data) ∨
        (∃ change, state.program task = .update change rest ∧ next.owner = state.owner ∧
          next.data = change state.data) ∨
        ∃ test yes no, state.program task = .branch test yes no ∧
          (rest = if test state.data then yes else no) ∧ next.owner = state.owner ∧
          next.data = state.data) := by
  unfold step at stepped
  cases program : state.program task with
  | done => simp [program] at stepped
  | acquire lock rest =>
      simp only [program, Option.ite_none_right_eq_some, Option.some.injEq, Prod.mk.injEq,
        true_and] at stepped
      obtain ⟨free, rfl⟩ := stepped
      exact ⟨rest, rfl, Or.inl ⟨lock, rfl, free, rfl, rfl⟩⟩
  | release lock rest =>
      simp only [program, Option.some.injEq, Prod.mk.injEq, true_and] at stepped
      subst stepped
      exact ⟨rest, rfl, Or.inr (Or.inl ⟨lock, rfl, rfl, rfl⟩)⟩
  | update change rest =>
      simp only [program, Option.some.injEq, Prod.mk.injEq, true_and] at stepped
      subst stepped
      exact ⟨rest, rfl, Or.inr (Or.inr (Or.inl ⟨change, rfl, rfl, rfl⟩))⟩
  | branch test yes no =>
      simp only [program, Option.some.injEq, Prod.mk.injEq, true_and] at stepped
      subst stepped
      exact ⟨_, rfl, Or.inr (Or.inr (Or.inr ⟨test, yes, no, rfl, rfl, rfl, rfl⟩))⟩

theorem step_smaller (stepped : step state task = some ((), next)) :
    ∃ rest, next.program = Function.update state.program task rest ∧
      rest.size < (state.program task).size := by
  obtain ⟨rest, program, ⟨_, was, _⟩ | ⟨_, was, _⟩ | ⟨_, was, _⟩ | ⟨_, yes, no, was, picked, _⟩⟩ :=
    step_cases stepped
  all_goals refine ⟨rest, program, ?_⟩; rw [was, Program.size]
  · exact Nat.lt_succ_self _
  · exact Nat.lt_succ_self _
  · exact Nat.lt_succ_self _
  · rw [picked]
    split <;> omega

theorem waits_of_none (stuck : step state task = none) :
    state.program task = .done ∨ ∃ lock rest owner,
      state.program task = .acquire lock rest ∧ state.owner lock = some owner := by
  unfold step at stuck
  cases program : state.program task with
  | done => exact Or.inl rfl
  | acquire lock rest =>
      simp only [program, ite_eq_right_iff, reduceCtorEq, imp_false] at stuck
      obtain ⟨owner, owned⟩ := Option.ne_none_iff_exists'.mp stuck
      exact Or.inr ⟨lock, rest, owner, rfl, owned⟩
  | release lock rest => simp [program] at stuck
  | update change rest => simp [program] at stuck
  | branch test yes no => simp [program] at stuck

section Order

variable {rank : Lock → Rank}

/-- What the holder of one lock waits for is a lock above it, and so on: the last of them
has a holder that goes on. -/
theorem Orderly.progress [Preorder Rank] [WellFoundedGT Rank] (orderly : Orderly rank state)
    (unfinished : ∃ task, state.program task ≠ .done) : ∃ task, (step state task).isSome := by
  by_contra stuck
  simp only [not_exists, Option.not_isSome_iff_eq_none] at stuck
  obtain ⟨held, holds⟩ := orderly
  have unowned : ∀ level lock, rank lock = level → state.owner lock = none := by
    intro level
    induction level using WellFoundedGT.induction with
    | ind level ih =>
        rintro lock rfl
        by_contra owned
        obtain ⟨owner, owned⟩ := Option.ne_none_iff_exists'.mp owned
        obtain ⟨_, ordered, owns⟩ := holds owner
        have mine := (owns lock).mp owned
        rcases waits_of_none (stuck owner) with finished | ⟨wanted, rest, other, waits, taken⟩
        · rw [finished, Program.Ordered] at ordered
          simp [ordered] at mine
        · rw [waits, Program.Ordered] at ordered
          have free := ih (rank wanted) (ordered.1 lock mine) wanted rfl
          simp [taken] at free
  obtain ⟨task, ongoing⟩ := unfinished
  obtain ⟨lock, _, _, _, taken⟩ := (waits_of_none (stuck task)).resolve_left ongoing
  simp [unowned _ lock rfl] at taken

omit [DecidableEq Task] in
theorem Orderly.free [LT Rank] (orderly : Orderly rank state)
    (finished : ∀ task, state.program task = .done) (lock : Lock) : state.owner lock = none := by
  by_contra owned
  obtain ⟨owner, owned⟩ := Option.ne_none_iff_exists'.mp owned
  obtain ⟨held, holds⟩ := orderly
  obtain ⟨_, ordered, owns⟩ := holds owner
  rw [finished owner, Program.Ordered] at ordered
  have mine := (owns lock).mp owned
  simp [ordered] at mine

theorem Orderly.change [LT Rank] {held : Task → List Lock}
    (holds : ∀ other, (held other).Nodup ∧ (state.program other).Ordered rank (held other) ∧
      ∀ lock, state.owner lock = some other ↔ lock ∈ held other)
    {rest : Program Lock Data} {mine : List Lock} (nodup : mine.Nodup)
    (ordered : rest.Ordered rank mine)
    (program : next.program = Function.update state.program task rest)
    (own : ∀ lock, next.owner lock = some task ↔ lock ∈ mine)
    (others : ∀ other ≠ task, ∀ lock, next.owner lock = some other ↔
      state.owner lock = some other) : Orderly rank next := by
  refine ⟨Function.update held task mine, fun other => ?_⟩
  rw [program]
  by_cases same : other = task
  · subst same
    rw [Function.update_self, Function.update_self]
    exact ⟨nodup, ordered, own⟩
  · rw [Function.update_of_ne same, Function.update_of_ne same]
    obtain ⟨unique, orderedOther, owns⟩ := holds other
    exact ⟨unique, orderedOther, fun lock => (others other same lock).trans (owns lock)⟩

theorem Orderly.step [LT Rank] (orderly : Orderly rank state)
    (stepped : LockOrder.step state task = some ((), next)) : Orderly rank next := by
  obtain ⟨held, holds⟩ := orderly
  obtain ⟨nodup, ordered, owns⟩ := holds task
  obtain ⟨rest, program, ⟨lock, was, unowned, owner, _⟩ | ⟨lock, was, owner, _⟩ |
    ⟨change, was, owner, _⟩ | ⟨test, yes, no, was, picked, owner, _⟩⟩ := step_cases stepped
  all_goals rw [was, Program.Ordered] at ordered
  · have unheld : lock ∉ held task := fun mine => by
      rw [(owns lock).mpr mine] at unowned
      contradiction
    refine Orderly.change holds (List.nodup_cons.mpr ⟨unheld, nodup⟩) ordered.2 program ?_ ?_
    · intro other
      by_cases same : other = lock
      · simp [owner, same]
      · simp [owner, same, owns]
    · intro other different lock'
      by_cases same : lock' = lock
      · simp [owner, same, unowned, Ne.symm different]
      · simp [owner, same]
  · have owned := (owns lock).mpr ordered.1
    refine Orderly.change holds (nodup.erase lock) ordered.2 program ?_ ?_
    · intro other
      by_cases same : other = lock
      · simp [owner, same, nodup.not_mem_erase]
      · simp [owner, same, owns, List.mem_erase_of_ne same]
    · intro other different lock'
      by_cases same : lock' = lock
      · simp [owner, same, owned, Ne.symm different]
      · simp [owner, same]
  · exact Orderly.change holds nodup ordered program (owner ▸ owns) fun _ _ _ => by rw [owner]
  · have picking : rest.Ordered rank (held task) := by
      rw [picked]
      split
      · exact ordered.1
      · exact ordered.2
    exact Orderly.change holds nodup picking program (owner ▸ owns) fun _ _ _ => by rw [owner]

end Order

theorem step_idle {tasks : Finset Task} (idle : ∀ task ∉ tasks, state.program task = .done)
    (stepped : step state task = some ((), next)) :
    task ∈ tasks ∧ ∀ other ∉ tasks, next.program other = .done := by
  obtain ⟨rest, program, smaller⟩ := step_smaller stepped
  have member : task ∈ tasks := by
    by_contra absent
    simp [idle task absent, Program.size] at smaller
  refine ⟨member, fun other absent => ?_⟩
  have different : other ≠ task := fun same => absent (same ▸ member)
  rw [program, Function.update_of_ne different, idle other absent]

theorem run_size {tasks : Finset Task} {state final : State Task Lock Data}
    {schedule : List Task} {trace : List (Task × Unit)}
    (idle : ∀ task ∉ tasks, state.program task = .done)
    (ran : run step state schedule = some (trace, final)) :
    schedule.length + ∑ task ∈ tasks, (final.program task).size ≤
      ∑ task ∈ tasks, (state.program task).size := by
  induction schedule generalizing state trace with
  | nil =>
      obtain ⟨_, rfl⟩ := Prod.mk.inj (Option.some.inj ran)
      simp
  | cons task rest ih =>
      obtain ⟨_, next, _, stepped, finished, _⟩ := run_cons ran
      obtain ⟨member, still⟩ := step_idle idle stepped
      obtain ⟨later, program, smaller⟩ := step_smaller stepped
      have bound := ih still finished
      have less : ∑ other ∈ tasks, (next.program other).size <
          ∑ other ∈ tasks, (state.program other).size := by
        refine Finset.sum_lt_sum (fun other _ => ?_) ⟨task, member, ?_⟩
        · rw [program]
          by_cases same : other = task
          · subst same
            rw [Function.update_self]
            exact smaller.le
          · rw [Function.update_of_ne same]
        · rw [program, Function.update_self]
          exact smaller
      rw [List.length_cons]
      omega

section Weight

variable {weight : Data → Nat} {tasks : Finset Task} {budget : Task → Nat}

theorem step_weight (raises : ∀ task, (state.program task).Raises weight (budget task))
    (stepped : step state task = some ((), next)) : ∃ left,
      (∀ other, (next.program other).Raises weight (Function.update budget task left other)) ∧
        weight next.data + left ≤ weight state.data + budget task := by
  obtain ⟨rest, program, operation⟩ := step_cases stepped
  suffices spent : ∃ left, rest.Raises weight left ∧
      weight next.data + left ≤ weight state.data + budget task by
    obtain ⟨left, within, bound⟩ := spent
    refine ⟨left, fun other => ?_, bound⟩
    rw [program]
    by_cases own : other = task
    · subst own
      rw [Function.update_self, Function.update_self]
      exact within
    · rw [Function.update_of_ne own, Function.update_of_ne own]
      exact raises other
  have mine := raises task
  obtain ⟨_, was, _, _, data⟩ | ⟨_, was, _, data⟩ | ⟨_, was, _, data⟩ |
    ⟨test, yes, no, was, picked, _, data⟩ := operation
  all_goals rw [was, Program.Raises] at mine; rw [data]
  · exact ⟨_, mine, Nat.le_refl _⟩
  · exact ⟨_, mine, Nat.le_refl _⟩
  · obtain ⟨now, later, most, adds, rises⟩ := mine
    have added := adds state.data
    exact ⟨later, rises, by omega⟩
  · refine ⟨_, ?_, Nat.le_refl _⟩
    rw [picked]
    split
    · exact mine.1
    · exact mine.2

theorem run_weight {state final : State Task Lock Data} {schedule : List Task}
    {trace : List (Task × Unit)} (idle : ∀ task ∉ tasks, state.program task = .done)
    (raises : ∀ task, (state.program task).Raises weight (budget task))
    (ran : run step state schedule = some (trace, final)) :
    weight final.data ≤ weight state.data + ∑ task ∈ tasks, budget task := by
  induction schedule generalizing state trace budget with
  | nil =>
      obtain ⟨_, rfl⟩ := Prod.mk.inj (Option.some.inj ran)
      exact Nat.le_add_right _ _
  | cons task rest ih =>
      obtain ⟨_, next, _, stepped, finished, _⟩ := run_cons ran
      obtain ⟨member, still⟩ := step_idle idle stepped
      obtain ⟨left, risesOn, spent⟩ := step_weight raises stepped
      have later := ih still risesOn finished
      have others : ∑ other ∈ tasks.erase task, Function.update budget task left other =
          ∑ other ∈ tasks.erase task, budget other :=
        Finset.sum_congr rfl fun other among =>
          Function.update_of_ne (Finset.ne_of_mem_erase among) left budget
      rw [← Finset.add_sum_erase _ _ member, Function.update_self, others] at later
      rw [← Finset.add_sum_erase _ _ member]
      omega

end Weight

theorem run_orderly [LT Rank] {rank : Lock → Rank} {final : State Task Lock Data}
    {schedule : List Task} {trace : List (Task × Unit)} (orderly : Orderly rank state)
    (ran : run step state schedule = some (trace, final)) : Orderly rank final :=
  @run_invariant _ _ _ step (fun _ state => Orderly rank state)
    (fun _ _ _ _ _ orderly stepped => orderly.step stepped) _ [] _ _ _ orderly ran

section View

variable {View : Type*} {view : Data → View}

theorem step_effect (stepped : step state task = some ((), next)) :
    ∃ rest, next.program = Function.update state.program task rest ∧
      rest.alone next.data = (state.program task).alone state.data ∧
      ((state.program task).Sees view → rest.Sees view) ∧
      ((state.program task).Spares view →
        rest.Spares view ∧ view next.data = view state.data) := by
  obtain ⟨rest, program, ⟨_, was, _, _, data⟩ | ⟨_, was, _, data⟩ | ⟨_, was, _, data⟩ |
    ⟨test, yes, no, was, picked, _, data⟩⟩ := step_cases stepped
  all_goals refine ⟨rest, program, ?_⟩; rw [was, data]
  · exact ⟨rfl, id, fun spares => ⟨spares, rfl⟩⟩
  · exact ⟨rfl, id, fun spares => ⟨spares, rfl⟩⟩
  · exact ⟨rfl, And.right, fun spares => ⟨spares.2, spares.1 state.data⟩⟩
  · rw [picked, Program.alone]
    split
    · exact ⟨rfl, fun sees => sees.2.1, fun spares => ⟨spares.1, rfl⟩⟩
    · exact ⟨rfl, fun sees => sees.2.2, fun spares => ⟨spares.2, rfl⟩⟩

theorem step_alone (sees : (state.program task).Sees view)
    (spares : ∀ other ≠ task, (state.program other).Spares view) {mover : Task}
    (stepped : step state mover = some ((), next)) :
    view ((next.program task).alone next.data) =
        view ((state.program task).alone state.data) ∧
      (next.program task).Sees view ∧ ∀ other ≠ task, (next.program other).Spares view := by
  obtain ⟨rest, program, effect, seesOn, sparesOn⟩ := @step_effect _ _ _ _ _ _ _ _ _ view stepped
  rw [program]
  by_cases own : mover = task
  · subst own
    rw [Function.update_self, effect]
    refine ⟨rfl, seesOn sees, fun other different => ?_⟩
    rw [Function.update_of_ne different]
    exact spares other different
  · obtain ⟨sparing, same⟩ := sparesOn (spares mover own)
    rw [Function.update_of_ne (Ne.symm own)]
    refine ⟨sees.alone same, sees, fun other different => ?_⟩
    by_cases moved : other = mover
    · subst moved
      rw [Function.update_self]
      exact sparing
    · rw [Function.update_of_ne moved]
      exact spares other different

/-- A task that is done has made of its view what it would have made alone. -/
theorem run_alone {final : State Task Lock Data} {schedule : List Task}
    {trace : List (Task × Unit)} (sees : (state.program task).Sees view)
    (spares : ∀ other ≠ task, (state.program other).Spares view)
    (ran : run step state schedule = some (trace, final)) (finished : final.program task = .done) :
    view final.data = view ((state.program task).alone state.data) := by
  induction schedule generalizing state trace with
  | nil =>
      obtain ⟨_, rfl⟩ := Prod.mk.inj (Option.some.inj ran)
      rw [finished]
      rfl
  | cons mover rest ih =>
      obtain ⟨_, next, _, stepped, later, _⟩ := run_cons ran
      obtain ⟨same, seesOn, sparesOn⟩ := step_alone sees spares stepped
      rw [ih seesOn sparesOn later, same]

end View

end Steps

end LockOrder
