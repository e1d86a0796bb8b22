import Mathlib.Data.List.Basic

/-!
Runs of a system whose steps return an output and may be undefined, and the
rules that lift facts about one step to facts about a whole run.
-/

namespace Transition

variable {State Action Output : Type*}

def run (step : State → Action → Option (Output × State)) :
    State → List Action → Option (List (Action × Output) × State)
  | state, [] => some ([], state)
  | state, action :: rest =>
      match step state action with
      | none => none
      | some (output, next) =>
          (run step next rest).map fun (trace, final) => ((action, output) :: trace, final)

def Always (step : State → Action → Option (Output × State)) (property : State → Prop) :
    State → List Action → Prop
  | _, [] => True
  | state, action :: rest =>
      ∃ output next, step state action = some (output, next) ∧ property next ∧
        Always step property next rest

def Guarded (step : State → Action → Option (Output × State)) (guard : State → Action → Prop) :
    State → List Action → Prop
  | _, [] => True
  | state, action :: rest =>
      guard state action ∧
        ∀ output next, step state action = some (output, next) → Guarded step guard next rest

variable {step : State → Action → Option (Output × State)}

theorem run_cons_of_step {state next : State} {action : Action} {output : Output}
    {rest : List Action} {trace : List (Action × Output)} {final : State}
    (stepped : step state action = some (output, next))
    (finished : run step next rest = some (trace, final)) :
    run step state (action :: rest) = some ((action, output) :: trace, final) := by
  simp [run, stepped, finished]

theorem run_cons {state final : State} {action : Action} {rest : List Action}
    {trace : List (Action × Output)}
    (ran : run step state (action :: rest) = some (trace, final)) :
    ∃ output next tail, step state action = some (output, next) ∧
      run step next rest = some (tail, final) ∧ trace = (action, output) :: tail := by
  simp only [run] at ran
  split at ran
  · simp at ran
  · rename_i output next stepped
    obtain ⟨⟨tail, last⟩, finished, same⟩ := Option.map_eq_some_iff.mp ran
    simp only [Prod.mk.injEq] at same
    exact ⟨output, next, tail, stepped, by rw [finished, same.2], same.1.symm⟩

theorem run_append (earlier later : List Action) (state : State) :
    run step state (earlier ++ later) =
      (run step state earlier).bind fun (trace, middle) =>
        (run step middle later).map fun (rest, final) => (trace ++ rest, final) := by
  induction earlier generalizing state with
  | nil => simp [run]
  | cons action earlier ih =>
      simp only [List.cons_append, run]
      cases step state action with
      | none => rfl
      | some result =>
          simp only [ih, Option.map_bind, Option.bind_map, Function.comp_def, Option.map_map,
            List.cons_append]

theorem run_concat {state middle next : State} {actions : List Action} {action : Action}
    {output : Output} {trace : List (Action × Output)}
    (ran : run step state actions = some (trace, middle))
    (stepped : step middle action = some (output, next)) :
    run step state (actions ++ [action]) = some (trace ++ [(action, output)], next) := by
  rw [run_append, ran]
  simp [run, stepped]

theorem run_history {guard : State → Action → Prop}
    {invariant : List (Action × Output) → State → Prop}
    (keeps : ∀ history state action, invariant history state → guard state action →
      ∃ output next, step state action = some (output, next) ∧
        invariant (history ++ [(action, output)]) next)
    (actions : List Action) (history : List (Action × Output)) (state : State)
    (initially : invariant history state) (guarded : Guarded step guard state actions) :
    ∃ trace final, run step state actions = some (trace, final) ∧
      invariant (history ++ trace) final := by
  induction actions generalizing history state with
  | nil => exact ⟨[], state, rfl, by simpa using initially⟩
  | cons action rest ih =>
      obtain ⟨output, next, stepped, kept⟩ := keeps history state action initially guarded.1
      obtain ⟨trace, final, finished, holds⟩ := ih _ next kept (guarded.2 output next stepped)
      refine ⟨_, final, run_cons_of_step stepped finished, ?_⟩
      simpa using holds

theorem run_invariant {invariant : List (Action × Output) → State → Prop}
    (keeps : ∀ history state action output next, invariant history state →
      step state action = some (output, next) → invariant (history ++ [(action, output)]) next)
    {actions : List Action} {history trace : List (Action × Output)} {state final : State}
    (initially : invariant history state) (ran : run step state actions = some (trace, final)) :
    invariant (history ++ trace) final := by
  induction actions generalizing history state trace with
  | nil =>
      obtain ⟨rfl, rfl⟩ := Prod.mk.inj (Option.some.inj ran)
      simpa using initially
  | cons action rest ih =>
      obtain ⟨output, next, tail, stepped, finished, rfl⟩ := run_cons ran
      have kept := ih (keeps history state action output next initially stepped) finished
      simpa using kept

theorem Guarded.front {guard : State → Action → Prop} {earlier later : List Action}
    {state : State} (guarded : Guarded step guard state (earlier ++ later)) :
    Guarded step guard state earlier := by
  induction earlier generalizing state with
  | nil => trivial
  | cons action earlier ih =>
      exact ⟨guarded.1, fun output next stepped => ih (guarded.2 output next stepped)⟩

theorem Guarded.imp {guard other : State → Action → Prop} {actions : List Action} {state : State}
    (guarded : Guarded step guard state actions)
    (weaken : ∀ state, ∀ action ∈ actions, guard state action → other state action) :
    Guarded step other state actions := by
  induction actions generalizing state with
  | nil => trivial
  | cons action rest ih =>
      refine ⟨weaken state action (by simp) guarded.1, ?_⟩
      intro output next stepped
      exact ih (guarded.2 output next stepped)
        fun state other member => weaken state other (by simp [member])

/-- Two guards that agree in invariant states bound the same runs. -/
theorem guarded_iff_guarded {guard other : State → Action → Prop} {invariant : State → Prop}
    {allowed : Action → Prop}
    (same : ∀ state action, invariant state → allowed action →
      (guard state action ↔ other state action))
    (keeps : ∀ state action output next, invariant state → allowed action → other state action →
      step state action = some (output, next) → invariant next)
    (actions : List Action) (state : State) (initially : invariant state)
    (domain : ∀ action ∈ actions, allowed action) :
    Guarded step guard state actions ↔ Guarded step other state actions := by
  induction actions generalizing state with
  | nil => exact Iff.rfl
  | cons action rest ih =>
      have first := domain action (by simp)
      simp only [Guarded, same state action initially first]
      refine and_congr_right fun passes => ?_
      refine forall_congr' fun output => forall_congr' fun next => forall_congr' fun stepped => ?_
      exact ih next (keeps state action output next initially first passes stepped)
        fun other member => domain other (by simp [member])

theorem guarded_of_invariant {guard : State → Action → Prop} {invariant : State → Prop}
    {allowed : Action → Prop}
    (gives : ∀ state action, invariant state → allowed action → guard state action)
    (keeps : ∀ state action output next, invariant state → allowed action →
      step state action = some (output, next) → invariant next)
    (actions : List Action) (state : State) (initially : invariant state)
    (domain : ∀ action ∈ actions, allowed action) : Guarded step guard state actions := by
  induction actions generalizing state with
  | nil => trivial
  | cons action rest ih =>
      have first := domain action (by simp)
      refine ⟨gives state action initially first, ?_⟩
      intro output next stepped
      exact ih next (keeps state action output next initially first stepped)
        fun other member => domain other (by simp [member])

theorem Guarded.back {guard : State → Action → Prop} {earlier later : List Action}
    {state middle : State} {trace : List (Action × Output)}
    (guarded : Guarded step guard state (earlier ++ later))
    (ran : run step state earlier = some (trace, middle)) : Guarded step guard middle later := by
  induction earlier generalizing state trace with
  | nil =>
      obtain ⟨_, rfl⟩ := Prod.mk.inj (Option.some.inj ran)
      exact guarded
  | cons action earlier ih =>
      obtain ⟨output, next, _, stepped, finished, _⟩ := run_cons ran
      exact ih (guarded.2 output next stepped) finished

def Throughout (property : List (Action × Output) → Action × Output → Prop)
    (trace : List (Action × Output)) : Prop :=
  ∀ earlier event later, trace = earlier ++ event :: later → property earlier event

theorem Throughout.concat {property : List (Action × Output) → Action × Output → Prop}
    {trace : List (Action × Output)} {event : Action × Output}
    (before : Throughout property trace) (last : property trace event) :
    Throughout property (trace ++ [event]) := by
  intro earlier other later split
  rcases List.eq_nil_or_concat' later with rfl | ⟨front, final, rfl⟩
  · obtain ⟨rfl, same⟩ := List.append_inj' split rfl
    rwa [← (List.cons.inj same).1]
  · rw [← List.cons_append, ← List.append_assoc] at split
    exact before earlier other front (List.append_inj' split rfl).1

theorem run_throughout {guard : State → Action → Prop}
    {invariant : List (Action × Output) → State → Prop}
    {property : List (Action × Output) → Action × Output → Prop}
    (keeps : ∀ history state action, invariant history state → guard state action →
      ∃ output next, step state action = some (output, next) ∧
        invariant (history ++ [(action, output)]) next ∧ property history (action, output))
    (actions : List Action) (state : State) (initially : invariant [] state)
    (guarded : Guarded step guard state actions) :
    ∃ trace final, run step state actions = some (trace, final) ∧ invariant trace final ∧
      Throughout property trace := by
  refine @run_history _ _ _ step guard
    (fun history state => invariant history state ∧ Throughout property history)
    ?_ actions [] state ⟨initially, ?_⟩ guarded
  · rintro history state action ⟨holds, before⟩ allowed
    obtain ⟨output, next, stepped, kept, last⟩ := keeps history state action holds allowed
    exact ⟨output, next, stepped, kept, before.concat last⟩
  · intro earlier event later split
    simp at split

/-- When the guard decides, from invariant states, whether a step is defined and
establishes the property, it decides it for whole runs. -/
theorem always_iff_guarded {allowed : Action → Prop} {guard : State → Action → Prop}
    {invariant property : State → Prop}
    (keeps : ∀ state action, invariant state → allowed action → guard state action →
      ∃ output next, step state action = some (output, next) ∧ invariant next ∧ property next)
    (breaks : ∀ state action, invariant state → allowed action → ¬guard state action →
      ¬∃ output next, step state action = some (output, next) ∧ property next)
    (actions : List Action) (state : State) (initially : invariant state)
    (domain : ∀ action ∈ actions, allowed action) :
    Always step property state actions ↔ Guarded step guard state actions := by
  induction actions generalizing state with
  | nil => simp [Always, Guarded]
  | cons action rest ih =>
      have first := domain action (by simp)
      have later : ∀ other ∈ rest, allowed other := fun other member => domain other (by simp [member])
      constructor
      · rintro ⟨output, next, stepped, holds, tail⟩
        have passes : guard state action := by
          by_contra fails
          exact breaks state action initially first fails ⟨output, next, stepped, holds⟩
        obtain ⟨_, _, again, kept, _⟩ := keeps state action initially first passes
        refine ⟨passes, ?_⟩
        intro _ _ stepped'
        obtain ⟨rfl, rfl⟩ : _ ∧ _ := by simpa [stepped] using stepped'
        obtain ⟨rfl, rfl⟩ : _ ∧ _ := by simpa [stepped] using again
        exact (ih next kept later).mp tail
      · rintro ⟨passes, tail⟩
        obtain ⟨output, next, stepped, kept, holds⟩ := keeps state action initially first passes
        exact ⟨output, next, stepped, holds, (ih next kept later).mpr (tail output next stepped)⟩

/-- The same for the runs that are defined, when the guard decides the property alone. -/
theorem always_iff_guarded_of_run {guard : State → Action → Prop}
    {invariant property : State → Prop}
    (keeps : ∀ state action output next, invariant state →
      step state action = some (output, next) → guard state action →
        invariant next ∧ property next)
    (breaks : ∀ state action output next, invariant state →
      step state action = some (output, next) → ¬guard state action → ¬property next)
    {actions : List Action} {state final : State} {trace : List (Action × Output)}
    (initially : invariant state) (ran : run step state actions = some (trace, final)) :
    Always step property state actions ↔ Guarded step guard state actions := by
  induction actions generalizing state trace with
  | nil => simp [Always, Guarded]
  | cons action rest ih =>
      obtain ⟨output, next, tail, stepped, finished, _⟩ := run_cons ran
      constructor
      · rintro ⟨output', next', again, holds, later⟩
        obtain ⟨rfl, rfl⟩ : _ ∧ _ := by simpa [stepped] using again
        have passes : guard state action := by
          by_contra fails
          exact breaks state action output next initially stepped fails holds
        refine ⟨passes, ?_⟩
        intro output' next' again
        obtain ⟨rfl, rfl⟩ : _ ∧ _ := by simpa [stepped] using again
        exact (ih (keeps state action output next initially stepped passes).1 finished).mp later
      · rintro ⟨passes, later⟩
        obtain ⟨kept, holds⟩ := keeps state action output next initially stepped passes
        exact ⟨output, next, stepped, holds,
          (ih kept finished).mpr (later output next stepped)⟩

theorem Always.final {property : State → Prop} {actions : List Action} {state : State}
    (always : Always step property state actions) (nonempty : actions ≠ []) :
    ∃ trace last, run step state actions = some (trace, last) ∧ property last := by
  induction actions generalizing state with
  | nil => exact absurd rfl nonempty
  | cons action rest ih =>
      obtain ⟨output, next, stepped, holds, tail⟩ := always
      by_cases ended : rest = []
      · subst rest
        exact ⟨_, next, run_cons_of_step stepped rfl, holds⟩
      · obtain ⟨trace, last, finished, kept⟩ := ih tail ended
        exact ⟨_, last, run_cons_of_step stepped finished, kept⟩

theorem Always.keeps {property kept : State → Prop} {actions : List Action} {state final : State}
    {trace : List (Action × Output)} (always : Always step property state actions)
    (keep : ∀ state action output next, kept state → step state action = some (output, next) →
      property next → kept next)
    (initially : kept state) (ran : run step state actions = some (trace, final)) : kept final := by
  induction actions generalizing state trace with
  | nil =>
      obtain ⟨_, rfl⟩ := Prod.mk.inj (Option.some.inj ran)
      exact initially
  | cons action rest ih =>
      obtain ⟨output, next, stepped, holds, tail⟩ := always
      obtain ⟨_, _, _, again, finished, _⟩ := run_cons ran
      obtain ⟨rfl, rfl⟩ : _ ∧ _ := by simpa [stepped] using again
      exact ih tail (keep _ _ _ _ initially stepped holds) finished

theorem Always.guarded {property : State → Prop} {actions : List Action} {state : State}
    (always : Always step property state actions) (initially : property state) (last : Action) :
    Guarded step (fun state _ => property state) state (actions ++ [last]) := by
  induction actions generalizing state with
  | nil => exact ⟨initially, fun _ _ _ => trivial⟩
  | cons action rest ih =>
      obtain ⟨output, next, stepped, holds, tail⟩ := always
      refine ⟨initially, ?_⟩
      intro output' next' again
      obtain ⟨rfl, rfl⟩ : _ ∧ _ := by simpa [stepped] using again
      exact ih tail holds

theorem always_true_iff_run (actions : List Action) (state : State) :
    Always step (fun _ => True) state actions ↔ (run step state actions).isSome := by
  induction actions generalizing state with
  | nil => simp [Always, run]
  | cons action rest ih =>
      simp only [Always, run, true_and]
      cases stepped : step state action with
      | none => simp
      | some result =>
          obtain ⟨output, next⟩ := result
          simp [ih]

end Transition
