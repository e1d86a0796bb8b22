import DistributedFileSystem.Library.Transition

/-!
One system that follows another: programs with a state that may leave defined behaviour,
and the runs of steps made of them.
-/

namespace Transition

universe u v

section Programs

variable {State Other Result Later : Type u}

def Follows (related : State → Other → Prop) (program : StateT State Option Result)
    (other : StateT Other Option Result) : Prop :=
  ∀ state mirror result next, related state mirror → program state = some (result, next) →
    ∃ after, other mirror = some (result, after) ∧ related next after

variable {related : State → Other → Prop}

theorem Follows.pure (result : Result) :
    Follows related (Pure.pure result) (Pure.pure result) := by
  intro state mirror found next both ran
  obtain ⟨rfl, rfl⟩ := Prod.mk.inj (Option.some.inj ran)
  exact ⟨mirror, rfl, both⟩

theorem Follows.bind {first : StateT State Option Result} {mirrorFirst : StateT Other Option Result}
    {rest : Result → StateT State Option Later} {mirrorRest : Result → StateT Other Option Later}
    (begins : Follows related first mirrorFirst)
    (goesOn : ∀ result, Follows related (rest result) (mirrorRest result)) :
    Follows related (first >>= rest) (mirrorFirst >>= mirrorRest) := by
  intro state mirror last final both ran
  obtain ⟨⟨result, next⟩, ranFirst, ranRest⟩ := Option.bind_eq_some_iff.mp ran
  obtain ⟨after, mirrored, still⟩ := begins state mirror result next both ranFirst
  obtain ⟨finish, done, kept⟩ := goesOn result next after last final still ranRest
  refine ⟨finish, ?_, kept⟩
  change (mirrorFirst mirror).bind _ = _
  rw [mirrored]
  exact done

end Programs

variable {State Other Action Seen Output Shown : Type*}

/-- A run of one system, seen as a run of the other. -/
theorem run_simulated {step : State → Action → Option (Output × State)}
    {model : Other → Seen → Option (Shown × Other)} {related : State → Other → Prop}
    {see : Action × Output → Seen} {shown : Action × Output → Shown}
    (keeps : ∀ state other action output next, related state other →
      step state action = some (output, next) →
      ∃ after, model other (see (action, output)) = some (shown (action, output), after) ∧
        related next after)
    {actions : List Action} {trace : List (Action × Output)} {state final : State} {other : Other}
    (initially : related state other) (ran : run step state actions = some (trace, final)) :
    ∃ last, run model other (trace.map see) =
        some (trace.map fun entry => (see entry, shown entry), last) ∧ related final last := by
  induction actions generalizing state other trace with
  | nil =>
      obtain ⟨rfl, rfl⟩ := Prod.mk.inj (Option.some.inj ran)
      exact ⟨other, rfl, initially⟩
  | cons action rest ih =>
      obtain ⟨output, next, tail, stepped, finished, rfl⟩ := run_cons ran
      obtain ⟨after, mirrored, still⟩ := keeps state other action output next initially stepped
      obtain ⟨last, followed, kept⟩ := ih still finished
      exact ⟨last, run_cons_of_step mirrored followed, kept⟩

theorem run_cons_eq (step : State → Action → Option (Output × State)) (state : State)
    (action : Action) (rest : List Action) : run step state (action :: rest) =
      (step state action).bind fun (output, next) =>
        (run step next rest).map fun (trace, final) => ((action, output) :: trace, final) := by
  rw [run]
  cases step state action <;> rfl

/-- A run of which one sees a part of each output and of the last state. -/
theorem run_cons_seen {Last : Type*} (step : State → Action → Option (Output × State))
    (see : Output → Shown) (seeLast : State → Last) (state : State) (action : Action)
    (rest : List Action) :
    (run step state (action :: rest)).map (fun ended : List (Action × Output) × State =>
        (ended.1.map fun entry => (entry.1, see entry.2), seeLast ended.2)) =
      ((step state action).map fun (output, next) => (see output, next)).bind fun (shown, next) =>
        ((run step next rest).map fun ended : List (Action × Output) × State =>
          (ended.1.map fun entry => (entry.1, see entry.2), seeLast ended.2)).map
            fun (trace, last) => ((action, shown) :: trace, last) := by
  rw [run_cons_eq]
  cases step state action with
  | none => rfl
  | some result =>
      simp only [Option.bind_some, Option.map_some, Option.map_map]
      rfl

/-- A system that stops being defined where an output fails a check. -/
theorem run_filter (step : State → Action → Option (Output × State)) (check : Output → Bool)
    (state : State) (actions : List Action) :
    run (fun state action => (step state action).filter fun result => check result.1) state
        actions =
      (run step state actions).filter fun ended => ended.1.all fun entry => check entry.2 := by
  induction actions generalizing state with
  | nil => rfl
  | cons action rest ih =>
      rw [run_cons_eq, run_cons_eq]
      cases step state action with
      | none => rfl
      | some result =>
          obtain ⟨output, next⟩ := result
          by_cases passes : check output = true
          · simp [ih, Option.filter_some, Option.filter_map, Function.comp_def, passes]
          · simp [Option.filter_some, Option.filter_map, Function.comp_def, passes]

end Transition
