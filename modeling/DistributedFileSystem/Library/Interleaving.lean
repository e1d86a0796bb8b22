import DistributedFileSystem.Library.Transition

/-! Runs in which the actions of many parties interleave, where each party has a part of
the state that no other touches: a party sees its own actions alone. -/

namespace Transition

variable {State Action Output Party Part Item : Type*} [DecidableEq Party]

/-- How a step looks to its party: `move` gives the party's part after it, `emit` what it
puts out, from the party's part before it; the parts of the others stay. -/
structure Separate (step : State → Action → Option (Output × State)) (party : Action → Party)
    (part : State → Party → Part) (move : Part → Action → Part) (items : Output → List Item)
    (emit : Part → Action → List Item) : Prop where
  own : ∀ {state action output next}, step state action = some (output, next) →
    part next (party action) = move (part state (party action)) action
  others : ∀ {state action output next}, step state action = some (output, next) →
    ∀ other, other ≠ party action → part next other = part state other
  emits : ∀ {state action output next}, step state action = some (output, next) →
    items output = emit (part state (party action)) action

def alone (move : Part → Action → Part) (emit : Part → Action → List Item) :
    Part → List Action → List Item
  | _, [] => []
  | mine, action :: rest => emit mine action ++ alone move emit (move mine action) rest

def ofParty (party : Action → Party) (who : Party) (actions : List Action) : List Action :=
  actions.filter fun action => party action = who

def itemsOf (party : Action → Party) (items : Output → List Item) (who : Party)
    (trace : List (Action × Output)) : List Item :=
  (trace.filter fun entry => party entry.1 = who).flatMap fun entry => items entry.2

variable {step : State → Action → Option (Output × State)} {party : Action → Party}
  {part : State → Party → Part} {move : Part → Action → Part} {items : Output → List Item}
  {emit : Part → Action → List Item}

theorem itemsOf_eq_alone (separate : Separate step party part move items emit)
    {state final : State} {actions : List Action} {trace : List (Action × Output)}
    (ran : run step state actions = some (trace, final)) (who : Party) :
    itemsOf party items who trace = alone move emit (part state who) (ofParty party who actions) := by
  induction actions generalizing state trace with
  | nil =>
      obtain ⟨rfl, _⟩ := Prod.mk.inj (Option.some.inj ran)
      rfl
  | cons action rest ih =>
      obtain ⟨output, next, tail, stepped, finished, rfl⟩ := run_cons ran
      have later := ih finished
      unfold itemsOf ofParty at later ⊢
      by_cases mine : party action = who
      · subst mine
        rw [separate.own stepped] at later
        rw [List.filter_cons_of_pos (by simp), List.filter_cons_of_pos (by simp), alone,
          List.flatMap_cons, separate.emits stepped, later]
      · rw [separate.others stepped who (Ne.symm mine)] at later
        rw [List.filter_cons_of_neg (by simpa using mine),
          List.filter_cons_of_neg (by simpa using mine), later]

/-- Only what `move` and `emit` see of the actions counts. -/
theorem alone_map {Seen : Type*} {see : Action → Seen} {move' : Part → Seen → Part}
    {emit' : Part → Seen → List Item} {actions : List Action}
    (moves : ∀ mine, ∀ action ∈ actions, move mine action = move' mine (see action))
    (emits : ∀ mine, ∀ action ∈ actions, emit mine action = emit' mine (see action))
    (mine : Part) : alone move emit mine actions = alone move' emit' mine (actions.map see) := by
  induction actions generalizing mine with
  | nil => rfl
  | cons action rest ih =>
      have later := ih (fun mine other member => moves mine other (List.mem_cons_of_mem _ member))
        fun mine other member => emits mine other (List.mem_cons_of_mem _ member)
      rw [alone, later, moves mine action List.mem_cons_self, emits mine action List.mem_cons_self]
      rfl

theorem run_isSome (total : ∀ state action, (step state action).isSome) (state : State)
    (actions : List Action) : (run step state actions).isSome := by
  induction actions generalizing state with
  | nil => rfl
  | cons action rest ih =>
      obtain ⟨⟨output, next⟩, stepped⟩ := Option.isSome_iff_exists.mp (total state action)
      simp [run, stepped, ih]

end Transition
