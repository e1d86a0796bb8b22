import Mathlib.Data.List.Basic

/-! Loops over a list that may stop early: what holds when they come through. -/

namespace Folds

variable {State Item Stop : Type} {step : State → Item → Except Stop State}

theorem foldlM_keeps {holds : State → Prop} {items : List Item} {start final : State}
    (keeps : ∀ before item after, item ∈ items → step before item = .ok after →
      holds before → holds after)
    (ran : items.foldlM step start = .ok final) (initial : holds start) : holds final := by
  induction items generalizing start with
  | nil =>
      obtain rfl := Except.ok.inj ran
      exact initial
  | cons item items ih =>
      rw [List.foldlM_cons] at ran
      cases turn : step start item with
      | error stop => rw [turn] at ran; contradiction
      | ok next =>
          rw [turn] at ran
          exact ih (fun before other after member => keeps before other after
            (List.mem_cons_of_mem item member)) ran
            (keeps start item next List.mem_cons_self turn initial)

theorem foldlM_forall {holds : State → Item → Prop} {items : List Item} {start final : State}
    (makes : ∀ before item after, item ∈ items → step before item = .ok after → holds after item)
    (keeps : ∀ before item after other, step before item = .ok after → holds before other →
      holds after other)
    (ran : items.foldlM step start = .ok final) : ∀ item ∈ items, holds final item := by
  induction items generalizing start with
  | nil => simp
  | cons item items ih =>
      rw [List.foldlM_cons] at ran
      cases turn : step start item with
      | error stop => rw [turn] at ran; contradiction
      | ok next =>
          rw [turn] at ran
          rw [List.forall_mem_cons]
          constructor
          · exact @foldlM_keeps _ _ _ step (fun state => holds state item) items next final
              (fun before other after _ => keeps before other after item) ran
              (makes start item next List.mem_cons_self turn)
          · exact ih (fun before other after member => makes before other after
              (List.mem_cons_of_mem item member)) ran

/-- What the turns add to an output, if all of them leave the state good. -/
theorem foldlM_collects {Output : Type} {output : State → List Output} {out : Item → List Output}
    {good : State → Prop} {items : List Item} {start final : State}
    (collects : ∀ before item after, item ∈ items → step before item = .ok after → good after →
      good before ∧ output after = output before ++ out item)
    (ran : items.foldlM step start = .ok final) (ended : good final) :
    good start ∧ output final = output start ++ items.flatMap out := by
  induction items generalizing start with
  | nil =>
      obtain rfl := Except.ok.inj ran
      exact ⟨ended, by simp⟩
  | cons item items ih =>
      rw [List.foldlM_cons] at ran
      cases turn : step start item with
      | error stop => rw [turn] at ran; contradiction
      | ok next =>
          rw [turn] at ran
          obtain ⟨between, rest⟩ := ih (fun before other after member => collects before other after
            (List.mem_cons_of_mem item member)) ran
          obtain ⟨initial, own⟩ := collects start item next List.mem_cons_self turn between
          refine ⟨initial, ?_⟩
          rw [rest, own, List.flatMap_cons, List.append_assoc]

end Folds
