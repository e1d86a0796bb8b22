import Mathlib.Data.List.Basic

/-! Attempts that are made in a given order up to the first that fails. Whether one
succeeds may depend on all that were made before it. -/

namespace FirstFailure

variable {Attempt : Type*} (succeeds : List Attempt → Prop) [DecidablePred succeeds]

def attemptAll (made : List Attempt) : List Attempt → List Attempt × Bool
  | [] => (made, true)
  | next :: rest =>
      if succeeds (made ++ [next]) then attemptAll (made ++ [next]) rest
      else (made ++ [next], false)

def SucceedsAt (attempts : List Attempt) (i : Nat) : Prop := succeeds (attempts.take (i + 1))

theorem attemptAll_cases (made rest : List Attempt) :
    (attemptAll succeeds made rest = (made ++ rest, true) ∧
      ∀ i < rest.length, succeeds (made ++ rest.take (i + 1))) ∨
    ∃ last < rest.length, attemptAll succeeds made rest = (made ++ rest.take (last + 1), false) ∧
      (∀ i < last, succeeds (made ++ rest.take (i + 1))) ∧
      ¬succeeds (made ++ rest.take (last + 1)) := by
  induction rest generalizing made with
  | nil => exact Or.inl ⟨by simp [attemptAll], by simp⟩
  | cons next rest ih =>
      have shift : ∀ i, made ++ (next :: rest).take (i + 1) = made ++ [next] ++ rest.take i := by
        simp
      rw [attemptAll]
      split
      · rename_i succeeded
        rcases ih (made ++ [next]) with ⟨all, held⟩ | ⟨last, bound, stopped, held, failed⟩
        · refine Or.inl ⟨by rw [all, List.append_assoc, List.singleton_append], ?_⟩
          intro i within
          cases i with
          | zero => simpa using succeeded
          | succ i =>
              rw [shift]
              exact held i (by simpa using within)
        · refine Or.inr ⟨last + 1, by simpa using bound, by rw [stopped, shift], ?_, ?_⟩
          · intro i before
            cases i with
            | zero => simpa using succeeded
            | succ i =>
                rw [shift]
                exact held i (by omega)
          · rw [shift]
            exact failed
      · rename_i failed
        exact Or.inr ⟨0, by simp, by simp, by simp, by simpa using failed⟩

/-- How a walk over the attempts ends: a prefix of them is made, all but the last of it
succeed, and it is short only when its last has failed. -/
structure Ended (attempts made : List Attempt) (result : Bool) : Prop where
  inOrder : made <+: attempts
  goesOn : ∀ i, i + 1 < made.length → SucceedsAt succeeds made i
  stops : made.length < attempts.length → ∃ last, made.length = last + 1 ∧
    ¬SucceedsAt succeeds made last
  result_iff : result = true ↔
    made.length = attempts.length ∧ ∀ i < made.length, SucceedsAt succeeds made i

theorem attemptAll_ended (attempts : List Attempt) :
    Ended succeeds attempts (attemptAll succeeds [] attempts).1
      (attemptAll succeeds [] attempts).2 := by
  rcases attemptAll_cases succeeds [] attempts with
    ⟨all, held⟩ | ⟨last, bound, stopped, held, failed⟩
  · simp only [all, List.nil_append]
    exact ⟨List.prefix_rfl, fun i before => held i (by omega), fun short => by omega,
      iff_of_true rfl ⟨rfl, held⟩⟩
  · simp only [List.nil_append] at stopped held failed
    simp only [stopped]
    have count : (attempts.take (last + 1)).length = last + 1 := List.length_take_of_le bound
    have same : ∀ i ≤ last, SucceedsAt succeeds (attempts.take (last + 1)) i ↔
        succeeds (attempts.take (i + 1)) := by
      intro i within
      rw [SucceedsAt, List.take_take, Nat.min_eq_left (by omega)]
    refine ⟨List.take_prefix _ _, ?_, fun _ => ⟨last, count, ?_⟩, ?_⟩
    · intro i before
      rw [same i (by omega)]
      exact held i (by omega)
    · rw [same last (Nat.le_refl last)]
      exact failed
    · refine iff_of_false (by simp) ?_
      rintro ⟨_, all⟩
      have succeeded := all last (by omega)
      rw [same last (Nat.le_refl last)] at succeeded
      exact failed succeeded

/-- An attempt is made exactly when all those before it in the list succeed. -/
theorem lt_length_attemptAll_iff {attempts : List Attempt} {i : Nat} :
    i < (attemptAll succeeds [] attempts).1.length ↔
      i < attempts.length ∧ ∀ j < i, SucceedsAt succeeds attempts j := by
  rcases attemptAll_cases succeeds [] attempts with
    ⟨all, held⟩ | ⟨last, bound, stopped, held, failed⟩
  · rw [all, List.nil_append]
    exact (and_iff_left_of_imp fun within j before => held j (Nat.lt_trans before within)).symm
  · rw [stopped, List.nil_append, List.length_take_of_le bound]
    constructor
    · intro within
      exact ⟨by omega, fun j before => held j (by omega)⟩
    · rintro ⟨_, succeeded⟩
      by_contra beyond
      exact failed (succeeded last (by omega))

end FirstFailure
