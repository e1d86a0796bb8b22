import Mathlib.Data.List.Basic
import Mathlib.Data.List.Induction
import Mathlib.Data.List.Range

/-! Where in a sequence of events those of one kind stand, and where an element of a
list stands once another one has gone. -/

namespace Positions

variable {Event : Type*} (kind : Event → Bool)

def positions (events : List Event) : List Nat :=
  (events.zipIdx.filter fun event => kind event.1).map Prod.snd

theorem positions_concat (events : List Event) (event : Event) :
    positions kind (events ++ [event]) =
      positions kind events ++ if kind event then [events.length] else [] := by
  cases same : kind event <;> simp [positions, List.zipIdx_append, same]

theorem positions_append (earlier later : List Event) :
    ∃ rest, positions kind (earlier ++ later) = positions kind earlier ++ rest := by
  induction later using List.reverseRecOn with
  | nil => exact ⟨[], by simp⟩
  | append_singleton later event ih =>
      obtain ⟨rest, split⟩ := ih
      rw [← List.append_assoc, positions_concat, split, List.append_assoc]
      exact ⟨_, rfl⟩

theorem positions_length (events : List Event) :
    (positions kind events).length = events.countP kind := by
  induction events using List.reverseRecOn with
  | nil => rfl
  | append_singleton events event ih =>
      cases same : kind event <;> simp [positions_concat, List.countP_append, ih, same]

theorem positions_lt {events : List Event} {position : Nat}
    (member : position ∈ positions kind events) : position < events.length := by
  simp only [positions, List.mem_map, List.mem_filter] at member
  obtain ⟨⟨event, index⟩, ⟨found, _⟩, rfl⟩ := member
  exact (List.mem_zipIdx' found).1

theorem positions_increase (events : List Event) :
    (positions kind events).Pairwise (· < ·) := by
  induction events using List.reverseRecOn with
  | nil => simp [positions]
  | append_singleton events event ih =>
      rw [positions_concat, List.pairwise_append]
      refine ⟨ih, ?_, ?_⟩
      · split <;> simp
      · intro position member last ends
        have bound := positions_lt kind member
        split at ends
        · rw [List.mem_singleton.mp ends]
          exact bound
        · simp at ends

theorem positions_of_none {events : List Event} (absent : ∀ event ∈ events, kind event = false) :
    positions kind events = [] := by
  rw [← List.length_eq_zero_iff, positions_length, List.countP_eq_zero]
  simpa using absent

theorem positions_block {before block after : List Event}
    (absentBefore : ∀ event ∈ before, kind event = false)
    (filled : ∀ event ∈ block, kind event = true)
    (absentAfter : ∀ event ∈ after, kind event = false) :
    positions kind (before ++ block ++ after) = List.range' before.length block.length := by
  induction after using List.reverseRecOn with
  | append_singleton after event ih =>
      have absent := absentAfter event (by simp)
      rw [← List.append_assoc, positions_concat, absent,
        ih fun other member => absentAfter other (by simp [member])]
      simp
  | nil =>
      rw [List.append_nil]
      induction block using List.reverseRecOn with
      | nil => simpa using positions_of_none kind absentBefore
      | append_singleton block event ih =>
          have present := filled event (by simp)
          rw [← List.append_assoc, positions_concat, present,
            ih fun other member => filled other (by simp [member])]
          simp [List.range'_concat]

theorem idxOf_erase_other {α : Type*} [DecidableEq α] {values : List α} {kept gone : α}
    (different : kept ≠ gone) (member : gone ∈ values) :
    (values.erase gone).idxOf kept =
      if values.idxOf kept < values.idxOf gone then values.idxOf kept
      else values.idxOf kept - 1 := by
  induction values with
  | nil => simp at member
  | cons value rest ih =>
      by_cases first : value = gone
      · subst value
        rw [List.erase_cons_head, List.idxOf_cons_self, List.idxOf_cons_ne _ (Ne.symm different),
          if_neg (Nat.not_lt_zero _), Nat.succ_sub_one]
      · rw [List.erase_cons_tail (by simpa using first), List.idxOf_cons_ne _ first]
        by_cases own : value = kept
        · subst value
          rw [List.idxOf_cons_self, List.idxOf_cons_self, if_pos (Nat.succ_pos _)]
        · have later : gone ∈ rest := (List.mem_cons.mp member).resolve_left (Ne.symm first)
          have apart : rest.idxOf kept ≠ rest.idxOf gone := by
            intro same
            exact different ((List.idxOf_inj later).mp same.symm).symm
          rw [List.idxOf_cons_ne _ own, List.idxOf_cons_ne _ own, ih later]
          split <;> split <;> omega

end Positions
