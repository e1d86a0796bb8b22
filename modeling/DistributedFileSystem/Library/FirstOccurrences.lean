import Mathlib.Data.List.Induction
import Mathlib.Data.List.Pairwise

/-! The keys that the items of a list have, each once, in the order in which the first
item with the key stands. -/

namespace FirstOccurrences

variable {Item Key : Type*} [DecidableEq Key] (key : Item → Option Key)

def push (found : List Key) (item : Item) : List Key :=
  match key item with
  | none => found
  | some value => if value ∈ found then found else found ++ [value]

def firsts (items : List Item) : List Key := items.foldl (push key) []

def firstAt (items : List Item) (value : Key) : Nat :=
  items.findIdx fun item => key item = some value

theorem mem_push {found : List Key} {item : Item} {value : Key} :
    value ∈ push key found item ↔ value ∈ found ∨ key item = some value := by
  unfold push
  split
  · rename_i keyless
    simp [keyless]
  · rename_i other keyed
    rw [keyed, Option.some.injEq]
    split
    · rename_i known
      constructor
      · exact Or.inl
      · rintro (member | rfl)
        · exact member
        · exact known
    · rw [List.mem_append, List.mem_singleton, @eq_comm _ value]

theorem firsts_concat (items : List Item) (item : Item) :
    firsts key (items ++ [item]) = push key (firsts key items) item := by
  rw [firsts, List.foldl_append, ← firsts]
  rfl

theorem mem_firsts {items : List Item} {value : Key} :
    value ∈ firsts key items ↔ ∃ item ∈ items, key item = some value := by
  induction items using List.reverseRecOn with
  | nil => simp [firsts]
  | append_singleton items item ih =>
      rw [firsts_concat, mem_push, ih]
      simp [or_and_right, exists_or]

theorem firstAt_lt_iff {items : List Item} {value : Key} :
    firstAt key items value < items.length ↔ value ∈ firsts key items := by
  rw [firstAt, List.findIdx_lt_length, mem_firsts]
  simp

theorem firstAt_concat {items : List Item} {item : Item} {value : Key}
    (member : value ∈ firsts key items) :
    firstAt key (items ++ [item]) value = firstAt key items value := by
  have present := (firstAt_lt_iff key).mpr member
  unfold firstAt at present ⊢
  rw [List.findIdx_append, if_pos present]

theorem length_le_firstAt_concat {items : List Item} {item : Item} {value : Key}
    (absent : value ∉ firsts key items) :
    items.length ≤ firstAt key (items ++ [item]) value := by
  have beyond := mt (firstAt_lt_iff key).mp absent
  unfold firstAt at beyond ⊢
  rw [List.findIdx_append, if_neg beyond]
  omega

theorem firsts_ordered (items : List Item) :
    (firsts key items).Pairwise fun left right =>
      firstAt key items left < firstAt key items right := by
  induction items using List.reverseRecOn with
  | nil => exact List.Pairwise.nil
  | append_singleton items item ih =>
      have kept : (firsts key items).Pairwise fun left right =>
          firstAt key (items ++ [item]) left < firstAt key (items ++ [item]) right := by
        apply ih.imp_of_mem
        intro left right leftIn rightIn before
        rw [firstAt_concat key leftIn, firstAt_concat key rightIn]
        exact before
      rw [firsts_concat, push]
      split
      · exact kept
      · rename_i value keyed
        split
        · exact kept
        · rename_i new
          rw [List.pairwise_append]
          refine ⟨kept, List.pairwise_singleton _ _, ?_⟩
          intro earlier member last own
          rw [List.mem_singleton] at own
          subst own
          have present := (firstAt_lt_iff key).mpr member
          have beyond := @length_le_firstAt_concat _ _ _ key items item last new
          rw [firstAt_concat key member]
          omega

theorem firsts_nodup (items : List Item) : (firsts key items).Nodup := by
  apply (firsts_ordered key items).imp
  intro left right before same
  rw [same] at before
  omega

end FirstOccurrences
