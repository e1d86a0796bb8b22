import Mathlib.Data.List.DropRight
import Mathlib.Logic.Function.Basic

/-!
A store that keeps the first value put under a key and drops keys by group:
what it holds is what a history of puts and drops determines.
-/

namespace PutOnce

variable {Group Key Value : Type*} [DecidableEq Group] [DecidableEq Key]

inductive Event (Group Key Value : Type*) where
  | put (group : Group) (key : Key) (value : Value)
  | drop (group : Group)

abbrev Held (Group Key Value : Type*) := Group → Key → Option Value

def put (held : Held Group Key Value) (group : Group) (key : Key) (value : Value) :
    Held Group Key Value := fun otherGroup otherKey =>
  if otherGroup = group ∧ otherKey = key then some ((held group key).getD value)
  else held otherGroup otherKey

def drop (held : Held Group Key Value) (group : Group) : Held Group Key Value := fun other key =>
  if other = group then none else held other key

def apply (held : Held Group Key Value) : Event Group Key Value → Held Group Key Value
  | .put group key value => put held group key value
  | .drop group => drop held group

def replay (events : List (Event Group Key Value)) : Held Group Key Value :=
  events.foldl apply fun _ _ => none

def Event.drops (group : Group) : Event Group Key Value → Bool
  | .put _ _ _ => false
  | .drop other => other = group

def Event.value? (group : Group) (key : Key) : Event Group Key Value → Option Value
  | .put otherGroup otherKey value =>
      if otherGroup = group ∧ otherKey = key then some value else none
  | .drop _ => none

def sinceDrop (group : Group) (events : List (Event Group Key Value)) :
    List (Event Group Key Value) :=
  events.rtakeWhile fun event => !event.drops group

def firstPut (group : Group) (key : Key) (events : List (Event Group Key Value)) : Option Value :=
  (sinceDrop group events).findSome? fun event => event.value? group key

theorem replay_concat (events : List (Event Group Key Value)) (event : Event Group Key Value) :
    replay (events ++ [event]) = apply (replay events) event := by
  simp [replay]

theorem firstPut_concat (group : Group) (key : Key) (events : List (Event Group Key Value))
    (event : Event Group Key Value) :
    firstPut group key (events ++ [event]) =
      if event.drops group then none
      else (firstPut group key events).or (event.value? group key) := by
  unfold firstPut sinceDrop
  rw [List.rtakeWhile_concat]
  cases event.drops group with
  | true => simp
  | false =>
      cases found : event.value? group key <;> simp [List.findSome?_append, found]

theorem apply_eq (held : Held Group Key Value) (event : Event Group Key Value) (group : Group)
    (key : Key) :
    apply held event group key =
      if event.drops group then none else (held group key).or (event.value? group key) := by
  cases event with
  | put otherGroup otherKey value =>
      by_cases same : otherGroup = group ∧ otherKey = key
      · obtain ⟨rfl, rfl⟩ := same
        cases known : held otherGroup otherKey <;> simp [apply, put, Event.drops, Event.value?, known]
      · have flipped : ¬(group = otherGroup ∧ key = otherKey) := by
          rintro ⟨rfl, rfl⟩
          exact same ⟨rfl, rfl⟩
        simp [apply, put, Event.drops, Event.value?, same, flipped]
  | drop other =>
      by_cases same : other = group
      · simp [apply, drop, Event.drops, same]
      · simp [apply, drop, Event.drops, Event.value?, same, Ne.symm same]

theorem replay_eq_firstPut (events : List (Event Group Key Value)) (group : Group) (key : Key) :
    replay events group key = firstPut group key events := by
  induction events using List.reverseRecOn with
  | nil => rfl
  | append_singleton events event ih =>
      rw [replay_concat, apply_eq, firstPut_concat, ih]

end PutOnce
