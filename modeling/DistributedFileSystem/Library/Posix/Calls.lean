import DistributedFileSystem.Library.Posix.Change

/-!
The system calls a run makes, in their order, up to the first one that fails.
-/

namespace Posix

open ByteString

inductive CallResult where
  | failed
  | kept
  | took (location : Location)
  deriving DecidableEq, Repr

def CallResult.taken : CallResult → Option Location
  | .took location => some location
  | _ => none

theorem mem_taken {calls : List CallResult} {location : Location} :
    location ∈ calls.filterMap CallResult.taken ↔ .took location ∈ calls := by
  rw [List.mem_filterMap]
  constructor
  · rintro ⟨call, member, same⟩
    cases call with
    | took other =>
        obtain rfl := Option.some.inj same
        exact member
    | failed => simp [CallResult.taken] at same
    | kept => simp [CallResult.taken] at same
  · exact fun member => ⟨_, member, rfl⟩

theorem pairwise_of_unfailed {calls : List CallResult} {before : CallResult → Prop}
    (unfailed : .failed ∉ calls) :
    calls.Pairwise fun early late => before early → late ≠ .failed :=
  List.pairwise_of_forall_mem_list fun _ _ _ member _ same => unfailed (same ▸ member)

/-- An action watched from outside: its calls, and how it ends unless one of them fails. -/
def Watched (σ α : Type) := Process σ → List CallResult × Option (α × Process σ)

variable {σ α β γ δ : Type}

namespace Watched

instance : Monad (Watched σ) where
  pure value := fun process => ([], some (value, process))
  bind first rest := fun process =>
    match first process with
    | (calls, some (value, next)) => (calls ++ (rest value next).1, (rest value next).2)
    | (calls, none) => (calls, none)

theorem bind_of_some {first : Watched σ α} {rest : α → Watched σ β} {process next : Process σ}
    {calls : List CallResult} {value : α} (ran : first process = (calls, some (value, next))) :
    (first >>= rest) process = (calls ++ (rest value next).1, (rest value next).2) := by
  simp [Bind.bind, ran]

theorem bind_of_none {first : Watched σ α} {rest : α → Watched σ β} {process : Process σ}
    {calls : List CallResult} (ran : first process = (calls, none)) :
    (first >>= rest) process = (calls, none) := by
  simp [Bind.bind, ran]

def fails : Watched σ α := fun _ => ([.failed], none)

def reading (action : Sys σ α) : Watched σ α := fun process =>
  match action process with
  | some ended => ([.kept], some ended)
  | none => ([.failed], none)

def looking (action : Sys σ (Option α)) : Watched σ α := fun process =>
  match action process with
  | some (some value, next) => ([.kept], some (value, next))
  | _ => ([.failed], none)

def erasing (call : Call) (effect : Disk → Option (Unit × Disk))
    (target : Disk → Option Location) : Watched σ Unit := fun process =>
  match attempt call effect process, target process.disk with
  | some (some (), next), some location => ([.took location], some ((), next))
  | _, _ => ([.failed], none)

def unlink (path : Bytes) : Watched σ Unit :=
  erasing .unlink (fun disk => disk.unlink path) fun disk => disk.resolve false path

def rmdir (path : Bytes) : Watched σ Unit :=
  erasing .rmdir (fun disk => disk.rmdir path) fun disk =>
    disk.resolve false (path.rdropWhile (· = slash))

variable {process next : Process σ}

theorem looking_of_some {action : Sys σ (Option α)} {value : α}
    (ran : action process = some (some value, next)) :
    looking action process = ([.kept], some (value, next)) := by
  simp [looking, ran]

theorem looking_of_none {action : Sys σ (Option α)} (ran : action process = some (none, next)) :
    looking action process = ([.failed], none) := by
  simp [looking, ran]

section Erasing

variable {call : Call} {effect : Disk → Option (Unit × Disk)} {target : Disk → Option Location}
  {location : Location}

theorem erasing_erased {disk : Disk} (permitted : process.faults.next call = .done)
    (erases : effect process.disk = (process.disk.erase location).map fun next => ((), next))
    (resolved : target process.disk = some location)
    (erased : process.disk.erase location = some disk) :
    erasing call effect target process =
      ([.took location], some ((), { process.spend call with disk := disk })) := by
  simp [erasing, attempt, permitted, erases, erased, resolved]

theorem erasing_failed
    (erases : effect process.disk = (process.disk.erase location).map fun next => ((), next))
    (fails : process.faults.next call ≠ .done ∨ process.disk.erase location = none) :
    (erasing call effect target process : _ × Option (Unit × Process σ)) = ([.failed], none) := by
  by_cases permitted : process.faults.next call = .done
  · have stands := fails.resolve_left (not_not_intro permitted)
    simp [erasing, attempt, permitted, erases, stands]
  · simp [erasing, attempt, permitted]

end Erasing

end Watched

/-- The action makes the calls of the watched one: it loses the nodes that these take,
keeps its memory, and has the value that `agree` gives for how they end. -/
def Watches (watched : Watched σ α) (action : Sys σ β) (agree : Option α → β → Prop) : Prop :=
  ∀ process, ∃ value next calls, action process = some (value, next) ∧
    next.memory = process.memory ∧ .failed ∉ calls ∧
    Lost process.disk next.disk (calls.filterMap CallResult.taken) ∧
    ((∃ passed, watched process = (calls, some (passed, next)) ∧ agree (some passed) value) ∨
      watched process = (calls ++ [.failed], none) ∧ agree none value)

namespace Watches

theorem pure {value : α} {result : β} {agree : Option α → β → Prop}
    (agrees : agree (some value) result) :
    Watches (pure value : Watched σ α) (pure result : Sys σ β) agree :=
  fun process => ⟨result, process, [], rfl, rfl, by simp, Lost.refl _,
    Or.inl ⟨value, rfl, agrees⟩⟩

theorem fails {result : β} {agree : Option α → β → Prop} (agrees : agree none result) :
    Watches (Watched.fails : Watched σ α) (Pure.pure result : Sys σ β) agree :=
  fun process => ⟨result, process, [], rfl, rfl, by simp, Lost.refl _, Or.inr ⟨rfl, agrees⟩⟩

/-- The run goes on after a call that passes, and ends at one that fails. -/
theorem bind {first : Watched σ α} {rest : α → Watched σ γ} {action : Sys σ β}
    {continues : β → Sys σ δ} {early : Option α → β → Prop} {late : Option γ → δ → Prop}
    (watches : Watches first action early)
    (passes : ∀ value result, early (some value) result →
      Watches (rest value) (continues result) late)
    (stops : ∀ result, early none result →
      ∃ ended, continues result = Pure.pure ended ∧ late none ended) :
    Watches (first >>= rest) (action >>= continues) late := by
  intro process
  obtain ⟨result, middle, calls, ran, memory, unfailed, lost, passed | stopped⟩ := watches process
  · obtain ⟨value, watched, agrees⟩ := passed
    obtain ⟨final, last, more, finished, same, unfailedLater, lostLater, outcome⟩ :=
      passes value result agrees middle
    refine ⟨final, last, calls ++ more, ?_, same.trans memory, ?_, ?_, ?_⟩
    · rw [Posix.bind_of_some ran]
      exact finished
    · simpa using ⟨unfailed, unfailedLater⟩
    · rw [List.filterMap_append]
      exact lost.trans lostLater
    · rw [Watched.bind_of_some watched]
      rcases outcome with ⟨other, again, agreed⟩ | ⟨again, agreed⟩
      · exact Or.inl ⟨other, by rw [again], agreed⟩
      · exact Or.inr ⟨by rw [again, List.append_assoc], agreed⟩
  · obtain ⟨watched, agrees⟩ := stopped
    obtain ⟨ended, stop, agreed⟩ := stops result agrees
    refine ⟨ended, middle, calls, ?_, memory, unfailed, lost, Or.inr ⟨?_, agreed⟩⟩
    · rw [Posix.bind_of_some ran, stop]
      rfl
    · exact Watched.bind_of_none watched

theorem looking (call : Call) {effect : Disk → Option (α × Disk)}
    (looks : ∀ disk value next, effect disk = some (value, next) → next = disk) :
    Watches (Watched.looking (attempt call effect : Sys σ (Option α))) (attempt call effect)
      fun passed result => result = passed := by
  intro process
  obtain ⟨result, disk, ran, cases⟩ := attempt_cases call effect process
  rcases cases with ⟨rfl, rfl, _⟩ | ⟨value, rfl, _, effected⟩
  · exact ⟨none, _, [], ran, rfl, by simp, Lost.refl _,
      Or.inr ⟨by simp [Watched.looking, ran], rfl⟩⟩
  · obtain rfl := looks _ _ _ effected
    exact ⟨some value, _, [.kept], ran, rfl, by simp, Lost.refl _,
      Or.inl ⟨value, by simp [Watched.looking, ran], rfl⟩⟩

theorem lstat (path : Bytes) : Watches (Watched.looking (lstat path : Sys σ (Option Node)))
    (Posix.lstat path) fun passed result => result = passed := by
  apply looking
  intro disk value next found
  obtain ⟨_, _, same⟩ := Option.map_eq_some_iff.mp found
  exact (Prod.mk.inj same).2.symm

theorem opendir (path : Bytes) : Watches (Watched.looking (opendir path : Sys σ (Option Location)))
    (Posix.opendir path) fun passed result => result = passed := by
  apply looking
  intro disk value next found
  rw [Disk.opendir] at found
  split at found
  · split at found
    · exact (Prod.mk.inj (Option.some.inj found)).2.symm
    · simp at found
  · simp at found

theorem readdir (dir : Location) : Watches (Watched.reading (readdir dir : Sys σ (List (Name × Node))))
    (Posix.readdir dir) fun passed result => passed = some result :=
  fun _ => ⟨_, _, [.kept], rfl, rfl, by simp, Lost.refl _, Or.inl ⟨_, rfl, rfl⟩⟩

theorem erasing (call : Call) {effect : Disk → Option (Unit × Disk)}
    {target : Disk → Option Location}
    (erases : ∀ disk next, effect disk = some ((), next) →
      ∃ location, target disk = some location ∧ disk.erase location = some next) :
    Watches (Watched.erasing call effect target : Watched σ Unit)
      (do return status (← attempt call effect)) fun passed result => result = status passed := by
  intro process
  obtain ⟨result, disk, ran, cases⟩ := attempt_cases call effect process
  refine ⟨status result, { process.spend call with disk := disk }, ?_⟩
  rcases cases with ⟨rfl, rfl, _⟩ | ⟨⟨⟩, rfl, _, effected⟩
  · exact ⟨[], by rw [Posix.bind_of_some ran]; rfl, rfl, by simp, Lost.refl _,
      Or.inr ⟨by simp [Watched.erasing, ran], rfl⟩⟩
  · obtain ⟨location, found, erased⟩ := erases _ _ effected
    exact ⟨[.took location], by rw [Posix.bind_of_some ran]; rfl, rfl, by simp,
      Lost.of_erase erased, Or.inl ⟨(), by simp [Watched.erasing, ran, found], rfl⟩⟩

theorem unlink (path : Bytes) : Watches (Watched.unlink path : Watched σ Unit)
    (Posix.unlink path) fun passed result => result = status passed := by
  apply erasing
  intro disk next effected
  rw [Disk.unlink] at effected
  split at effected
  · rename_i location resolved
    refine ⟨location, resolved, ?_⟩
    split at effected
    · simp at effected
    · obtain ⟨other, erased, same⟩ := Option.map_eq_some_iff.mp effected
      rw [erased, (Prod.mk.inj same).2]
    · simp at effected
  · simp at effected

theorem rmdir (path : Bytes) : Watches (Watched.rmdir path : Watched σ Unit)
    (Posix.rmdir path) fun passed result => result = status passed := by
  apply erasing
  intro disk next effected
  rw [Disk.rmdir] at effected
  split at effected
  · rename_i last location ends resolved
    refine ⟨location, resolved, ?_⟩
    split at effected
    · simp at effected
    · obtain ⟨other, erased, same⟩ := Option.map_eq_some_iff.mp effected
      rw [erased, (Prod.mk.inj same).2]
  · simp at effected

end Watches

end Posix
