import DistributedFileSystem.Library.Posix.Effect
import Mathlib.Logic.Function.Basic

/-!
System calls of a process. Each call may be refused by its environment; one
that is not refused has the effect its target permits.
-/

namespace Posix

open ByteString

inductive Call where
  | access | opendir | readdir | mkdir | fopen | fwrite | openRead | fstat | lstat | unlink | rmdir
  | malloc | realloc
  deriving DecidableEq, Repr

inductive Outcome where
  | done
  | refused
  | short (count : Nat)
  deriving DecidableEq, Repr

/-- The outcomes of the coming calls of each kind, `done` when the list has run out. -/
abbrev Faults := Call → List Outcome

namespace Faults

def next (faults : Faults) (call : Call) : Outcome := (faults call).headD .done

def spend (faults : Faults) (call : Call) : Faults :=
  Function.update faults call (faults call).tail

def Clean (faults : Faults) (call : Call) : Prop := ∀ outcome ∈ faults call, outcome = .done

theorem Clean.next {faults : Faults} {call : Call} (clean : faults.Clean call) :
    faults.next call = .done := by
  unfold Faults.next
  cases found : faults call with
  | nil => rfl
  | cons first rest => exact clean first (by simp [found])

theorem Clean.spend {faults : Faults} {call : Call} (other : Call) (clean : faults.Clean call) :
    (faults.spend other).Clean call := by
  intro outcome member
  unfold Faults.spend at member
  by_cases same : call = other
  · subst other
    rw [Function.update_self] at member
    exact clean outcome (List.mem_of_mem_tail member)
  · rw [Function.update_of_ne same] at member
    exact clean outcome member

theorem spend_of_ne {faults : Faults} {call other : Call} (different : call ≠ other) :
    faults.spend other call = faults call :=
  Function.update_of_ne different _ _

theorem Clean.of_eq {faults others : Faults} {call : Call} (clean : faults.Clean call)
    (same : others call = faults call) : others.Clean call := by
  intro outcome member
  rw [same] at member
  exact clean outcome member

def Passes (faults : Faults) (call : Call) (count : Nat) : Prop :=
  ∀ outcome ∈ (faults call).take count, outcome = .done

theorem passes_zero (faults : Faults) (call : Call) : faults.Passes call 0 := by
  simp [Passes]

theorem passes_succ {faults : Faults} {call : Call} {count : Nat} :
    faults.Passes call (count + 1) ↔
      faults.next call = .done ∧ (faults.spend call).Passes call count := by
  rw [Passes, Passes, spend, Function.update_self, Faults.next]
  cases faults call with
  | nil => simp
  | cons first rest => simp

theorem passes_of_eq {faults others : Faults} {call : Call} (same : others call = faults call)
    {count : Nat} : others.Passes call count ↔ faults.Passes call count := by
  rw [Passes, Passes, same]

theorem next_of_eq {faults others : Faults} {call : Call} (same : others call = faults call) :
    others.next call = faults.next call := by
  rw [Faults.next, Faults.next, same]

end Faults

/-- A process with its own memory; `none` in `Sys` is a run that has left defined behaviour. -/
structure Process (σ : Type) where
  disk : Disk
  faults : Faults
  memory : σ

abbrev Sys (σ : Type) := StateT (Process σ) Option

variable {σ α β : Type}

def Process.spend (process : Process σ) (call : Call) : Process σ :=
  { process with faults := process.faults.spend call }

def attempt (call : Call) (effect : Disk → Option (α × Disk)) : Sys σ (Option α) := fun process =>
  if process.faults.next call = .done then
    match effect process.disk with
    | some (result, disk) => some (some result, { process.spend call with disk := disk })
    | none => some (none, process.spend call)
  else some (none, process.spend call)

def access (path : Bytes) : Sys σ (Option Node) := attempt .access fun disk => disk.stat true path

def opendir (path : Bytes) : Sys σ (Option Location) := attempt .opendir fun disk => disk.opendir path

def readdir (dir : Location) : Sys σ (List (Name × Node)) := fun process =>
  let listing := process.disk.listing dir
  let entries := match process.faults.next .readdir with
    | .done => listing
    | .refused => []
    | .short count => listing.take count
  some (entries, process.spend .readdir)

def status (result : Option α) : Int := if result.isSome then 0 else -1

def mkdir (path : Bytes) : Sys σ Int := do
  return status (← attempt .mkdir fun disk => disk.mkdir path)

def fopenAppend (path : Bytes) : Sys σ (Option Location) :=
  attempt .fopen fun disk => disk.openAppend path

def written (outcome : Outcome) (length : Nat) : Nat :=
  match outcome with
  | .done => length
  | .refused => 0
  | .short count => min count length

def Outcome.Transfers (outcome : Outcome) (count : Nat) : Prop :=
  match outcome with
  | .done => True
  | .refused => count = 0
  | .short limit => count ≤ limit

theorem written_eq_iff {outcome : Outcome} {length : Nat} :
    written outcome length = length ↔ outcome.Transfers length := by
  cases outcome with
  | done => simp [written, Outcome.Transfers]
  | refused => simp [written, Outcome.Transfers, eq_comm]
  | short limit => simp [written, Outcome.Transfers]

def fwrite (file : Location) (data : Bytes) : Sys σ Nat := fun process =>
  let count := written (process.faults.next .fwrite) data.length
  let disk := match process.disk.node? file with
    | some (.file old) => process.disk.overwrite file (old ++ data.take count)
    | _ => process.disk
  some (count, { process.spend .fwrite with disk := disk })

def openRead (path : Bytes) : Sys σ (Option Node) := attempt .openRead fun disk => disk.stat true path

def lstat (path : Bytes) : Sys σ (Option Node) := attempt .lstat fun disk => disk.stat false path

def unlink (path : Bytes) : Sys σ Int := do
  return status (← attempt .unlink fun disk => disk.unlink path)

def rmdir (path : Bytes) : Sys σ Int := do
  return status (← attempt .rmdir fun disk => disk.rmdir path)

def fstat : Sys σ Bool := do
  return (← attempt .fstat fun disk => some ((), disk)).isSome

def allocate (call : Call) : Sys σ Bool := fun process =>
  some (process.faults.next call = .done, process.spend call)

@[simp] theorem Process.spend_disk (process : Process σ) (call : Call) :
    (process.spend call).disk = process.disk := rfl

@[simp] theorem Process.spend_memory (process : Process σ) (call : Call) :
    (process.spend call).memory = process.memory := rfl

@[simp] theorem Process.spend_faults (process : Process σ) (call : Call) :
    (process.spend call).faults = process.faults.spend call := rfl

theorem bind_apply (first : Sys σ α) (rest : α → Sys σ β) (process : Process σ) :
    (first >>= rest) process = (first process).bind fun (result, next) => rest result next := rfl

theorem bind_of_some {state : Type} {first : StateT state Option α} {rest : α → StateT state Option β}
    {before after : state} {value : α} (ran : first before = some (value, after)) :
    (first >>= rest) before = rest value after := by
  change (first before).bind _ = _
  rw [ran, Option.bind_some]

theorem pure_apply (value : α) (process : Process σ) :
    (pure value : Sys σ α) process = some (value, process) := rfl

theorem get_apply (process : Process σ) : (get : Sys σ (Process σ)) process =
    some (process, process) := rfl

theorem attempt_cases (call : Call) (effect : Disk → Option (α × Disk)) (process : Process σ) :
    ∃ result disk, attempt call effect process =
        some (result, { process.spend call with disk := disk }) ∧
      (result = none ∧ disk = process.disk ∧
          (process.faults.next call = .done → effect process.disk = none) ∨
        ∃ value, result = some value ∧ process.faults.next call = .done ∧
          effect process.disk = some (value, disk)) := by
  unfold attempt
  split
  · rename_i permitted
    cases found : effect process.disk with
    | none => exact ⟨none, process.disk, rfl, Or.inl ⟨rfl, rfl, fun _ => rfl⟩⟩
    | some pair =>
        obtain ⟨value, disk⟩ := pair
        exact ⟨some value, disk, rfl, Or.inr ⟨value, rfl, permitted, rfl⟩⟩
  · rename_i refused
    exact ⟨none, process.disk, rfl, Or.inl ⟨rfl, rfl, fun permitted => absurd permitted refused⟩⟩

theorem attempt_of_none {call : Call} {effect : Disk → Option (α × Disk)} {process : Process σ}
    (refused : effect process.disk = none) :
    attempt call effect process = some (none, process.spend call) := by
  unfold attempt
  simp only [refused]
  split
  · rfl
  · rfl

/-- The action is defined in every process, and leaves alone the memory and the
outcomes of one kind of call. -/
def Quiet (spared : Call) (action : Sys σ α) : Prop :=
  ∀ process, ∃ value next, action process = some (value, next) ∧
    next.memory = process.memory ∧ next.faults spared = process.faults spared

namespace Quiet

variable {spared : Call}

theorem pure (value : α) : Quiet spared (pure value : Sys σ α) :=
  fun process => ⟨value, process, rfl, rfl, rfl⟩

theorem bind {first : Sys σ α} {rest : α → Sys σ β} (early : Quiet spared first)
    (late : ∀ value, Quiet spared (rest value)) : Quiet spared (first >>= rest) := by
  intro process
  obtain ⟨value, middle, ran, kept, left⟩ := early process
  obtain ⟨result, next, finished, same, unspent⟩ := late value middle
  refine ⟨result, next, ?_, same.trans kept, unspent.trans left⟩
  rw [bind_apply, ran]
  exact finished

theorem get_bind {rest : Process σ → Sys σ β} (late : ∀ process, Quiet spared (rest process)) :
    Quiet spared (get >>= rest) :=
  fun process => late process process

theorem attempt {call : Call} (effect : Disk → Option (α × Disk)) (other : spared ≠ call) :
    Quiet spared (attempt call effect : Sys σ (Option α)) := by
  intro process
  obtain ⟨result, disk, ran, _⟩ := attempt_cases call effect process
  exact ⟨result, _, ran, rfl, Faults.spend_of_ne other⟩

theorem unlink (path : Bytes) (other : spared ≠ .unlink) : Quiet spared (unlink path : Sys σ Int) :=
  (attempt _ other).bind fun _ => pure _

theorem rmdir (path : Bytes) (other : spared ≠ .rmdir) : Quiet spared (rmdir path : Sys σ Int) :=
  (attempt _ other).bind fun _ => pure _

theorem readdir (dir : Location) (other : spared ≠ .readdir) :
    Quiet spared (readdir dir : Sys σ (List (Name × Node))) :=
  fun _ => ⟨_, _, rfl, rfl, Faults.spend_of_ne other⟩

end Quiet

def Ends (action : Sys σ α) (holds : α → Prop) : Prop :=
  ∀ process value next, action process = some (value, next) → holds value

namespace Ends

theorem pure {value : α} {holds : α → Prop} (held : holds value) :
    Ends (pure value : Sys σ α) holds := by
  intro process other next ran
  obtain ⟨rfl, _⟩ := Prod.mk.inj (Option.some.inj ran)
  exact held

theorem after {first : Sys σ α} {rest : α → Sys σ β} {early : α → Prop} {holds : β → Prop}
    (ends : Ends first early) (late : ∀ value, early value → Ends (rest value) holds) :
    Ends (first >>= rest) holds := by
  intro process other next ran
  rw [bind_apply, Option.bind_eq_some_iff] at ran
  obtain ⟨⟨value, middle⟩, started, finished⟩ := ran
  exact late value (ends process value middle started) middle other next finished

theorem bind {first : Sys σ α} {rest : α → Sys σ β} {holds : β → Prop}
    (late : ∀ value, Ends (rest value) holds) : Ends (first >>= rest) holds :=
  @after _ _ _ first rest (fun _ => True) holds (fun _ _ _ _ => trivial) fun value _ => late value

end Ends

def Returns (action : Sys σ α) : Prop := ∀ process, (action process).isSome

namespace Returns

theorem pure (value : α) : Returns (pure value : Sys σ α) := fun _ => rfl

theorem bind {first : Sys σ α} {rest : α → Sys σ β} (early : Returns first)
    (late : ∀ value, Returns (rest value)) : Returns (first >>= rest) := by
  intro process
  obtain ⟨⟨value, next⟩, ran⟩ := Option.isSome_iff_exists.mp (early process)
  rw [bind_apply, ran]
  exact late value next

theorem allocate (call : Call) : Returns (allocate call : Sys σ Bool) := fun _ => rfl

theorem quiet {spared : Call} {action : Sys σ α} (quiet : Quiet spared action) :
    Returns action := by
  intro process
  obtain ⟨value, next, ran, _⟩ := quiet process
  rw [ran]
  rfl

end Returns

end Posix
