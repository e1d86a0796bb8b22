import DistributedFileSystem.Library.Posix.Process
import Mathlib.Data.List.Infix

/-!
The paths that end before the separators of a path, and what calls of `mkdir` at each of them
make of the disk.
-/

namespace Posix

open ByteString

def ancestorsFrom (seen path : Bytes) : List Bytes :=
  (path.inits.map (seen ++ ·)).filter fun front => front ≠ [] ∧ front ++ [slash] <+: seen ++ path

def ancestors (path : Bytes) : List Bytes := ancestorsFrom [] path

theorem mem_ancestors {path front : Bytes} :
    front ∈ ancestors path ↔ front ≠ [] ∧ front ++ [slash] <+: path := by
  simp only [ancestors, ancestorsFrom, List.nil_append, List.map_id', List.mem_filter,
    List.mem_inits, decide_eq_true_eq, and_iff_right_iff_imp]
  exact fun separated => (List.prefix_append front [slash]).trans separated.2

theorem ancestorsFrom_nil (seen : Bytes) : ancestorsFrom seen [] = [] := by
  have longer : ¬seen ++ [slash] <+: seen := by
    intro above
    have lengths := above.length_le
    rw [List.length_append, List.length_singleton] at lengths
    omega
  simp [ancestorsFrom, longer]

theorem ancestorsFrom_cons (seen rest : Bytes) (byte : UInt8) :
    ancestorsFrom seen (byte :: rest) =
      (if byte = slash ∧ seen ≠ [] then [seen] else []) ++ ancestorsFrom (seen ++ [byte]) rest := by
  have fronts : (byte :: rest).inits.map (seen ++ ·) =
      seen :: rest.inits.map (seen ++ [byte] ++ ·) := by
    simp [Function.comp_def]
  have first : (seen ≠ [] ∧ seen ++ [slash] <+: seen ++ byte :: rest) ↔
      byte = slash ∧ seen ≠ [] := by
    rw [List.prefix_append_right_inj, List.cons_prefix_cons]
    simp [and_comm, eq_comm]
  have spelled : seen ++ byte :: rest = seen ++ [byte] ++ rest := by simp
  rw [ancestorsFrom, ancestorsFrom, fronts, spelled]
  rw [spelled] at first
  by_cases separator : byte = slash ∧ seen ≠ []
  · rw [List.filter_cons_of_pos (by simpa using first.mpr separator), if_pos separator]
    rfl
  · rw [List.filter_cons_of_neg (by simpa using fun both => separator (first.mp both)),
      if_neg separator]
    rfl

theorem ancestorsFrom_last (seen : Bytes) {last : Bytes} (plain : slash ∉ last) :
    ancestorsFrom seen last = [] := by
  induction last generalizing seen with
  | nil => exact ancestorsFrom_nil seen
  | cons byte rest ih =>
      rw [List.mem_cons, not_or] at plain
      rw [ancestorsFrom_cons, ih _ plain.2, if_neg fun same => plain.1 same.1.symm, List.nil_append]

theorem ancestorsFrom_append (seen front : Bytes) {last : Bytes} (plain : slash ∉ last) :
    ancestorsFrom seen (front ++ slash :: last) =
      ancestorsFrom seen front ++ (if seen ++ front = [] then [] else [seen ++ front]) := by
  induction front generalizing seen with
  | nil =>
      rw [List.nil_append, ancestorsFrom_cons, ancestorsFrom_last _ plain, ancestorsFrom_nil,
        List.append_nil]
      by_cases empty : seen = []
      · simp [empty]
      · simp [empty]
  | cons byte rest ih =>
      rw [List.cons_append, ancestorsFrom_cons, ancestorsFrom_cons, ih]
      simp

namespace Disk

/-- The disk after `mkdir` at each of the paths, where these are its outcomes. -/
def mkdirs (disk : Disk) : List Outcome → List Bytes → Disk
  | _, [] => disk
  | outcomes, path :: rest =>
      let next := if outcomes.headD .done = .done then
          ((disk.mkdir path).map Prod.snd).getD disk
        else disk
      next.mkdirs outcomes.tail rest

theorem mkdirs_append (disk : Disk) (outcomes : List Outcome) (early late : List Bytes) :
    disk.mkdirs outcomes (early ++ late) =
      (disk.mkdirs outcomes early).mkdirs (outcomes.drop early.length) late := by
  induction early generalizing disk outcomes with
  | nil => rfl
  | cons path rest ih =>
      rw [List.cons_append, mkdirs, ih, mkdirs, List.length_cons, List.drop_tail]

theorem mkdirs_none {disk : Disk} {outcomes : List Outcome} {paths : List Bytes}
    (stands : ∀ path ∈ paths, disk.mkdir path = none) : disk.mkdirs outcomes paths = disk := by
  induction paths generalizing outcomes with
  | nil => rfl
  | cons path rest ih =>
      rw [List.forall_mem_cons] at stands
      simpa [mkdirs, stands.1] using ih stands.2

section Front

variable {disk : Disk} {back : List Name}

theorem walkWith_starts {expand : Location → List Name → Option Location} {follow : Bool}
    {names : List Name} {here location : Location}
    (ends : disk.walkWith expand follow here names = some location)
    (there : (disk.node? location).isSome) : (disk.node? here).isSome := by
  cases names with
  | nil =>
      obtain rfl : here = location := Option.some.inj ends
      exact there
  | cons name rest =>
      by_contra missing
      have absent : disk.node? here ≠ some .dir := by
        intro dir
        simp [dir] at missing
      simp [walkWith, absent] at ends

theorem walkWith_front {early late : Location → List Name → Option Location}
    (deeper : ∀ here front location found, late here (front ++ back) = some location →
      (disk.node? location).isSome → early here front = some found → (disk.node? found).isSome)
    {front : List Name} {here location found : Location}
    (ends : disk.walkWith late true here (front ++ back) = some location)
    (there : (disk.node? location).isSome)
    (walked : disk.walkWith early false here front = some found) : (disk.node? found).isSome := by
  induction front generalizing here with
  | nil =>
      obtain rfl : here = found := Option.some.inj walked
      exact walkWith_starts ends there
  | cons name rest ih =>
      rw [List.cons_append, walkWith] at ends
      rw [walkWith] at walked
      by_cases dir : disk.node? here = some .dir
      · simp only [dir, ne_eq, not_true_eq_false, if_false] at ends walked
        split at ends
        · rename_i stays
          rw [if_pos stays] at walked
          exact ih ends walked
        · rename_i moves
          rw [if_neg moves] at walked
          split at ends
          · rename_i up
            rw [if_pos up] at walked
            exact ih ends walked
          · rename_i down
            rw [if_neg down] at walked
            split at ends
            · contradiction
            · rename_i fits
              rw [if_neg fits] at walked
              cases entry : disk.node? (name :: here) with
              | none =>
                  rw [entry] at ends walked
                  exact ih ends walked
              | some node =>
                  rw [entry] at ends walked
                  cases node with
                  | dir => exact ih ends walked
                  | file bytes => exact ih ends walked
                  | symlink target =>
                      simp only [Bool.true_eq_false, and_false, if_false] at ends
                      simp only [and_true] at walked
                      split at walked
                      · obtain rfl := Option.some.inj walked
                        simp [entry]
                      · rw [← List.append_assoc] at ends
                        exact deeper _ _ _ _ ends there walked
      · simp [dir] at ends

theorem walk_front {links : Nat} {front : List Name} {here location found : Location}
    (ends : disk.walk true links here (front ++ back) = some location)
    (there : (disk.node? location).isSome)
    (walked : disk.walk false links here front = some found) : (disk.node? found).isSome := by
  induction links generalizing here front location found with
  | zero => exact walkWith_front (fun _ _ _ _ ends => by simp at ends) ends there walked
  | succ links ih => exact walkWith_front (fun _ _ _ _ => ih) ends there walked

theorem shorter_rdropWhile {front path : Bytes} (above : front = path ∨ front ++ [slash] <+: path) :
    front.rdropWhile (· = slash) = path ∨ front.rdropWhile (· = slash) ++ [slash] <+: path := by
  have split := @List.rdropWhile_append_rtakeWhile _ (fun byte : UInt8 => byte = slash) front
  have within : front <+: path := by
    rcases above with rfl | above
    · exact List.prefix_rfl
    · exact (List.prefix_append front [slash]).trans above
  cases tail : front.rtakeWhile (· = slash) with
  | nil =>
      rw [tail, List.append_nil] at split
      rwa [split]
  | cons byte rest =>
      have separators := List.mem_rtakeWhile_imp (show byte ∈ front.rtakeWhile (· = slash) by simp [tail])
      obtain rfl : byte = slash := by simpa using separators
      refine Or.inr (List.IsPrefix.trans ⟨rest, ?_⟩ within)
      rw [List.append_assoc, List.singleton_append, ← tail, split]

theorem resolve_front {front path : Bytes} {location found : Location}
    (above : front = path ∨ front ++ [slash] <+: path)
    (ends : disk.resolve true path = some location) (there : (disk.node? location).isSome)
    (reached : disk.resolve false front = some found) : (disk.node? found).isSome := by
  obtain ⟨back, split, starts⟩ : ∃ back, components path = components front ++ back ∧
      (front ≠ [] → start path disk.cwd = start front disk.cwd) := by
    rcases above with rfl | ⟨rest, rfl⟩
    · exact ⟨[], by simp, fun _ => rfl⟩
    · refine ⟨components rest, ?_, ?_⟩
      · rw [List.append_assoc, List.singleton_append, components_append]
      · intro nonempty
        rw [start, start, List.append_assoc, List.head?_append_of_ne_nil _ nonempty]
  rw [resolve] at reached ends
  split at reached
  · contradiction
  · rename_i nonempty
    split at ends
    · contradiction
    · rw [split, starts nonempty] at ends
      exact walk_front ends there reached

/-- No directory can be made on the way to a node. -/
theorem mkdir_front {front path : Bytes} (above : front = path ∨ front ++ [slash] <+: path)
    (there : (disk.lookup true path).isSome) : disk.mkdir front = none := by
  obtain ⟨node, found⟩ := Option.isSome_iff_exists.mp there
  obtain ⟨location, resolved, stands⟩ := Option.bind_eq_some_iff.mp found
  have trimmed := shorter_rdropWhile above
  rw [mkdir]
  cases reached : disk.resolve false (front.rdropWhile (· = slash)) with
  | none => rfl
  | some other =>
      have present := resolve_front trimmed resolved (by simp [stands]) reached
      simp only [Option.map_eq_none_iff]
      cases other with
      | nil => rfl
      | cons name parent =>
          rw [create, dif_neg]
          rintro ⟨absent, _⟩
          simp [absent] at present

end Front

end Disk

variable {σ : Type}

theorem mkdir_mkdirs (path : Bytes) (process : Process σ) :
    ∃ code, mkdir path process = some (code,
      { process.spend .mkdir with disk := process.disk.mkdirs (process.faults .mkdir) [path] }) := by
  have head : (process.faults .mkdir).headD .done = process.faults.next .mkdir := rfl
  rw [Disk.mkdirs, Disk.mkdirs, head]
  by_cases permitted : process.faults.next .mkdir = .done
  · rw [if_pos permitted]
    cases made : process.disk.mkdir path with
    | none =>
        refine ⟨-1, ?_⟩
        rw [mkdir, bind_of_some (attempt_of_none made)]
        rfl
    | some next =>
        refine ⟨0, ?_⟩
        rw [mkdir, bind_apply, attempt, if_pos permitted]
        simp only [made]
        rfl
  · refine ⟨-1, ?_⟩
    rw [if_neg permitted, mkdir, bind_apply, attempt, if_neg permitted]
    rfl

theorem readdir_transfers (dir : Location) (process : Process σ) :
    ∃ entries, readdir dir process = some (entries, process.spend .readdir) ∧
      ∀ entry, entry ∈ entries ↔ ∃ index, (process.disk.listing dir)[index]? = some entry ∧
        (process.faults.next .readdir).Transfers (index + 1) := by
  cases outcome : process.faults.next .readdir with
  | done =>
      refine ⟨process.disk.listing dir, by simp [readdir, outcome], ?_⟩
      simp [Outcome.Transfers, List.mem_iff_getElem?]
  | refused => exact ⟨[], by simp [readdir, outcome], by simp [Outcome.Transfers]⟩
  | short count =>
      refine ⟨(process.disk.listing dir).take count, by simp [readdir, outcome], ?_⟩
      intro entry
      simp only [List.mem_iff_getElem?, List.getElem?_take, Outcome.Transfers,
        Option.ite_none_right_eq_some, Nat.succ_le_iff, and_comm]

end Posix
