import DistributedFileSystem.Library.Posix.Lexical
import DistributedFileSystem.StorageLayer.FileOperation
import Mathlib.Data.List.Infix

/-!
The directories that `createDirectories` makes: all that are missing on the way to the entry
of a path, whatever separators are repeated in it.
-/

namespace DistributedFileSystem.StorageLayer

open ByteString Posix

variable {σ : Type}

/-- After each call the directory of the names seen so far exists. -/
theorem mkdirChain_enter (front rest : List Name) (process : Process σ)
    (relative : Relative (front ++ rest))
    (valid : ∀ name ∈ front ++ rest, name = [] ∨ ValidName name)
    (clean : process.faults.Clean .mkdir)
    (above : process.disk.node? (front.foldl enter process.disk.cwd) = some .dir)
    (free : Free process.disk ((front ++ rest).foldl enter process.disk.cwd)) :
    ∃ disk faults, mkdirChain front rest process =
        some ((), { process with disk := disk, faults := faults }) ∧
      MadeDirs process.disk disk ((front ++ rest).foldl enter process.disk.cwd) ∧
      disk.node? ((front ++ rest).foldl enter process.disk.cwd) = some .dir := by
  induction rest generalizing front process with
  | nil =>
      rw [List.append_nil]
      exact ⟨process.disk, process.faults, rfl, MadeDirs.refl _ _, above⟩
  | cons name rest ih =>
      rw [List.append_cons] at relative valid free ⊢
      have shallow : (front ++ [name]).foldl enter process.disk.cwd <:+
          (front ++ [name] ++ rest).foldl enter process.disk.cwd :=
        foldl_enter_suffix (no_dotdot fun other member => valid other (by simp [member])) _
      obtain ⟨last, parent, entered, named, parentDir, spells⟩ :=
        Disk.spells_enter (relative.front (by simp))
          (fun other member => valid other (List.mem_append_left _ member))
          (by rw [List.dropLast_concat]; exact above)
      obtain ⟨code, disk, ran, made, makes⟩ := mkdir_run process spells
      rw [← entered] at made makes
      have here := makes clean parentDir named (free _ shallow)
      have same := made.cwd
      obtain ⟨final, faults, finished, later, deep⟩ :=
        ih (front ++ [name]) { process.spend .mkdir with disk := disk } relative valid
          (clean.spend .mkdir) (by rw [same]; exact here) (by rw [same]; exact free.made made)
      rw [same] at later deep
      refine ⟨final, faults, ?_, (made.deepen shallow).trans later, deep⟩
      rw [mkdirChain, bind_of_some ran]
      exact finished

/-- Every directory above the entry of a relative path exists after `createDirectories`,
nothing else is created, and what was there is as it was. -/
theorem createDirectories_ancestors {path : Bytes} (process : Process σ)
    (relative : path.head? ≠ some slash) (separated : slash ∈ path)
    (fits : path.length < pathSize)
    (plain : ∀ name ∈ components path, name ≠ dot ∧ name ≠ dotdot)
    -- these calls of `mkdir` fail where the entry exists or its parent is missing, no others
    (clean : process.faults.Clean .mkdir)
    (short : ∀ name ∈ (components path).dropLast, name.length ≤ nameMax)
    (cwd : process.disk.node? process.disk.cwd = some .dir)
    (free : Free process.disk (container process.disk.cwd path)) :
    ∃ disk faults, createDirectories path process =
        some (true, { process with disk := disk, faults := faults }) ∧
      (∀ location, location <:+ container process.disk.cwd path →
        disk.node? location = some .dir) ∧
      (∀ location, process.disk.node? location = none → disk.node? location ≠ none →
        location <:+ container process.disk.cwd path) ∧
      (∀ location node, process.disk.node? location = some node →
        disk.node? location = some node) ∧
      disk.cwd = process.disk.cwd := by
  have nonempty : path ≠ [] := List.ne_nil_of_mem separated
  have spelled := relative_components nonempty relative
  obtain ⟨names, last, split⟩ := (List.eq_nil_or_concat' _).resolve_left spelled.nonempty
  have text : path = joined (names ++ [last]) := by rw [← split, joined_components]
  rw [split] at spelled plain
  rw [split, List.dropLast_concat] at short
  have lastPlain : slash ∉ last := spelled.plain last (by simp)
  have several : names ≠ [] := by
    rintro rfl
    have single : path = last := by simpa [joined, List.intercalate] using text
    exact lastPlain (by rwa [← single])
  have valid : ∀ name ∈ names, name = [] ∨ ValidName name := by
    intro name member
    by_cases empty : name = []
    · exact Or.inl empty
    · obtain ⟨notDot, notDotdot⟩ := plain name (List.mem_append_left _ member)
      have noSlash := spelled.plain name (List.mem_append_left _ member)
      exact Or.inr ⟨empty, noSlash, notDot, notDotdot, short name member⟩
  have front := spelled.front several
  rw [text] at fits ⊢ free
  rw [container_joined front lastPlain] at free ⊢
  obtain ⟨disk, faults, ran, made, dir⟩ :=
    mkdirChain_enter [] names process front valid clean cwd free
  rw [List.nil_append] at made dir
  refine ⟨disk, faults, ?_, ?_, ?_, fun _ _ => made.some_of_some, made.cwd⟩
  · rw [createDirectories_eq front lastPlain fits, bind_of_some ran]
    rfl
  · rintro location ⟨more, same⟩
    exact Disk.ancestor_dir (by rw [same, dir])
  · intro location absent present
    rcases made.node location with same | ⟨above, _, _⟩
    · exact absurd (same.trans absent) present
    · exact above

def begun : Disk := Disk.root.populate [
  ([ascii "a"], .dir),
  ([ascii "kept", ascii "a"], .file (ascii "x"))]

theorem createDirectories_ancestors_begun : ∃ disk faults,
    createDirectories (ascii "a//b/c///d") (Process.mk begun (fun _ => []) ()) =
        some (true, Process.mk disk faults ()) ∧
      (∀ location, location <:+ [ascii "c", ascii "b", ascii "a"] →
        disk.node? location = some .dir) ∧
      (∀ location, begun.node? location = none → disk.node? location ≠ none →
        location <:+ [ascii "c", ascii "b", ascii "a"]) ∧
      (∀ location node, begun.node? location = some node → disk.node? location = some node) ∧
      disk.cwd = begun.cwd := by
  have bottom : container begun.cwd (ascii "a//b/c///d") = [ascii "c", ascii "b", ascii "a"] := by
    decide +kernel
  have free : Free begun (container begun.cwd (ascii "a//b/c///d")) := by
    rw [bottom]
    intro location above
    have all : ∀ location ∈ [ascii "c", ascii "b", ascii "a"].tails,
        begun.node? location = none ∨ begun.node? location = some .dir := by decide +kernel
    exact all location ((List.mem_tails _ _).mpr above)
  have spelled := createDirectories_ancestors (Process.mk begun (fun _ => []) ()) (by decide)
    (by decide) (by decide) (by decide +kernel) nofun (by decide +kernel) (by decide +kernel) free
  rwa [bottom] at spelled

end DistributedFileSystem.StorageLayer
