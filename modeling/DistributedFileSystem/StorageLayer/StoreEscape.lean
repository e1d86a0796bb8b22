import DistributedFileSystem.Library.Posix.Lexical
import DistributedFileSystem.StorageLayer.ChunkPaths

/-!
Where the paths of a name lead once `.`, `..` and repeated separators are resolved: the
name alone decides whether they stay below `data`.
-/

namespace DistributedFileSystem.StorageLayer

open ByteString Posix

def nameComponents (filename : Bytes) : List Name := components (filename.take 506)

/-- The names enter `data` again after all steps up, and something below it. -/
def StaysInside (cwd : Location) (filename : Bytes) : Prop :=
  Inside ((dataName :: cwd).take (descent (nameComponents filename)).ups)
    (descent (nameComponents filename)).names

theorem lexical_data (cwd : Location) (rest : Bytes) :
    lexical cwd (dataName ++ slash :: rest) = (components rest).foldl enter (dataName :: cwd) := by
  have relative : (dataName ++ slash :: rest).head? ≠ some slash := by
    simp [dataName, ascii, slash]
  rw [lexical, Disk.start, if_neg relative, components_append, components_name dataName_valid.2.1]
  rfl

theorem lexical_directoryPath (cwd : Location) (filename : Bytes) :
    lexical cwd (directoryPath filename) =
      (nameComponents filename).foldl enter (dataName :: cwd) := by
  have path : directoryPath filename = dataName ++ slash :: filename.take 506 := by
    have front : ascii "data/" ++ filename = dataName ++ slash :: filename := by
      simp [ascii, dataName, slash]
    rw [directoryPath, front]
    rfl
  rw [path, lexical_data]
  rfl

/-- What is left of the printed id enters one more directory, or nothing at all. -/
theorem lexical_chunkPath (cwd : Location) (filename : Bytes) (chunkId : Int32) :
    ∃ more, lexical cwd (chunkPath filename chunkId) =
      more ++ lexical cwd (directoryPath filename) := by
  have path : chunkPath filename chunkId =
      dataName ++ slash :: (filename ++ slash :: decimal chunkId).take 506 := by
    rw [chunkPath_eq_append, List.append_assoc]
    rfl
  rw [path, lexical_data, lexical_directoryPath, nameComponents]
  by_cases long : 506 ≤ filename.length
  · exact ⟨[], by rw [List.take_append_of_le_length long, List.nil_append]⟩
  · have cut : (filename ++ slash :: decimal chunkId).take 506 =
        filename ++ slash :: (decimal chunkId).take (505 - filename.length) := by
      obtain ⟨room, same⟩ : ∃ room, 506 - filename.length = room + 1 :=
        ⟨505 - filename.length, by omega⟩
      rw [List.take_append, List.take_of_length_le (by omega), same, List.take_succ_cons]
      congr
      omega
    have range : ∀ byte ∈ (decimal chunkId).take (505 - filename.length), byte ≠ 46 := by
      rintro byte member rfl
      have digit := decimal_range (List.mem_of_mem_take member)
      simp [minus] at digit
    have plain : slash ∉ (decimal chunkId).take (505 - filename.length) :=
      fun member => (decimal_valid chunkId).2.1 (List.mem_of_mem_take member)
    rw [cut, List.take_of_length_le (show filename.length ≤ 506 by omega),
      components_append, components_name plain, List.foldl_append, List.foldl_cons, List.foldl_nil]
    generalize (decimal chunkId).take (505 - filename.length) = last at range
    have notDot : last ≠ dot := by
      rintro rfl
      exact range 46 (by decide) rfl
    have notDotdot : last ≠ dotdot := by
      rintro rfl
      exact range 46 (by decide) rfl
    rw [enter]
    simp only [notDot, notDotdot, or_false, if_false]
    split
    · exact ⟨[], rfl⟩
    · exact ⟨[last], rfl⟩

theorem inside_directoryPath_iff (cwd : Location) (filename : Bytes) :
    Inside (dataName :: cwd) (lexical cwd (directoryPath filename)) ↔ StaysInside cwd filename := by
  rw [lexical_directoryPath, inside_foldl_enter]
  rfl

theorem staysInside_of_no_dotdot {filename : Bytes} (plain : dotdot ∉ nameComponents filename)
    (cwd : Location) :
    StaysInside cwd filename ↔ ∃ name ∈ nameComponents filename, name ≠ [] ∧ name ≠ dot := by
  rw [StaysInside, descent_of_no_dotdot plain, Inside]
  simp only [List.take_zero, List.append_nil]
  constructor
  · rintro ⟨more, nonempty, rfl⟩
    obtain ⟨name, member⟩ := List.exists_mem_of_ne_nil _ nonempty
    rw [List.mem_reverse, List.mem_filter] at member
    exact ⟨name, member.1, by simpa using member.2⟩
  · rintro ⟨name, member, named⟩
    refine ⟨_, ?_, rfl⟩
    apply List.ne_nil_of_mem
    exact List.mem_reverse.mpr (List.mem_filter.mpr ⟨member, by simpa using named⟩)

/-- The path of a chunk and the root of a removal end strictly below `data` exactly when the names
in the header enter `data` again after all steps up, and something below it; without `..` that is
to have a component that is a name. On a disk without links the calls end there. On the way to
such a path `createDirectories` may still leave `data`: `../other/../data/x` makes `other`. -/
theorem paths_stay_inside_iff (cwd : Location) (filename : Bytes) (chunkId : Int32) :
    (Inside (dataName :: cwd) (lexical cwd (chunkPath filename chunkId)) ∧
        Inside (dataName :: cwd) (lexical cwd (directoryPath filename)) ↔
      StaysInside cwd filename) ∧
    (dotdot ∉ nameComponents filename → (StaysInside cwd filename ↔
      ∃ name ∈ nameComponents filename, name ≠ [] ∧ name ≠ dot)) ∧
    ∀ (disk : Disk) (follow : Bool) (path : Bytes) (location : Location), disk.cwd = cwd →
      (∀ other target, disk.node? other ≠ some (.symlink target)) →
      disk.resolve follow path = some location → location = lexical cwd path := by
  refine ⟨?_, fun plain => staysInside_of_no_dotdot plain cwd, ?_⟩
  · rw [← inside_directoryPath_iff]
    apply and_iff_right_of_imp
    intro inside
    obtain ⟨more, same⟩ := lexical_chunkPath cwd filename chunkId
    rw [same]
    exact inside.append more
  · rintro disk follow path location rfl linkless resolved
    exact Disk.resolve_lexical linkless resolved

def neighbour : Storage :=
  { disk := Disk.root.populate [
      ([dataName], .dir),
      ([ascii "other"], .dir),
      ([ascii "file", ascii "other"], .file (ascii "x"))]
    table := storageStateInit }

theorem neighbour_removed :
    ((step neighbour ⟨.delete (ascii "../other"), fun _ => []⟩).map fun (reply, next) =>
      (reply, next.disk.node? [ascii "other"])) = some (.deleted true, none) ∧
    neighbour.disk.node? [ascii "other"] = some .dir ∧
    ¬∀ (cwd : Location) (filename : Bytes) (chunkId : Int32),
      Inside (dataName :: cwd) (lexical cwd (chunkPath filename chunkId)) ∧
        Inside (dataName :: cwd) (lexical cwd (directoryPath filename)) := by
  refine ⟨by decide +kernel, by decide +kernel, ?_⟩
  intro always
  obtain ⟨more, nonempty, same⟩ := (always [] (ascii "../other") 0).2
  have outside : lexical [] (directoryPath (ascii "../other")) = [ascii "other"] := by
    decide +kernel
  rw [outside] at same
  have lengths := congrArg List.length same
  have letters := List.length_pos_iff.mpr nonempty
  simp only [List.length_append, List.length_cons, List.length_nil] at lengths
  omega

end DistributedFileSystem.StorageLayer
