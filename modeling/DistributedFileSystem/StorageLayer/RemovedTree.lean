import DistributedFileSystem.StorageLayer.ChunkStore

/-!
What `remove_directory` takes away when no call fails: the directory and all below it,
however deep that goes and in whatever order the entries are listed.
-/

namespace DistributedFileSystem.StorageLayer

open ByteString Posix

/-- `remove_directory` ends with 0, and then a location is empty when it is the directory
or below it and is as before when it is not. -/
theorem remove_directory_exact {σ : Type}
    (order : Location → List (Name × Node) → List (Name × Node))
    (orders : ∀ dir entries, (order dir entries).Perm entries) (depth : Nat) (deep : 512 ≤ depth)
    (names : List Name) (process : Process σ) (located : DirectoryAt process.disk names)
    (clean : CleanRemoval process.faults) :
    ∃ disk faults, removeDirectoryIn order depth (joined names) process =
        some (0, { process with disk := disk, faults := faults }) ∧
      disk.cwd = process.disk.cwd ∧
      ∀ location, disk.node? location =
        if names.reverse ++ process.disk.cwd <:+ location then none
        else process.disk.node? location := by
  obtain ⟨result, disk, faults, ran, pruned, _, _, gone, succeeds⟩ :=
    removeDirectoryIn_removes orders depth names process located
  obtain rfl := succeeds clean (located.shallower deep)
  refine ⟨disk, faults, ran, pruned.cwd, ?_⟩
  intro location
  have empty := gone rfl _ (List.mem_singleton_self _)
  split
  · rename_i inside
    obtain ⟨more, rfl⟩ := inside
    by_cases itself : more = []
    · rw [itself]
      exact empty
    · exact Disk.node?_below_of_not_dir (by rw [empty]; simp) more itself
  · rename_i outside
    apply pruned.outside
    intro top member
    rw [List.mem_singleton.mp member]
    exact outside

def tree : Disk := Disk.root.populate [
  ([ascii "kept"], .file (ascii "x")),
  ([ascii "top"], .dir),
  ([ascii "one", ascii "top"], .file (ascii "y")),
  ([ascii "sub", ascii "top"], .dir),
  ([ascii "two", ascii "sub", ascii "top"], .file (ascii "z")),
  ([ascii "link", ascii "top"], .symlink (ascii "../kept"))]

theorem tree_directoryAt : DirectoryAt tree [ascii "top"] := by
  refine ⟨by simp, by decide, by decide +kernel, ?_⟩
  intro more present
  have all : ∀ location ∈ tree.nodes.keys, (joined location.reverse).length < filepathSize := by
    decide +kernel
  have listed := all _ (AList.mem_keys.mp (AList.lookup_isSome.mp present))
  have here : tree.cwd = [] := by decide +kernel
  rw [here] at listed
  simpa using listed

theorem remove_directory_exact_tree : ∃ disk faults,
    removeDirectoryIn (fun _ entries => entries.reverse) 512 (ascii "top")
        (Process.mk tree (fun _ => []) ()) =
      some (0, { disk := disk, faults := faults, memory := () }) ∧
    disk.cwd = tree.cwd ∧
    ∀ location, disk.node? location =
      if [ascii "top"] <:+ location then none else tree.node? location :=
  remove_directory_exact (fun _ entries => entries.reverse) (fun _ _ => List.reverse_perm _) 512
    (Nat.le_refl 512) [ascii "top"] ⟨tree, fun _ => [], ()⟩ tree_directoryAt
    ⟨nofun, nofun, nofun, nofun, nofun⟩

end DistributedFileSystem.StorageLayer
