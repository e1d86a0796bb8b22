import DistributedFileSystem.Library.Posix.Process

/-!
How a disk may have changed: nodes pruned from below given locations, or
directories made on the way down to one.
-/

namespace Posix

open ByteString

/-- Only nodes at or below the given locations are gone, and nothing else has changed. -/
structure Pruned (before after : Disk) (tops : List Location) : Prop where
  cwd : after.cwd = before.cwd
  node : ∀ location, after.node? location = before.node? location ∨
    after.node? location = none ∧ ∃ top ∈ tops, top <:+ location

namespace Pruned

variable {first second third : Disk} {tops others : List Location}

theorem refl (disk : Disk) (tops : List Location) : Pruned disk disk tops :=
  ⟨rfl, fun _ => Or.inl rfl⟩

theorem widen (pruned : Pruned first second tops)
    (covered : ∀ top ∈ tops, ∃ other ∈ others, other <:+ top) : Pruned first second others := by
  refine ⟨pruned.cwd, ?_⟩
  intro location
  refine (pruned.node location).imp_right ?_
  rintro ⟨gone, top, member, below⟩
  obtain ⟨other, otherMember, wider⟩ := covered top member
  exact ⟨gone, other, otherMember, wider.trans below⟩

theorem trans (early : Pruned first second tops) (late : Pruned second third tops) :
    Pruned first third tops := by
  refine ⟨late.cwd.trans early.cwd, ?_⟩
  intro location
  rcases late.node location with same | ⟨gone, below⟩
  · rw [same]
    exact early.node location
  · exact Or.inr ⟨gone, below⟩

theorem outside (pruned : Pruned first second tops) {location : Location}
    (away : ∀ top ∈ tops, ¬top <:+ location) : second.node? location = first.node? location := by
  rcases pruned.node location with same | ⟨_, top, member, below⟩
  · exact same
  · exact absurd below (away top member)

theorem some_of_some (pruned : Pruned first second tops) {location : Location} {node : Node}
    (found : second.node? location = some node) : first.node? location = some node := by
  rcases pruned.node location with same | ⟨gone, _⟩
  · rw [← same, found]
  · rw [gone] at found
    simp at found

theorem none_of_none (pruned : Pruned first second tops) {location : Location}
    (absent : first.node? location = none) : second.node? location = none := by
  rcases pruned.node location with same | ⟨gone, _⟩
  · rw [same, absent]
  · exact gone

end Pruned

structure Lost (before after : Disk) (gone : List Location) : Prop where
  cwd : after.cwd = before.cwd
  node : ∀ location, after.node? location =
    if location ∈ gone then none else before.node? location

namespace Lost

variable {first second third : Disk} {gone later : List Location}

theorem refl (disk : Disk) : Lost disk disk [] :=
  ⟨rfl, fun _ => (if_neg List.not_mem_nil).symm⟩

theorem trans (early : Lost first second gone) (late : Lost second third later) :
    Lost first third (gone ++ later) := by
  refine ⟨late.cwd.trans early.cwd, ?_⟩
  intro location
  rw [late.node, early.node]
  by_cases inLater : location ∈ later
  · simp [inLater]
  · simp [inLater]

theorem of_erase {disk next : Disk} {location : Location} (erased : disk.erase location = some next) :
    Lost disk next [location] := by
  obtain ⟨_, cwd, node⟩ := Disk.erase_some erased
  refine ⟨cwd, ?_⟩
  intro other
  simp [node]

theorem kept (lost : Lost first second gone) {location : Location} (present : location ∉ gone) :
    second.node? location = first.node? location := by
  rw [lost.node, if_neg present]

theorem missing (lost : Lost first second gone) {location : Location} (taken : location ∈ gone) :
    second.node? location = none := by
  rw [lost.node, if_pos taken]

theorem pruned (lost : Lost first second gone) : Pruned first second gone := by
  refine ⟨lost.cwd, ?_⟩
  intro location
  by_cases taken : location ∈ gone
  · exact Or.inr ⟨lost.missing taken, location, taken, List.suffix_refl _⟩
  · exact Or.inl (lost.kept taken)

/-- A directory is empty when all its entries are gone, and only then. -/
theorem children_eq_nil_iff {location : Location} {names : List Name}
    (lost : Lost first second (names.map (· :: location)))
    (listed : names.Sublist (first.children location)) :
    second.children location = [] ↔ names = first.children location := by
  have taken : ∀ name, name :: location ∈ names.map (· :: location) ↔ name ∈ names := by simp
  constructor
  · intro empty
    apply listed.eq_of_length_le
    apply (List.subperm_of_subset (first.children_nodup location) _).length_le
    intro name present
    by_contra left
    have stays : name ∈ second.children location := by
      rw [Disk.mem_children, lost.kept (by rwa [taken])]
      exact Disk.mem_children.mp present
    simp [empty] at stays
  · intro all
    rw [List.eq_nil_iff_forall_not_mem]
    intro name stays
    rw [Disk.mem_children] at stays
    by_cases listed : name ∈ names
    · simp [lost.missing ((taken name).mpr listed)] at stays
    · rw [lost.kept (by rwa [taken]), ← Disk.mem_children, ← all] at stays
      exact listed stays

variable {follow : Bool} {node : Node}

/-- A walk comes to the same node as before, unless it needs one that is gone. -/
theorem walkWith (lost : Lost first second gone)
    {before after : Location → List Name → Option Location}
    {expand : Location → List Name → List Location}
    (expands : ∀ here names, (after here names).bind second.node? = some node ↔
      (before here names).bind first.node? = some node ∧ ∀ one ∈ expand here names, one ∉ gone)
    (names : List Name) (here : Location) :
    (second.walkWith after follow here names).bind second.node? = some node ↔
      (first.walkWith before follow here names).bind first.node? = some node ∧
        ∀ one ∈ first.visitedWith expand follow here names, one ∉ gone := by
  induction names generalizing here with
  | nil =>
      by_cases taken : here ∈ gone
      · simp [Disk.walkWith, Disk.visitedWith, lost.missing taken, taken]
      · simp [Disk.walkWith, Disk.visitedWith, lost.kept taken, taken]
  | cons name rest ih =>
      rw [Disk.walkWith, Disk.walkWith, Disk.visitedWith, List.forall_mem_cons]
      by_cases taken : here ∈ gone
      · simp [lost.missing taken, taken]
      · rw [lost.kept taken]
        by_cases dir : first.node? here = some .dir
        · simp only [dir, ne_eq, not_true_eq_false, if_false, taken, not_false_eq_true, true_and]
          split
          · exact ih here
          · split
            · exact ih here.tail
            · split
              · simp
              · by_cases nameTaken : name :: here ∈ gone
                · -- an entry that is gone ends the walk, whatever was there
                  simp only [lost.missing nameTaken, Disk.walkWith_missing (lost.missing nameTaken),
                    reduceCtorEq, false_iff, not_and]
                  intro _ avoids
                  split at avoids
                  · exact avoids _ (by simp) nameTaken
                  · exact avoids _ (Disk.mem_visitedWith rest) nameTaken
                · rw [lost.kept nameTaken]
                  split
                  · split
                    · simp [nameTaken, lost.kept nameTaken]
                    · rw [List.forall_mem_cons]
                      simpa [nameTaken] using expands _ _
                  · exact ih _
        · simp [dir]

theorem walk (lost : Lost first second gone) (links : Nat) (here : Location) (names : List Name) :
    (second.walk follow links here names).bind second.node? = some node ↔
      (first.walk follow links here names).bind first.node? = some node ∧
        ∀ one ∈ first.visited follow links here names, one ∉ gone := by
  induction links generalizing here names with
  | zero => exact lost.walkWith (by simp) names here
  | succ links ih => exact lost.walkWith ih names here

theorem lookup_eq_some (lost : Lost first second gone) {path : Bytes} :
    second.lookup follow path = some node ↔
      first.lookup follow path = some node ∧ ∀ one ∈ first.onTheWay follow path, one ∉ gone := by
  rw [Disk.lookup, Disk.lookup, Disk.resolve, Disk.resolve, Disk.onTheWay, lost.cwd]
  split
  · simp
  · exact lost.walk _ _ _

end Lost

theorem Pruned.of_erase {disk next : Disk} {location : Location}
    (erased : disk.erase location = some next) : Pruned disk next [location] :=
  (Lost.of_erase erased).pruned

/-- Only directories have been made, on the way down to `bottom`. -/
structure MadeDirs (before after : Disk) (bottom : Location) : Prop where
  cwd : after.cwd = before.cwd
  node : ∀ location, after.node? location = before.node? location ∨
    location <:+ bottom ∧ before.node? location = none ∧ after.node? location = some .dir

namespace MadeDirs

variable {first second third : Disk} {bottom : Location}

theorem refl (disk : Disk) (bottom : Location) : MadeDirs disk disk bottom :=
  ⟨rfl, fun _ => Or.inl rfl⟩

theorem trans (early : MadeDirs first second bottom) (late : MadeDirs second third bottom) :
    MadeDirs first third bottom := by
  refine ⟨late.cwd.trans early.cwd, ?_⟩
  intro location
  rcases late.node location with same | ⟨below, absent, made⟩
  · rw [same]
    exact early.node location
  · rcases early.node location with earlier | ⟨_, _, already⟩
    · exact Or.inr ⟨below, by rw [← earlier, absent], made⟩
    · simp [already] at absent

theorem of_create {disk next : Disk} {location : Location} (below : location <:+ bottom)
    (created : disk.create location .dir = some next) : MadeDirs disk next bottom := by
  obtain ⟨absent, cwd, node⟩ := Disk.create_some created
  refine ⟨cwd, ?_⟩
  intro other
  rw [node]
  split
  · rename_i same
    exact Or.inr ⟨by rw [same]; exact below, by rw [same]; exact absent, rfl⟩
  · exact Or.inl rfl

theorem deepen {top : Location} (made : MadeDirs first second top) (above : top <:+ bottom) :
    MadeDirs first second bottom := by
  refine ⟨made.cwd, ?_⟩
  intro location
  exact (made.node location).imp_right fun ⟨below, rest⟩ => ⟨below.trans above, rest⟩

theorem node_below (made : MadeDirs first second bottom) (name : Name) :
    second.node? (name :: bottom) = first.node? (name :: bottom) := by
  rcases made.node (name :: bottom) with same | ⟨above, _, _⟩
  · exact same
  · have longer := above.length_le
    simp at longer

end MadeDirs

structure MoreDirs (before after : Disk) : Prop where
  cwd : after.cwd = before.cwd
  node : ∀ location, after.node? location = before.node? location ∨
    before.node? location = none ∧ after.node? location = some .dir

namespace MoreDirs

variable {first second third : Disk}

theorem refl (disk : Disk) : MoreDirs disk disk := ⟨rfl, fun _ => Or.inl rfl⟩

theorem trans (early : MoreDirs first second) (late : MoreDirs second third) :
    MoreDirs first third := by
  refine ⟨late.cwd.trans early.cwd, ?_⟩
  intro location
  rcases late.node location with same | ⟨absent, made⟩
  · rw [same]
    exact early.node location
  · rcases early.node location with earlier | ⟨_, already⟩
    · exact Or.inr ⟨by rw [← earlier, absent], made⟩
    · simp [already] at absent

theorem of_made {bottom : Location} (made : MadeDirs first second bottom) :
    MoreDirs first second :=
  ⟨made.cwd, fun location => (made.node location).imp_right And.right⟩

theorem some_of_some (more : MoreDirs first second) {location : Location} {node : Node}
    (found : first.node? location = some node) : second.node? location = some node := by
  rcases more.node location with same | ⟨absent, _⟩
  · rw [same, found]
  · simp [absent] at found

theorem file_iff (more : MoreDirs first second) {location : Location} {bytes : Bytes} :
    second.node? location = some (.file bytes) ↔ first.node? location = some (.file bytes) := by
  rcases more.node location with same | ⟨absent, dir⟩
  · rw [same]
  · simp [absent, dir]

theorem plainBelow (more : MoreDirs first second) {top : Location}
    (plain : first.PlainBelow top) : second.PlainBelow top := by
  intro names target found
  rcases more.node (names ++ top) with same | ⟨_, dir⟩
  · exact plain names target (by rw [← same, found])
  · simp [dir] at found

end MoreDirs

theorem MadeDirs.some_of_some {first second : Disk} {bottom location : Location} {node : Node}
    (made : MadeDirs first second bottom) (found : first.node? location = some node) :
    second.node? location = some node :=
  (MoreDirs.of_made made).some_of_some found

theorem MadeDirs.plainBelow {first second : Disk} {bottom top : Location}
    (made : MadeDirs first second bottom) (plain : first.PlainBelow top) : second.PlainBelow top :=
  (MoreDirs.of_made made).plainBelow plain

/-- A regular file stands under `dir`, which was made where it was missing. -/
structure Filled (before after : Disk) (dir : Location) (name : Name) (bytes : Bytes) : Prop where
  cwd : after.cwd = before.cwd
  file : after.node? (name :: dir) = some (.file bytes)
  node : ∀ location, location ≠ name :: dir → after.node? location = before.node? location ∨
    location <:+ dir ∧ before.node? location = none ∧ after.node? location = some .dir

namespace Filled

variable {first second third : Disk} {dir : Location} {name : Name} {bytes : Bytes}

theorem of_made (made : MadeDirs first second dir) (filled : Filled second third dir name bytes) :
    Filled first third dir name bytes := by
  refine ⟨filled.cwd.trans made.cwd, filled.file, ?_⟩
  intro location different
  rcases filled.node location different with same | ⟨above, absent, isDir⟩
  · rw [same]
    exact made.node location
  · rcases made.node location with earlier | ⟨_, _, already⟩
    · exact Or.inr ⟨above, by rw [← earlier, absent], isDir⟩
    · simp [already] at absent

theorem overwrite (filled : Filled first second dir name bytes) (contents : Bytes) :
    Filled first (second.overwrite (name :: dir) contents) dir name contents := by
  obtain ⟨cwd, node⟩ := Disk.overwrite_spec contents (Disk.regular_iff.mpr ⟨bytes, filled.file⟩)
  refine ⟨cwd.trans filled.cwd, by rw [node, if_pos rfl], ?_⟩
  intro location different
  rw [node, if_neg different]
  exact filled.node location different

theorem of_create {disk next : Disk} (created : disk.create (name :: dir) (.file bytes) = some next) :
    Filled disk next dir name bytes := by
  obtain ⟨_, cwd, node⟩ := Disk.create_some created
  refine ⟨cwd, by rw [node, if_pos rfl], ?_⟩
  intro location different
  exact Or.inl (by rw [node, if_neg different])

theorem some_of_some (filled : Filled first second dir name bytes) {location : Location}
    {node : Node} (different : location ≠ name :: dir) (found : first.node? location = some node) :
    second.node? location = some node := by
  rcases filled.node location different with same | ⟨_, absent, _⟩
  · rw [same, found]
  · simp [absent] at found

theorem node_deeper (filled : Filled first second dir name bytes) {location : Location}
    (different : location ≠ name :: dir) (deeper : dir.length < location.length) :
    second.node? location = first.node? location := by
  rcases filled.node location different with same | ⟨above, _, _⟩
  · exact same
  · have shorter := above.length_le
    omega

end Filled

variable {σ α β : Type}

theorem attempt_stat (call : Call) (follow : Bool) (path : Bytes) (process : Process σ) :
    attempt call (fun disk => disk.stat follow path) process =
      some (if process.faults.next call = .done then process.disk.lookup follow path else none,
        process.spend call) := by
  unfold attempt
  split
  · cases found : process.disk.lookup follow path with
    | none => simp [Disk.stat, found]
    | some node =>
        simp only [Disk.stat, found, Option.map_some]
        rfl
  · rfl

theorem opendir_run {path : Bytes} {last : Name} {parent : Location} (process : Process σ)
    (spells : process.disk.Spells true path last parent) :
    opendir path process =
      some (if process.faults.next .opendir = .done ∧
          process.disk.node? (last :: parent) = some .dir then some (last :: parent) else none,
        process.spend .opendir) := by
  unfold opendir attempt
  by_cases permitted : process.faults.next .opendir = .done
  · rw [if_pos permitted]
    simp only [Disk.opendir_of_spells spells]
    by_cases dir : process.disk.node? (last :: parent) = some .dir
    · simp only [dir, permitted, and_self, if_true]
      rfl
    · simp [dir]
  · simp [permitted]

theorem readdir_run (dir : Location) (process : Process σ) :
    ∃ entries, readdir dir process = some (entries, process.spend .readdir) ∧
      entries.Sublist (process.disk.listing dir) ∧
      (process.faults.Clean .readdir → entries = process.disk.listing dir) := by
  cases outcome : process.faults.next .readdir with
  | done => exact ⟨_, by simp [readdir, outcome], List.Sublist.refl _, fun _ => rfl⟩
  | refused =>
      refine ⟨[], by simp [readdir, outcome], List.nil_sublist _, ?_⟩
      intro clean
      simp [clean.next] at outcome
  | short count =>
      refine ⟨_, by simp [readdir, outcome], List.take_sublist count _, ?_⟩
      intro clean
      simp [clean.next] at outcome

theorem mkdir_run {path : Bytes} {last : Name} {parent : Location} (process : Process σ)
    (spells : process.disk.Spells false (path.rdropWhile (· = slash)) last parent) :
    ∃ code disk, mkdir path process = some (code, { process.spend .mkdir with disk := disk }) ∧
      MadeDirs process.disk disk (last :: parent) ∧
      (process.faults.Clean .mkdir → process.disk.node? parent = some .dir → ValidName last →
        process.disk.node? (last :: parent) = none ∨
          process.disk.node? (last :: parent) = some .dir →
        disk.node? (last :: parent) = some .dir) := by
  obtain ⟨result, disk, ran, cases⟩ := attempt_cases .mkdir (fun disk => disk.mkdir path) process
  refine ⟨status result, disk, by rw [mkdir, bind_of_some ran]; rfl, ?_⟩
  simp only [Disk.mkdir_of_spells spells] at cases
  rcases cases with ⟨_, rfl, refused⟩ | ⟨_, _, _, effected⟩
  · refine ⟨MadeDirs.refl _ _, ?_⟩
    intro clean above valid free
    rcases free with absent | already
    · have creatable := Disk.create_isSome .dir absent above valid
      have failed := refused clean.next
      rw [Option.map_eq_none_iff] at failed
      simp [failed] at creatable
    · exact already
  · obtain ⟨next, created, same⟩ := Option.map_eq_some_iff.mp effected
    obtain rfl : next = disk := (Prod.mk.inj same).2
    refine ⟨MadeDirs.of_create (List.suffix_refl _) created, ?_⟩
    intro _ _ _ _
    rw [(Disk.create_some created).2.2, if_pos rfl]

theorem mkdir_more (path : Bytes) (process : Process σ) :
    ∃ code disk, mkdir path process = some (code, { process.spend .mkdir with disk := disk }) ∧
      MoreDirs process.disk disk := by
  obtain ⟨result, disk, ran, cases⟩ := attempt_cases .mkdir (fun disk => disk.mkdir path) process
  refine ⟨status result, disk, by rw [mkdir, bind_of_some ran]; rfl, ?_⟩
  rcases cases with ⟨_, rfl, _⟩ | ⟨_, _, _, effected⟩
  · exact MoreDirs.refl _
  · rw [Disk.mkdir] at effected
    split at effected
    · obtain ⟨next, created, same⟩ := Option.map_eq_some_iff.mp effected
      obtain rfl : next = disk := (Prod.mk.inj same).2
      exact MoreDirs.of_made (MadeDirs.of_create (List.suffix_refl _) created)
    · simp at effected

theorem fopenAppend_run {path : Bytes} {name : Name} {dir : Location} (process : Process σ)
    (spells : process.disk.Spells true path name dir)
    (absent : process.disk.node? (name :: dir) = none) :
    ∃ result disk, fopenAppend path process =
        some (result, { process.spend .fopen with disk := disk }) ∧
      (result = none ∧ disk = process.disk ∧
          ¬(process.faults.Clean .fopen ∧ process.disk.node? dir = some .dir ∧ ValidName name) ∨
        result = some (name :: dir) ∧ Filled process.disk disk dir name []) := by
  obtain ⟨result, disk, ran, cases⟩ :=
    attempt_cases .fopen (fun disk => disk.openAppend path) process
  refine ⟨result, disk, ran, ?_⟩
  simp only [Disk.openAppend_of_spells spells, absent] at cases
  rcases cases with ⟨rfl, rfl, refused⟩ | ⟨location, rfl, _, effected⟩
  · refine Or.inl ⟨rfl, rfl, ?_⟩
    rintro ⟨clean, isDir, valid⟩
    have creatable := Disk.create_isSome (.file []) absent isDir valid
    have failed := refused clean.next
    rw [Option.map_eq_none_iff] at failed
    simp [failed] at creatable
  · obtain ⟨next, created, same⟩ := Option.map_eq_some_iff.mp effected
    obtain ⟨rfl, rfl⟩ := Prod.mk.inj same
    exact Or.inr ⟨rfl, Filled.of_create created⟩

theorem fwrite_run {before : Disk} {name : Name} {dir : Location} (process : Process σ)
    (data : Bytes) (opened : Filled before process.disk dir name []) :
    ∃ count disk, fwrite (name :: dir) data process =
        some (count, { process.spend .fwrite with disk := disk }) ∧
      Filled before disk dir name (data.take count) ∧ count ≤ data.length ∧
      (process.faults.Clean .fwrite → count = data.length) := by
  let count := written (process.faults.next .fwrite) data.length
  refine ⟨count, process.disk.overwrite (name :: dir) (data.take count), ?_,
    opened.overwrite _, ?_, ?_⟩
  · simp only [fwrite, opened.file, List.nil_append]
    rfl
  · simp only [count, written]
    split <;> omega
  · intro clean
    simp [count, clean.next, written]

end Posix
