import DistributedFileSystem.Library.PutOnce
import DistributedFileSystem.Library.Transition
import DistributedFileSystem.StorageLayer.DeleteFile

/-!
The chunk store of a storage node: its table and its disk as requests to save,
delete and open are served one after the other.
-/

namespace DistributedFileSystem.StorageLayer

open ByteString Posix

inductive Request where
  | save (filename data : Option Bytes) (chunkId : Int32)
  | delete (filename : Bytes)
  | read (filename : Bytes) (chunkId : Int32)
  deriving DecidableEq, Repr

def Request.filename : Request → Option Bytes
  | .save filename _ _ => filename
  | .delete filename => some filename
  | .read filename _ => some filename

inductive Reply where
  | saved (stored : Bool)
  | deleted (removed : Bool)
  | opened (node : Option Node)
  deriving DecidableEq, Repr

def Request.serve : Request → Sys StorageStateOuter Reply
  | .save filename data chunkId => do return .saved (← saveChunkToFile filename data chunkId)
  | .delete filename => do return .deleted (← deleteFile filename)
  | .read filename chunkId => do return .opened (← getFileDescriptor filename chunkId)

structure Storage where
  disk : Disk
  table : StorageStateOuter

structure Action where
  request : Request
  faults : Faults

def Storage.process (storage : Storage) (faults : Faults) : Process StorageStateOuter :=
  { disk := storage.disk, faults := faults, memory := storage.table }

@[simp] theorem Storage.process_disk (storage : Storage) (faults : Faults) :
    (storage.process faults).disk = storage.disk := rfl

@[simp] theorem Storage.process_faults (storage : Storage) (faults : Faults) :
    (storage.process faults).faults = faults := rfl

@[simp] theorem Storage.process_memory (storage : Storage) (faults : Faults) :
    (storage.process faults).memory = storage.table := rfl

def step (storage : Storage) (action : Action) : Option (Reply × Storage) :=
  (action.request.serve (storage.process action.faults)).map fun (reply, process) =>
    (reply, { disk := process.disk, table := process.memory })

/-- Below `data` there are directories, and below these regular files named by chunk ids. -/
structure Layout (disk : Disk) : Prop where
  data : disk.node? (dataName :: disk.cwd) = some .dir
  entry : ∀ name node, disk.node? (name :: dataName :: disk.cwd) = some node → node = .dir
  chunk : ∀ last name node, disk.node? (last :: name :: dataName :: disk.cwd) = some node →
    ∃ chunkId bytes, last = decimal chunkId ∧ node = .file bytes

def stored (disk : Disk) (filename : Bytes) (chunkId : Int32) : Option Bytes :=
  match disk.node? (decimal chunkId :: filename :: dataName :: disk.cwd) with
  | some (.file bytes) => some bytes
  | _ => none

structure ChunkDirectory (disk : Disk) (filename : Bytes) : Prop where
  top : disk.node? (filename :: dataName :: disk.cwd) = none ∨
    disk.node? (filename :: dataName :: disk.cwd) = some .dir
  chunk : ∀ last node, disk.node? (last :: filename :: dataName :: disk.cwd) = some node →
    ∃ chunkId bytes, last = decimal chunkId ∧ node = .file bytes

namespace ChunkDirectory

variable {disk : Disk} {filename : Bytes}

theorem node?_eq_stored (directory : ChunkDirectory disk filename) (chunkId : Int32) :
    disk.node? (decimal chunkId :: filename :: dataName :: disk.cwd) =
      (stored disk filename chunkId).map .file := by
  unfold stored
  split
  · rename_i bytes found
    rw [found]
    rfl
  · rename_i notFile
    cases found : disk.node? (decimal chunkId :: filename :: dataName :: disk.cwd) with
    | none => rfl
    | some node =>
        obtain ⟨_, bytes, _, rfl⟩ := directory.chunk _ _ found
        exact absurd found (notFile bytes)

theorem hasRegular_iff (directory : ChunkDirectory disk filename) :
    HasRegular disk (filename :: dataName :: disk.cwd) ↔
      ∃ chunkId, (stored disk filename chunkId).isSome := by
  constructor
  · rintro ⟨name, bytes, found⟩
    obtain ⟨chunkId, _, rfl, _⟩ := directory.chunk _ _ found
    exact ⟨chunkId, by simp [stored, found]⟩
  · rintro ⟨chunkId, present⟩
    obtain ⟨bytes, found⟩ := Option.isSome_iff_exists.mp present
    exact ⟨decimal chunkId, bytes, by rw [directory.node?_eq_stored, found]; rfl⟩

theorem free (directory : ChunkDirectory disk filename)
    (data : disk.node? (dataName :: disk.cwd) = some .dir) :
    Free disk (filename :: dataName :: disk.cwd) := by
  intro location above
  rcases List.suffix_cons_iff.mp above with rfl | ⟨names, same⟩
  · exact directory.top
  · exact Or.inr (Disk.ancestor_dir (by rw [same]; exact data))

theorem filled {next : Disk} {bytes : Bytes} {chunkId : Int32} (directory : ChunkDirectory disk filename)
    (filled : Filled disk next (filename :: dataName :: disk.cwd) (decimal chunkId) bytes) :
    ChunkDirectory next filename ∧ ∀ id, stored next filename id =
      if id = chunkId then some bytes else stored disk filename id := by
  have present : (next.node? (decimal chunkId :: filename :: dataName :: disk.cwd)).isSome := by
    simp [filled.file]
  refine ⟨⟨Or.inr ?_, ?_⟩, ?_⟩
  · rw [filled.cwd]
    exact Disk.parent_dir present
  · intro last node found
    rw [filled.cwd] at found
    by_cases same : last = decimal chunkId
    · rw [same, filled.file] at found
      exact ⟨chunkId, bytes, same, (Option.some.inj found).symm⟩
    · rw [filled.node_deeper (by simpa using same) (by simp)] at found
      exact directory.chunk last node found
  · intro id
    rw [stored, filled.cwd]
    by_cases same : id = chunkId
    · rw [same, filled.file, if_pos rfl]
    · have different : decimal id ≠ decimal chunkId := fun equal => same (decimal_injective equal)
      rw [filled.node_deeper (by simpa using different) (by simp), if_neg same, stored]

end ChunkDirectory

structure Storage.Fresh (storage : Storage) : Prop where
  table : storage.table = storageStateInit
  data : storage.disk.node? (dataName :: storage.disk.cwd) = some .dir
  empty : storage.disk.children (dataName :: storage.disk.cwd) = []

theorem Storage.Fresh.absent {storage : Storage} (fresh : storage.Fresh) {names : List Name}
    (nonempty : names ≠ []) : storage.disk.node? (names ++ dataName :: storage.disk.cwd) = none := by
  obtain ⟨front, name, rfl⟩ := (List.eq_nil_or_concat' names).resolve_left nonempty
  have missing : storage.disk.node? (name :: dataName :: storage.disk.cwd) = none := by
    by_contra present
    have listed := Disk.mem_children.mpr (Option.isSome_iff_ne_none.mpr present)
    simp [fresh.empty] at listed
  by_cases single : front = []
  · simpa [single] using missing
  · have notDir : storage.disk.node? (name :: dataName :: storage.disk.cwd) ≠ some .dir := by
      simp [missing]
    simpa using Disk.node?_below_of_not_dir notDir front single

theorem Storage.Fresh.layout {storage : Storage} (fresh : storage.Fresh) :
    Layout storage.disk := by
  refine ⟨fresh.data, ?_, ?_⟩
  · intro name node found
    have missing := fresh.absent (List.cons_ne_nil name [])
    simp only [List.cons_append, List.nil_append] at missing
    simp [missing] at found
  · intro last name node found
    have missing := fresh.absent (List.cons_ne_nil last [name])
    simp only [List.cons_append, List.nil_append] at missing
    simp [missing] at found

theorem Storage.Fresh.stored_eq_none {storage : Storage} (fresh : storage.Fresh) (filename : Bytes)
    (chunkId : Int32) : stored storage.disk filename chunkId = none := by
  have missing := fresh.absent (List.cons_ne_nil (decimal chunkId) [filename])
  simp only [List.cons_append, List.nil_append] at missing
  simp [stored, missing]

def emptyStorage : Storage := {
  disk := Disk.root.populate [([dataName], .dir)]
  table := storageStateInit
}

theorem emptyStorage_fresh : emptyStorage.Fresh := by
  refine ⟨rfl, ?_, ?_⟩
  · decide +kernel
  · decide +kernel

namespace Layout

variable {disk next : Disk} {filename : Bytes} {chunkId : Int32} {bytes : Bytes}

theorem chunkDirectory (layout : Layout disk) (filename : Bytes) :
    ChunkDirectory disk filename := by
  refine ⟨?_, fun last node => layout.chunk last filename node⟩
  cases found : disk.node? (filename :: dataName :: disk.cwd) with
  | none => exact Or.inl rfl
  | some node => exact Or.inr (by rw [layout.entry _ _ found])

theorem node?_eq_stored (layout : Layout disk) (filename : Bytes) (chunkId : Int32) :
    disk.node? (decimal chunkId :: filename :: dataName :: disk.cwd) =
      (stored disk filename chunkId).map .file :=
  (layout.chunkDirectory filename).node?_eq_stored chunkId

theorem length_le (layout : Layout disk) {names : List Name}
    (present : (disk.node? (names ++ dataName :: disk.cwd)).isSome) : names.length ≤ 2 := by
  by_contra long
  have split : names = names.take (names.length - 2) ++ names.drop (names.length - 2) := by simp
  have two : (names.drop (names.length - 2)).length = 2 := by
    rw [List.length_drop]
    omega
  obtain ⟨last, name, pair⟩ := List.length_eq_two.mp two
  have notDir : disk.node? (last :: name :: dataName :: disk.cwd) ≠ some .dir := by
    intro dir
    obtain ⟨_, _, _, same⟩ := layout.chunk _ _ _ dir
    simp at same
  have missing := Disk.node?_below_of_not_dir notDir (names.take (names.length - 2)) (by
    intro empty
    have length := congrArg List.length empty
    simp only [List.length_take, List.length_nil] at length
    omega)
  rw [split, pair] at present
  simp [missing] at present

theorem dataDirectory (layout : Layout disk) : DataDirectory disk := by
  refine ⟨layout.data, ?_⟩
  intro names target found
  have short := @length_le disk layout names (by simp [found])
  match names, short with
  | [], _ => simp [layout.data] at found
  | [name], _ => simpa using layout.entry name _ found
  | [last, name], _ =>
      obtain ⟨_, _, _, same⟩ := layout.chunk last name _ found
      simp at same

theorem hasRegular_iff (layout : Layout disk) (filename : Bytes) :
    HasRegular disk (filename :: dataName :: disk.cwd) ↔
      ∃ chunkId, (stored disk filename chunkId).isSome :=
  (layout.chunkDirectory filename).hasRegular_iff

theorem free (layout : Layout disk) (filename : Bytes) :
    Free disk (filename :: dataName :: disk.cwd) :=
  (layout.chunkDirectory filename).free layout.data

theorem made_node (layout : Layout disk) (made : MadeDirs disk next (filename :: dataName :: disk.cwd))
    {location : Location} (different : location ≠ filename :: dataName :: disk.cwd) :
    next.node? location = disk.node? location := by
  rcases made.node location with same | ⟨above, absent, _⟩
  · exact same
  · rcases List.suffix_cons_iff.mp above with same | ⟨names, same⟩
    · exact absurd same different
    · have dir := @Disk.ancestor_dir disk names location (by rw [same]; exact layout.data)
      simp [absent] at dir

theorem of_made (layout : Layout disk)
    (made : MadeDirs disk next (filename :: dataName :: disk.cwd)) :
    Layout next ∧ stored next = stored disk := by
  have deeper : ∀ last name, next.node? (last :: name :: dataName :: disk.cwd) =
      disk.node? (last :: name :: dataName :: disk.cwd) := by
    intro last name
    apply layout.made_node made
    intro same
    simpa using congrArg List.length same
  refine ⟨⟨?_, ?_, ?_⟩, ?_⟩
  · rw [made.cwd]
    exact made.some_of_some layout.data
  · intro name node found
    rw [made.cwd] at found
    rcases made.node (name :: dataName :: disk.cwd) with same | ⟨_, _, dir⟩
    · exact layout.entry name node (by rw [← same, found])
    · rw [dir] at found
      exact (Option.some.inj found).symm
  · intro last name node found
    rw [made.cwd, deeper] at found
    exact layout.chunk last name node found
  · funext other otherId
    rw [stored, stored, made.cwd, deeper]

theorem of_filled (layout : Layout disk)
    (filled : Filled disk next (filename :: dataName :: disk.cwd) (decimal chunkId) bytes) :
    Layout next ∧ ∀ other otherId, stored next other otherId =
      if other = filename ∧ otherId = chunkId then some bytes else stored disk other otherId := by
  obtain ⟨directory, held⟩ := (layout.chunkDirectory filename).filled filled
  have deeper : ∀ last other, other ≠ filename →
      next.node? (last :: other :: dataName :: disk.cwd) =
        disk.node? (last :: other :: dataName :: disk.cwd) := by
    intro last other different
    exact filled.node_deeper (by simp [different]) (by simp)
  refine ⟨⟨?_, ?_, ?_⟩, ?_⟩
  · rw [filled.cwd]
    refine filled.some_of_some ?_ layout.data
    intro same
    simpa using congrArg List.length same
  · intro name node found
    rw [filled.cwd] at found
    have different : name :: dataName :: disk.cwd ≠
        decimal chunkId :: filename :: dataName :: disk.cwd := by
      intro same
      simpa using congrArg List.length same
    rcases filled.node _ different with same | ⟨_, _, dir⟩
    · exact layout.entry name node (by rw [← same, found])
    · rw [dir] at found
      exact (Option.some.inj found).symm
  · intro last name node found
    by_cases same : name = filename
    · subst same
      exact directory.chunk last node found
    · rw [filled.cwd, deeper last name same] at found
      exact layout.chunk last name node found
  · intro other otherId
    by_cases same : other = filename
    · rw [same, held]
      simp
    · rw [if_neg fun both => same both.1, stored, filled.cwd, deeper _ other same, stored]

theorem of_pruned (layout : Layout disk)
    (pruned : Pruned disk next [filename :: dataName :: disk.cwd]) :
    Layout next ∧ ∀ other otherId, other ≠ filename →
      stored next other otherId = stored disk other otherId := by
  have away : ∀ names : List Name, names.getLast? ≠ some filename →
      ∀ top ∈ [filename :: dataName :: disk.cwd], ¬top <:+ names ++ dataName :: disk.cwd := by
    intro names different top member
    rw [List.mem_singleton.mp member]
    rintro ⟨front, same⟩
    have equal : front ++ [filename] = names := by
      apply @List.append_cancel_right _ _ (dataName :: disk.cwd)
      simpa using same
    simp [← equal] at different
  refine ⟨⟨?_, ?_, ?_⟩, ?_⟩
  · rw [pruned.cwd, ← layout.data]
    exact pruned.outside (away [] (by simp))
  · intro name node found
    rw [pruned.cwd] at found
    exact layout.entry name node (pruned.some_of_some found)
  · intro last name node found
    rw [pruned.cwd] at found
    exact layout.chunk last name node (pruned.some_of_some found)
  · intro other otherId different
    have same := pruned.outside (away [decimal otherId, other] (by simpa using different))
    simp only [List.cons_append, List.nil_append] at same
    rw [stored, stored, pruned.cwd, same]

end Layout

theorem fileNames_of_valid {filename : Bytes} (valid : ValidName filename) :
    FileNames [filename] := by
  have short := valid.2.2.2.2
  refine ⟨by simp, by simpa using valid, ?_⟩
  rw [joined_cons, List.length_append, List.length_cons, pathSize]
  simp only [joined, List.intercalate, List.intersperse, List.flatten_cons, List.flatten_nil,
    List.append_nil, dataName, ascii]
  simp only [nameMax] at short
  have length : ("data".toList.map fun letter => letter.toNat.toUInt8).length = 4 := by decide
  omega

theorem joined_single (name : Name) : joined [name] = name := by
  simp [joined, List.intercalate]

theorem save_outcome {storage : Storage} {filename bytes : Bytes} {chunkId : Int32}
    {faults : Faults} (store : StoreDirectory storage.disk) (valid : ValidName filename)
    (nonempty : bytes ≠ []) (unblocked : faults.Clean .access) :
    SaveOutcome (storage.process faults) filename bytes chunkId
      (filename :: dataName :: storage.disk.cwd)
      (saveChunkToFile (some filename) (some bytes) chunkId (storage.process faults)) := by
  have outcome := saveChunkToFile_outcome ((fileNames_of_valid valid).chunk chunkId)
    (storage.process faults) store nonempty unblocked
  simpa [joined_single, Storage.process] using outcome

theorem step_save (storage : Storage) (filename data : Option Bytes) (chunkId : Int32)
    (faults : Faults) :
    step storage ⟨.save filename data chunkId, faults⟩ =
      (saveChunkToFile filename data chunkId (storage.process faults)).map
        fun (stored, process) =>
          (.saved stored, { disk := process.disk, table := process.memory }) := by
  simp only [step, Request.serve, bind_apply, pure_apply, Option.map_eq_bind, Option.bind_assoc]
  rfl

theorem delete_of_deleted {storage next : Storage} {request : Request} {faults : Faults}
    {removed : Bool} (stepped : step storage ⟨request, faults⟩ = some (.deleted removed, next)) :
    ∃ filename, request = .delete filename := by
  cases request with
  | save filename data chunkId =>
      rw [step_save, Option.map_eq_some_iff] at stepped
      obtain ⟨_, _, same⟩ := stepped
      simp at same
  | delete filename => exact ⟨filename, rfl⟩
  | read filename chunkId =>
      simp only [step, Request.serve, bind_apply, pure_apply, Option.map_eq_some_iff,
        Option.bind_eq_some_iff] at stepped
      obtain ⟨_, ⟨_, _, served⟩, same⟩ := stepped
      rw [← Option.some.inj served] at same
      simp at same

theorem step_save_unchecked (storage : Storage) {filename data : Option Bytes} (chunkId : Int32)
    (faults : Faults) (unchecked : filename = none ∨ data = none ∨ data = some []) :
    step storage ⟨.save filename data chunkId, faults⟩ =
      some (.saved false, storage) := by
  have refused : saveChunkToFile filename data chunkId (storage.process faults) =
      some (false, storage.process faults) := by
    rcases unchecked with rfl | rfl | rfl
    · cases data <;> rfl
    · cases filename <;> rfl
    · cases filename <;> simp [saveChunkToFile, pure_apply]
  rw [step_save, refused]
  rfl

theorem step_save_known {storage : Storage} {filename bytes : Bytes} {chunkId : Int32} {faults : Faults}
    (layout : Layout storage.disk) (valid : ValidName filename) (nonempty : bytes ≠ [])
    (unblocked : faults.Clean .access) (present : (stored storage.disk filename chunkId).isSome) :
    step storage ⟨.save (some filename) (some bytes) chunkId, faults⟩ =
      some (.saved true, storage) := by
  have outcome := @save_outcome storage filename bytes chunkId faults layout.dataDirectory.store
    valid nonempty unblocked
  obtain ⟨held, found⟩ := Option.isSome_iff_exists.mp present
  have there : storage.disk.node? (decimal chunkId :: filename :: dataName :: storage.disk.cwd) =
      some (.file held) := by
    rw [layout.node?_eq_stored, found]
    rfl
  rw [step_save]
  generalize saveChunkToFile (some filename) (some bytes) chunkId (storage.process faults) = ended
    at outcome
  cases outcome with
  | stored _ _ => rfl
  | refused _ _ missing _ _ => simp [there] at missing
  | short _ _ _ missing _ _ => simp [there] at missing
  | recorded _ _ _ _ missing _ _ _ => simp [there] at missing
  | outOfRange _ missing _ _ => simp [there] at missing

def Records (storage : Storage) (filename bytes : Bytes) (chunkId : Int32) (faults : Faults)
    (has : Bool) : Prop :=
  (insertToStruct (faults.next .realloc = .done) storage.table filename chunkId has = none ∧
    step storage ⟨.save (some filename) (some bytes) chunkId, faults⟩ =
      none) ∨
  ∃ disk table,
    insertToStruct (faults.next .realloc = .done) storage.table filename chunkId has = some table ∧
    step storage ⟨.save (some filename) (some bytes) chunkId, faults⟩ =
      some (.saved true, { disk := disk, table := table }) ∧ Layout disk ∧
    ∀ other otherId, stored disk other otherId =
      if other = filename ∧ otherId = chunkId then some bytes else stored storage.disk other otherId

theorem step_save_new {storage : Storage} {filename bytes : Bytes} {chunkId : Int32}
    {faults : Faults} (layout : Layout storage.disk) (valid : ValidName filename)
    (nonempty : bytes ≠ []) (unblocked : faults.Clean .access) (whole : faults.Clean .fwrite)
    (absent : stored storage.disk filename chunkId = none) :
    (∃ disk, step storage ⟨.save (some filename) (some bytes) chunkId, faults⟩ =
          some (.saved false, { disk := disk, table := storage.table }) ∧ Layout disk ∧
        stored disk = stored storage.disk ∧ ¬(faults.Clean .mkdir ∧ faults.Clean .fopen)) ∨
      ∃ has, (has = true → ∃ other, (stored storage.disk filename other).isSome) ∧
        (faults.Clean .opendir → faults.Clean .readdir →
          (∃ other, (stored storage.disk filename other).isSome) → has = true) ∧
        Records storage filename bytes chunkId faults has := by
  have outcome := @save_outcome storage filename bytes chunkId faults layout.dataDirectory.store
    valid nonempty unblocked
  have missing : storage.disk.node? (decimal chunkId :: filename :: dataName :: storage.disk.cwd) =
      none := by
    rw [layout.node?_eq_stored, absent]
    rfl
  unfold Records
  rw [step_save]
  generalize saveChunkToFile (some filename) (some bytes) chunkId (storage.process faults) = ended
    at outcome
  rw [← layout.hasRegular_iff]
  cases outcome with
  | stored _ present => simp [missing] at present
  | refused disk _ _ made unclean =>
      obtain ⟨layoutNext, same⟩ := layout.of_made made
      refine Or.inl ⟨disk, rfl, layoutNext, same, ?_⟩
      exact fun both => unclean ⟨both.1, both.2, layout.free filename⟩
  | short _ _ _ _ _ unclean => exact absurd whole unclean
  | recorded disk _ has table _ filled answer inserted =>
      obtain ⟨layoutNext, storedNext⟩ := layout.of_filled filled
      exact Or.inr ⟨has, answer.1, answer.2,
        Or.inr ⟨disk, table, inserted, rfl, layoutNext, storedNext⟩⟩
  | outOfRange has _ answer inserted =>
      exact Or.inr ⟨has, answer.1, answer.2, Or.inl ⟨inserted, rfl⟩⟩

theorem step_delete_of_removed {storage : Storage} {filename : Bytes} {faults left : Faults}
    {result : Int} {disk : Disk}
    (ran : removeDirectory descriptorLimit (directoryPath filename) (storage.process faults) =
      some (result, { disk := disk, faults := left, memory := storage.table })) :
    step storage ⟨.delete filename, faults⟩ = some (.deleted (result = 0),
      { disk := disk,
        table := if result = 0 then removeFromStruct storage.table filename else storage.table }) := by
  simp only [step, Request.serve, bind_apply, deleteFile_of_removed ran, Option.bind_some,
    pure_apply, Option.map_some]

theorem directoryPath_of_valid {filename : Bytes} (valid : ValidName filename) :
    directoryPath filename = joined [dataName, filename] := by
  have file := fileNames_of_valid valid
  have fits := file.fits
  rw [← joined_single filename, directoryPath_eq file.nonempty (by omega), joined_single]

theorem Layout.below_length_le {disk : Disk} (layout : Layout disk) {filename : Bytes}
    {more : List Name} (present : (disk.node? (more ++ filename :: dataName :: disk.cwd)).isSome) :
    more.length ≤ 1 := by
  have length := @Layout.length_le disk layout (more ++ [filename]) (by simpa using present)
  simpa using length

theorem Layout.directoryAt {disk : Disk} (layout : Layout disk) {filename : Bytes}
    (valid : ValidName filename)
    (dir : disk.node? (filename :: dataName :: disk.cwd) = some .dir) :
    DirectoryAt disk [dataName, filename] := by
  have fits := (fileNames_of_valid valid).fits
  refine ⟨by simp, by simp [dataName_valid, valid], by simp [dir], ?_⟩
  intro more present
  simp only [List.reverse_cons, List.reverse_nil, List.nil_append, List.cons_append] at present
  match more, layout.below_length_le present with
  | [], _ =>
      simp only [List.reverse_nil, List.append_nil, filepathSize]
      simp only [pathSize] at fits
      omega
  | [last], _ =>
      have short := (Disk.name_valid present).2.2.2.2
      rw [List.reverse_singleton, joined_concat _ (by simp), List.length_append,
        List.length_cons, filepathSize]
      simp only [pathSize, nameMax] at fits short
      omega

theorem Layout.unopened {disk : Disk} (layout : Layout disk) {filename : Bytes}
    (valid : ValidName filename)
    (missing : disk.node? (filename :: dataName :: disk.cwd) = none) :
    disk.opendir (directoryPath filename) = none := by
  have spells := @DataDirectory.spells disk layout.dataDirectory true [] filename
    (by simpa using valid)
  rw [List.nil_append] at spells
  rw [directoryPath_of_valid valid, Disk.opendir_of_spells spells, if_neg]
  simp [missing]

theorem deleteFile_step {storage : Storage} {filename : Bytes} (faults : Faults)
    (layout : Layout storage.disk) (valid : ValidName filename) :
    ∃ removed disk, step storage ⟨.delete filename, faults⟩ =
        some (.deleted removed, { disk := disk, table :=
          if removed then removeFromStruct storage.table filename else storage.table }) ∧
      Pruned storage.disk disk [filename :: dataName :: storage.disk.cwd] ∧
      (removed = true → disk.node? (filename :: dataName :: storage.disk.cwd) = none) ∧
      (CleanRemoval faults →
        storage.disk.node? (filename :: dataName :: storage.disk.cwd) ≠ none →
        removed = true) := by
  suffices removal : ∃ result disk faults', removeDirectory descriptorLimit
      (directoryPath filename) (storage.process faults) =
        some (result, { disk := disk, faults := faults', memory := storage.table }) ∧
      Pruned storage.disk disk [filename :: dataName :: storage.disk.cwd] ∧
      (result = 0 → disk.node? (filename :: dataName :: storage.disk.cwd) = none) ∧
      (CleanRemoval faults →
        storage.disk.node? (filename :: dataName :: storage.disk.cwd) ≠ none → result = 0) by
    obtain ⟨result, disk, faults', ran, pruned, gone, succeeds⟩ := removal
    refine ⟨result = 0, disk, ?_, pruned, by simpa using gone, by simpa using succeeds⟩
    simp only [step_delete_of_removed ran, decide_eq_true_eq]
  cases found : storage.disk.node? (filename :: dataName :: storage.disk.cwd) with
  | none =>
      obtain ⟨faults', ran⟩ := removeDirectory_unopened descriptorLimit (storage.process faults)
        (layout.unopened valid found)
      refine ⟨-1, storage.disk, faults', ran, Pruned.refl _ _, by simp, ?_⟩
      intro _ present
      exact absurd rfl present
  | some node =>
      have dir := layout.entry filename node found
      have located := layout.directoryAt valid (by rw [found, dir])
      obtain ⟨result, disk, faults', ran, pruned, _, _, gone, succeeds⟩ :=
        removeDirectory_removes descriptorLimit [dataName, filename] (storage.process faults)
          located
      rw [directoryPath_of_valid valid]
      refine ⟨result, disk, faults', ran, pruned, ?_, ?_⟩
      · intro success
        exact gone success _ (List.mem_singleton_self _)
      · intro clean _
        exact succeeds clean (located.shallower (show 512 ≤ descriptorLimit by decide))

theorem step_delete {storage : Storage} {filename : Bytes} (faults : Faults)
    (layout : Layout storage.disk) (valid : ValidName filename) :
    ∃ removed disk, step storage ⟨.delete filename, faults⟩ =
        some (.deleted removed, { disk := disk, table :=
          if removed then removeFromStruct storage.table filename else storage.table }) ∧
      Layout disk ∧ disk.cwd = storage.disk.cwd ∧
      (∀ other chunkId, other ≠ filename →
        stored disk other chunkId = stored storage.disk other chunkId) ∧
      (removed = true → ∀ chunkId, stored disk filename chunkId = none) ∧
      (CleanRemoval faults → removed = false →
        ∀ chunkId, stored disk filename chunkId = stored storage.disk filename chunkId) := by
  obtain ⟨removed, disk, stepped, pruned, gone, succeeds⟩ := deleteFile_step faults layout valid
  obtain ⟨layoutNext, others⟩ := layout.of_pruned pruned
  have empty : disk.node? (filename :: dataName :: storage.disk.cwd) = none →
      ∀ chunkId, stored disk filename chunkId = none := by
    intro missing chunkId
    rw [stored, pruned.cwd, @Disk.node?_none_of_parent disk _ (by simp [missing])]
  refine ⟨removed, disk, stepped, layoutNext, pruned.cwd, others, fun success => empty (gone success), ?_⟩
  intro clean failed chunkId
  have missing : storage.disk.node? (filename :: dataName :: storage.disk.cwd) = none := by
    by_contra present
    simp [succeeds clean present] at failed
  rw [empty (pruned.none_of_none missing), stored,
    @Disk.node?_none_of_parent storage.disk _ (by simp [missing])]

/-- `getFileDescriptor` opens what the path leads to, if the chunk is in the table. -/
theorem step_read_lookup (storage : Storage) (filename : Bytes) (chunkId : Int32)
    (faults : Faults) :
    step storage ⟨.read filename chunkId, faults⟩ = some (.opened
      (if storage.table.fileToChunkState.any (fun file =>
          file.filePath = filename && file.chunkIds.contains chunkId) ∧
          faults.next .openRead = .done then
        storage.disk.lookup true (chunkPath filename chunkId)
      else none), storage) := by
  have opened := attempt_stat .openRead true (chunkPath filename chunkId) (storage.process faults)
  by_cases listed : (storage.table.fileToChunkState.any fun file =>
      file.filePath = filename && file.chunkIds.contains chunkId) = true
  · simp only [step, Request.serve, getFileDescriptor, bind_apply, get_apply, Option.bind_some,
      Storage.process_memory, listed, if_true, openRead, opened, true_and]
    rfl
  · simp only [step, Request.serve, getFileDescriptor, bind_apply, get_apply, Option.bind_some,
      Storage.process_memory, listed, Bool.false_eq_true, if_false, false_and]
    rfl

theorem step_read_eq {storage : Storage} {filename : Bytes} (chunkId : Int32) (faults : Faults)
    (data : DataDirectory storage.disk) (valid : ValidName filename) :
    step storage ⟨.read filename chunkId, faults⟩ = some (.opened
      (if storage.table.fileToChunkState.any (fun file =>
          file.filePath = filename && file.chunkIds.contains chunkId) ∧
          faults.next .openRead = .done then
        storage.disk.node? (decimal chunkId :: filename :: dataName :: storage.disk.cwd)
      else none), storage) := by
  have chunk := (fileNames_of_valid valid).chunk chunkId
  have path := chunk.chunkPath
  rw [joined_single] at path
  rw [step_read_lookup, path, Disk.lookup_of_spells (data.spells true chunk.chunk_valid)]
  rfl

theorem step_read {storage : Storage} {filename : Bytes} (chunkId : Int32) (faults : Faults)
    (layout : Layout storage.disk) (valid : ValidName filename) :
    ∃ opened, step storage ⟨.read filename chunkId, faults⟩ =
        some (.opened opened, storage) ∧
      ∀ node, opened = some node →
        ∃ bytes, node = .file bytes ∧ stored storage.disk filename chunkId = some bytes := by
  refine ⟨_, step_read_eq chunkId faults layout.dataDirectory valid, ?_⟩
  intro node found
  split at found
  · rw [layout.node?_eq_stored, Option.map_eq_some_iff] at found
    obtain ⟨bytes, held, rfl⟩ := found
    exact ⟨bytes, rfl, held⟩
  · contradiction

end DistributedFileSystem.StorageLayer
