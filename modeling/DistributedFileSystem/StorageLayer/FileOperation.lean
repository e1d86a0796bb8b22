import DistributedFileSystem.Library.Posix.Change
import DistributedFileSystem.StorageLayer.FileState

/-!
Storing a chunk (`state/fileOperation.c`), opening one
(`httpServer/getFileDescriptor.c`) and the paths they build.
-/

namespace DistributedFileSystem.StorageLayer

open ByteString Posix

def pathSize : Nat := 512

def chunkPath (filename : Bytes) (chunkId : Int32) : Bytes :=
  snprintf pathSize (ascii "data/" ++ filename ++ ascii "/" ++ decimal chunkId)

def directoryPath (filename : Bytes) : Bytes :=
  snprintf pathSize (ascii "data/" ++ filename)

/-- The loop over `p`: `seen` is what `temp` holds once `*p` is zeroed. -/
def mkdirEachSlash {σ : Type} (seen : Bytes) : Bytes → Sys σ Unit
  | [] => pure ()
  | byte :: rest => do
      -- `p` starts at `temp + 1`, so a leading separator is passed over
      if byte = slash ∧ seen ≠ [] then
        let _ ← mkdir seen
      mkdirEachSlash (seen ++ [byte]) rest

def createDirectories {σ : Type} (path : Bytes) : Sys σ Bool := do
  let temp := snprintf pathSize path
  if slash ∉ temp then
    return true
  let parent := (temp.rdropWhile (· ≠ slash)).dropLast
  mkdirEachSlash [] parent
  let _ ← mkdir parent
  return true

def fileExists {σ : Type} (filepath : Bytes) : Sys σ Bool := do
  return (← access filepath).isSome

def isRegular : Node → Bool
  | .file _ => true
  | _ => false

def isRegularEntry (entry : Name × Node) : Bool :=
  entry.1 ≠ dot && entry.1 ≠ dotdot && isRegular entry.2

def directoryHasFiles {σ : Type} (dirpath : Bytes) : Sys σ Bool := do
  match ← opendir dirpath with
  | none => return false
  | some dir =>
      let entries ← readdir dir
      return entries.any isRegularEntry

def saveChunkToFile (filename data : Option Bytes) (chunkId : Int32) :
    Sys StorageStateOuter Bool := do
  match filename, data with
  | some filename, some data =>
      if data = [] then
        return false
      let fullPath := chunkPath filename chunkId
      let fileExistedBefore ← fileExists fullPath
      let directoryHasFile ← directoryHasFiles (directoryPath filename)
      if fileExistedBefore then
        return true
      if !(← createDirectories fullPath) then
        return false
      match ← fopenAppend fullPath with
      | none => return false
      | some file =>
          let written ← fwrite file data
          if written ≠ data.length then
            return false
          let allocated ← allocate .realloc
          let process ← get
          match insertToStruct allocated process.memory filename chunkId directoryHasFile with
          | none => failure
          | some state =>
              set { process with memory := state }
              return true
  | _, _ => return false

/-- The node behind the descriptor, `none` for `-1`. The scan stops at the first
entry of that name that lists the chunk. -/
def getFileDescriptor (filename : Bytes) (chunkId : Int32) :
    Sys StorageStateOuter (Option Node) := do
  let process ← get
  if process.memory.fileToChunkState.any fun file =>
      file.filePath = filename && file.chunkIds.contains chunkId then
    openRead (chunkPath filename chunkId)
  else return none

def dataName : Name := ascii "data"

theorem dataName_valid : ValidName dataName := by decide

theorem decimal_valid (chunkId : Int32) : ValidName (decimal chunkId) := by
  have length := decimal_length chunkId
  refine ⟨decimal_ne_nil chunkId, ?_, ?_, ?_, ?_⟩
  · intro member
    have range := decimal_range member
    simp [slash, minus] at range
  · intro same
    have range := @decimal_range chunkId 46 (by rw [same]; decide)
    simp [minus] at range
  · intro same
    have range := @decimal_range chunkId 46 (by rw [same]; decide)
    simp [minus] at range
  · simp only [nameMax]
    omega

theorem chunkPath_eq {names : List Name} {chunkId : Int32} (nonempty : names ≠ [])
    (fits : (joined (dataName :: names ++ [decimal chunkId])).length < pathSize) :
    chunkPath (joined names) chunkId = joined (dataName :: names ++ [decimal chunkId]) := by
  have spelled : ascii "data/" ++ joined names ++ ascii "/" ++ decimal chunkId =
      joined (dataName :: names ++ [decimal chunkId]) := by
    rw [joined_concat _ (by simp)]
    obtain ⟨first, rest, rfl⟩ := List.exists_cons_of_ne_nil nonempty
    rw [joined_cons]
    simp [ascii, dataName, slash]
  rw [chunkPath, spelled, snprintf_of_fits fits]

theorem directoryPath_eq {names : List Name} (nonempty : names ≠ [])
    (fits : (joined (dataName :: names)).length < pathSize) :
    directoryPath (joined names) = joined (dataName :: names) := by
  have spelled : ascii "data/" ++ joined names = joined (dataName :: names) := by
    obtain ⟨first, rest, rfl⟩ := List.exists_cons_of_ne_nil nonempty
    rw [joined_cons]
    simp [ascii, dataName, slash]
  rw [directoryPath, spelled, snprintf_of_fits fits]

variable {σ : Type}

theorem mkdirEachSlash_last (seen bytes : Bytes) (plain : slash ∉ bytes) :
    (mkdirEachSlash seen bytes : Sys σ Unit) = pure () := by
  induction bytes generalizing seen with
  | nil => rfl
  | cons byte rest ih =>
      have notSlash : byte ≠ slash := fun same => plain (by simp [same])
      have tail := ih (seen ++ [byte]) fun member => plain (by simp [member])
      simpa [mkdirEachSlash, notSlash] using tail

theorem mkdirEachSlash_next (seen name rest : Bytes) (plain : slash ∉ name)
    (nonempty : seen ++ name ≠ []) :
    (mkdirEachSlash seen (name ++ slash :: rest) : Sys σ Unit) =
      (mkdir (seen ++ name) >>= fun _ => mkdirEachSlash (seen ++ name ++ [slash]) rest) := by
  induction name generalizing seen with
  | nil =>
      rw [List.append_nil] at nonempty
      simp [mkdirEachSlash, nonempty]
  | cons byte others ih =>
      have notSlash : byte ≠ slash := fun same => plain (by simp [same])
      have tail := ih (seen ++ [byte]) (fun member => plain (by simp [member])) (by simp)
      simpa [mkdirEachSlash, notSlash] using tail

def mkdirChain (front : List Name) : List Name → Sys σ Unit
  | [] => pure ()
  | name :: rest => do
      let _ ← mkdir (joined (front ++ [name]))
      mkdirChain (front ++ [name]) rest

theorem mkdirEachSlash_chain (front rest : List Name) (name : Name)
    (relative : Relative (front ++ name :: rest)) :
    (mkdirEachSlash (if front = [] then [] else joined front ++ [slash])
        (joined (name :: rest)) >>= fun _ => mkdir (joined (front ++ name :: rest)) >>= fun _ =>
      (pure () : Sys σ Unit)) = mkdirChain front (name :: rest) := by
  induction rest generalizing front name with
  | nil =>
      have single : joined [name] = name := by simp [joined, List.intercalate]
      rw [single, mkdirEachSlash_last _ _ (relative.plain name (by simp))]
      simp [mkdirChain]
  | cons next others ih =>
      have nonempty : front = [] → name ≠ [] := by
        rintro rfl rfl
        exact relative.first rfl
      have seen : (if front = [] then [] else joined front ++ [slash]) ++ name =
          joined (front ++ [name]) := by
        split
        · rename_i empty
          simp [empty, joined, List.intercalate]
        · rename_i more
          rw [joined_concat name more]
          simp
      have tail := ih (front ++ [name]) next (by simpa using relative)
      rw [joined_cons, mkdirEachSlash_next _ _ _ (relative.plain name (by simp)) (by
          split
          · rename_i empty
            simpa using nonempty empty
          · simp), seen, mkdirChain, ← tail]
      simp

theorem createDirectories_eq {names : List Name} {last : Name} (relative : Relative names)
    (plain : slash ∉ last) (fits : (joined (names ++ [last])).length < pathSize) :
    (createDirectories (joined (names ++ [last])) : Sys σ Bool) =
      (mkdirChain [] names >>= fun _ => pure true) := by
  have text := joined_concat last relative.nonempty
  have parent : ((joined (names ++ [last])).rdropWhile (· ≠ slash)).dropLast = joined names := by
    rw [text, rdropWhile_separator _ plain, List.dropLast_concat]
  obtain ⟨first, rest, rfl⟩ := List.exists_cons_of_ne_nil relative.nonempty
  have chain := @mkdirEachSlash_chain σ [] rest first relative
  have inside : ¬slash ∉ joined (first :: rest ++ [last]) := by
    rw [text]
    simp
  rw [← chain, createDirectories, snprintf_of_fits fits, parent]
  simp only [inside, if_false]
  simp

structure DataDirectory (disk : Disk) : Prop where
  dir : disk.node? (dataName :: disk.cwd) = some .dir
  plain : disk.PlainBelow (dataName :: disk.cwd)

structure StoreDirectory (disk : Disk) : Prop where
  cwd : disk.node? disk.cwd = some .dir
  plain : disk.PlainBelow (dataName :: disk.cwd)

theorem DataDirectory.store {disk : Disk} (data : DataDirectory disk) : StoreDirectory disk :=
  ⟨@Disk.parent_dir disk dataName disk.cwd (by simp [data.dir]), data.plain⟩

theorem StoreDirectory.made {before after : Disk} {bottom : Location}
    (store : StoreDirectory before) (made : MadeDirs before after bottom) :
    StoreDirectory after := by
  constructor
  · rw [made.cwd]
    exact made.some_of_some store.cwd
  · rw [made.cwd]
    exact made.plainBelow store.plain

theorem StoreDirectory.filled {before after : Disk} (store : StoreDirectory before)
    {names : List Name} {name : Name} {bytes : Bytes}
    (filled : Filled before after (names.reverse ++ dataName :: before.cwd) name bytes) :
    StoreDirectory after := by
  constructor
  · rw [filled.cwd]
    refine filled.some_of_some ?_ store.cwd
    intro same
    have lengths := congrArg List.length same
    simp only [List.length_cons, List.length_append, List.length_reverse] at lengths
    omega
  · rw [filled.cwd]
    intro more target found
    by_cases same : more ++ dataName :: before.cwd =
        name :: (names.reverse ++ dataName :: before.cwd)
    · rw [same, filled.file] at found
      simp at found
    · rcases filled.node _ same with kept | ⟨_, _, isDir⟩
      · exact store.plain more target (by rw [← kept, found])
      · simp [isDir] at found

theorem DataDirectory.made {before after : Disk} {bottom : Location} (data : DataDirectory before)
    (made : MadeDirs before after bottom) : DataDirectory after := by
  refine ⟨?_, (data.store.made made).plain⟩
  rw [made.cwd]
  exact made.some_of_some data.dir

theorem DataDirectory.filled {before after : Disk} (data : DataDirectory before)
    {names : List Name} {name : Name} {bytes : Bytes}
    (filled : Filled before after (names.reverse ++ dataName :: before.cwd) name bytes) :
    DataDirectory after := by
  refine ⟨?_, (data.store.filled filled).plain⟩
  rw [filled.cwd]
  refine filled.some_of_some ?_ data.dir
  intro same
  have lengths := congrArg List.length same
  simp only [List.length_cons, List.length_append, List.length_reverse] at lengths
  omega

theorem StoreDirectory.spells {disk : Disk} (store : StoreDirectory disk) (follow : Bool)
    {names : List Name} {last : Name}
    (valid : ∀ name ∈ names ++ [last], ValidName name) :
    disk.Spells follow (joined (dataName :: (names ++ [last]))) last
      (names.reverse ++ dataName :: disk.cwd) := by
  have component : ∀ name ∈ dataName :: (names ++ [last]), Component name := by
    rw [List.forall_mem_cons]
    exact ⟨dataName_valid.component, fun name member => (valid name member).component⟩
  rw [Disk.Spells, Disk.resolve_eq_walkWith (.of_component (by simp) component),
    Disk.walkWith_name _ dataName_valid store.cwd (store.plain [])]
  exact Disk.walkWith_plain names last _ valid store.plain

theorem DataDirectory.spells {disk : Disk} (data : DataDirectory disk) (follow : Bool)
    {names : List Name} {last : Name}
    (valid : ∀ name ∈ names ++ [last], ValidName name) :
    disk.Spells follow (joined (dataName :: (names ++ [last]))) last
      (names.reverse ++ dataName :: disk.cwd) :=
  data.store.spells follow valid

def Free (disk : Disk) (bottom : Location) : Prop :=
  ∀ location, location <:+ bottom →
    disk.node? location = none ∨ disk.node? location = some .dir

theorem Free.made {before after : Disk} {top bottom : Location} (free : Free before bottom)
    (made : MadeDirs before after top) : Free after bottom := by
  intro location above
  rcases made.node location with same | ⟨_, _, dir⟩
  · rw [same]
    exact free location above
  · exact Or.inr dir

theorem mkdirChain_spec (mid rest : List Name) (process : Process σ)
    (valid : ∀ name ∈ mid ++ rest, ValidName name) (store : StoreDirectory process.disk) :
    ∃ disk faults, mkdirChain (dataName :: mid) rest process =
        some ((), { process with disk := disk, faults := faults }) ∧
      MadeDirs process.disk disk (rest.reverse ++ (mid.reverse ++ dataName :: process.disk.cwd)) ∧
      (∀ call, call ≠ .mkdir → faults call = process.faults call) ∧
      (process.faults.Clean .mkdir →
        process.disk.node? (mid.reverse ++ dataName :: process.disk.cwd) = some .dir →
        Free process.disk (rest.reverse ++ (mid.reverse ++ dataName :: process.disk.cwd)) →
        disk.node? (rest.reverse ++ (mid.reverse ++ dataName :: process.disk.cwd)) = some .dir) := by
  induction rest generalizing mid process with
  | nil =>
      exact ⟨process.disk, process.faults, rfl, MadeDirs.refl _ _, fun _ _ => rfl,
        fun _ top _ => by simpa using top⟩
  | cons name rest ih =>
      have here : ∀ other ∈ mid ++ [name], ValidName other :=
        fun other member => valid other (by simp at member ⊢; tauto)
      have trimmed := joined_concat_trimmed (dataName :: mid) (valid name (by simp)).component
      rw [List.cons_append] at trimmed
      obtain ⟨code, disk, ran, made, succeeds⟩ := mkdir_run process (by
        rw [trimmed]
        exact store.spells false here)
      obtain ⟨last, faults, finished, madeLater, same, existsLater⟩ :=
        ih (mid ++ [name]) { process.spend .mkdir with disk := disk }
          (fun other member => valid other (by simpa using member)) (store.made made)
      simp only [made.cwd, List.reverse_append, List.reverse_cons, List.reverse_nil,
        List.nil_append, List.cons_append, List.append_assoc] at madeLater existsLater ⊢
      refine ⟨last, faults, ?_, ?_, ?_, ?_⟩
      · rw [mkdirChain, List.cons_append, bind_of_some ran, finished]
        rfl
      · exact (made.deepen ⟨rest.reverse, by simp⟩).trans madeLater
      · intro call other
        rw [same call other]
        exact Faults.spend_of_ne other
      · intro clean above free
        apply existsLater (clean.spend .mkdir)
        · exact succeeds clean above (valid name (by simp)) (free _ ⟨rest.reverse, by simp⟩)
        · exact free.made made

theorem mkdir_data (process : Process σ)
    (cwd : process.disk.node? process.disk.cwd = some .dir) :
    ∃ code disk, mkdir (joined [dataName]) process =
        some (code, { process.spend .mkdir with disk := disk }) ∧
      MadeDirs process.disk disk (dataName :: process.disk.cwd) ∧
      (process.faults.Clean .mkdir →
        process.disk.node? (dataName :: process.disk.cwd) = none ∨
          process.disk.node? (dataName :: process.disk.cwd) = some .dir →
        disk.node? (dataName :: process.disk.cwd) = some .dir) := by
  have top : process.disk.Spells false (joined [dataName]) dataName process.disk.cwd :=
    @Disk.spells_joined process.disk false [] dataName (by simp [dataName_valid])
      cwd (fun _ _ => rfl)
  have trimmed : (joined [dataName]).rdropWhile (· = slash) = joined [dataName] :=
    joined_concat_trimmed [] dataName_valid.component
  obtain ⟨code, disk, ran, made, makes⟩ := mkdir_run process (by rw [trimmed]; exact top)
  exact ⟨code, disk, ran, made, fun clean => makes clean cwd dataName_valid⟩

theorem createDirectories_spec {names : List Name} {last : Name} (process : Process σ)
    (valid : ∀ name ∈ names ++ [last], ValidName name) (store : StoreDirectory process.disk)
    (fits : (joined (dataName :: (names ++ [last]))).length < pathSize) :
    ∃ disk faults, createDirectories (joined (dataName :: (names ++ [last]))) process =
        some (true, { process with disk := disk, faults := faults }) ∧
      MadeDirs process.disk disk (names.reverse ++ dataName :: process.disk.cwd) ∧
      (∀ call, call ≠ .mkdir → faults call = process.faults call) ∧
      (process.faults.Clean .mkdir →
        Free process.disk (names.reverse ++ dataName :: process.disk.cwd) →
        disk.node? (names.reverse ++ dataName :: process.disk.cwd) = some .dir) := by
  have allValid : ∀ name ∈ (dataName :: names) ++ [last], ValidName name := by
    intro name member
    rcases List.mem_cons.mp member with rfl | inside
    · exact dataName_valid
    · exact valid name inside
  obtain ⟨code, disk, ran, made, makes⟩ := mkdir_data process store.cwd
  obtain ⟨final, faults, finished, madeLater, same, existsLater⟩ :=
    mkdirChain_spec [] names { process.spend .mkdir with disk := disk }
      (fun name member => valid name (by simp at member ⊢; tauto)) (store.made made)
  simp only [made.cwd, List.reverse_nil, List.nil_append] at madeLater existsLater
  refine ⟨final, faults, ?_, ?_, ?_, ?_⟩
  · have equation := @createDirectories_eq σ (dataName :: names) last
      (.of_component (by simp) fun name member =>
        (allValid name (List.mem_append_left _ member)).component)
      (allValid last (by simp)).2.1 fits
    rw [List.cons_append] at equation
    rw [equation, mkdirChain, List.nil_append, bind_assoc, bind_of_some ran, bind_of_some finished]
    rfl
  · exact (made.deepen ⟨names.reverse, rfl⟩).trans madeLater
  · intro call other
    rw [same call other]
    exact Faults.spend_of_ne other
  · intro clean free
    have dir := makes clean (free _ (List.suffix_append _ _))
    exact existsLater (clean.spend .mkdir) dir (free.made made)

def HasRegular (disk : Disk) (dir : Location) : Prop :=
  ∃ name bytes, disk.node? (name :: dir) = some (.file bytes)

theorem listing_regular {disk : Disk} {dir : Location} {name : Name} {node : Node}
    (member : (name, node) ∈ disk.listing dir) (regular : isRegular node = true) :
    HasRegular disk dir := by
  simp only [Disk.listing, List.mem_cons, Prod.mk.injEq, List.mem_filterMap,
    Option.map_eq_some_iff] at member
  rcases member with ⟨_, rfl⟩ | ⟨_, rfl⟩ | ⟨other, _, found, present, rfl, rfl⟩
  · simp [isRegular] at regular
  · simp [isRegular] at regular
  · cases found with
    | file bytes => exact ⟨other, bytes, present⟩
    | dir => simp [isRegular] at regular
    | symlink target => simp [isRegular] at regular

theorem directoryHasFiles_spec {path : Bytes} {last : Name} {parent : Location}
    (process : Process σ) (spells : process.disk.Spells true path last parent) :
    ∃ has faults, directoryHasFiles path process = some (has, { process with faults := faults }) ∧
      (∀ call, call ≠ .opendir → call ≠ .readdir → faults call = process.faults call) ∧
      (has = true → HasRegular process.disk (last :: parent)) ∧
      (process.faults.Clean .opendir → process.faults.Clean .readdir →
        HasRegular process.disk (last :: parent) → has = true) := by
  have opened := opendir_run process spells
  by_cases opens : process.faults.next .opendir = .done ∧
      process.disk.node? (last :: parent) = some .dir
  · rw [if_pos opens] at opened
    obtain ⟨entries, read, sublist, all⟩ := readdir_run (last :: parent) (process.spend .opendir)
    refine ⟨entries.any isRegularEntry, (process.faults.spend .opendir).spend .readdir,
      ?_, ?_, ?_, ?_⟩
    · rw [directoryHasFiles, bind_of_some opened]
      exact bind_of_some read
    · intro call notOpendir notReaddir
      rw [Faults.spend_of_ne notReaddir, Faults.spend_of_ne notOpendir]
    · intro regular
      obtain ⟨⟨name, node⟩, member, checked⟩ := List.any_eq_true.mp regular
      simp only [isRegularEntry, Bool.and_eq_true] at checked
      exact listing_regular (sublist.subset member) checked.2
    · rintro _ clean ⟨name, bytes, found⟩
      have present : (process.disk.node? (name :: last :: parent)).isSome := by simp [found]
      have valid : ValidName name := Disk.name_valid present
      rw [all (clean.spend .opendir), List.any_eq_true]
      refine ⟨(name, .file bytes), ?_, ?_⟩
      · simp only [Disk.listing, List.mem_cons, List.mem_filterMap]
        exact Or.inr (Or.inr ⟨name, Disk.mem_children.mpr (by simp [found]), by simp [found]⟩)
      · simp [isRegularEntry, valid.2.2.1, valid.2.2.2.1, isRegular]
  · rw [if_neg opens] at opened
    refine ⟨false, process.faults.spend .opendir, ?_, ?_, by simp, ?_⟩
    · rw [directoryHasFiles, bind_of_some opened]
      rfl
    · intro call notOpendir _
      exact Faults.spend_of_ne notOpendir
    · rintro clean _ ⟨name, bytes, found⟩
      have present : (process.disk.node? (name :: last :: parent)).isSome := by simp [found]
      exact absurd ⟨clean.next, Disk.parent_dir present⟩ opens

def Listed (process : Process σ) (dir : Location) (has : Bool) : Prop :=
  (has = true → HasRegular process.disk dir) ∧
    (process.faults.Clean .opendir → process.faults.Clean .readdir →
      HasRegular process.disk dir → has = true)

inductive SaveOutcome (process : Process StorageStateOuter) (filename data : Bytes)
    (chunkId : Int32) (dir : Location) : Option (Bool × Process StorageStateOuter) → Prop
  | stored (faults : Faults) : (process.disk.node? (decimal chunkId :: dir)).isSome →
      SaveOutcome process filename data chunkId dir (some (true, { process with faults := faults }))
  | refused (disk : Disk) (faults : Faults) :
      process.disk.node? (decimal chunkId :: dir) = none → MadeDirs process.disk disk dir →
      ¬(process.faults.Clean .mkdir ∧ process.faults.Clean .fopen ∧ Free process.disk dir) →
      SaveOutcome process filename data chunkId dir
        (some (false, { process with disk := disk, faults := faults }))
  | short (disk : Disk) (faults : Faults) (count : Nat) :
      process.disk.node? (decimal chunkId :: dir) = none →
      Filled process.disk disk dir (decimal chunkId) (data.take count) →
      ¬process.faults.Clean .fwrite →
      SaveOutcome process filename data chunkId dir
        (some (false, { process with disk := disk, faults := faults }))
  | recorded (disk : Disk) (faults : Faults) (has : Bool) (state : StorageStateOuter) :
      process.disk.node? (decimal chunkId :: dir) = none →
      Filled process.disk disk dir (decimal chunkId) data → Listed process dir has →
      insertToStruct (process.faults.next .realloc = .done) process.memory filename chunkId has =
        some state →
      SaveOutcome process filename data chunkId dir
        (some (true, { disk := disk, faults := faults, memory := state }))
  | outOfRange (has : Bool) : process.disk.node? (decimal chunkId :: dir) = none →
      Listed process dir has →
      insertToStruct (process.faults.next .realloc = .done) process.memory filename chunkId has =
        none →
      SaveOutcome process filename data chunkId dir none

structure FileNames (names : List Name) : Prop where
  nonempty : names ≠ []
  valid : ∀ name ∈ names, ValidName name
  fits : (joined (dataName :: names)).length + 12 < pathSize

structure ChunkNames (names : List Name) (chunkId : Int32) : Prop where
  nonempty : names ≠ []
  valid : ∀ name ∈ names, ValidName name
  fits : (joined (dataName :: (names ++ [decimal chunkId]))).length < pathSize

theorem joined_chunk (names : List Name) (chunkId : Int32) :
    joined (dataName :: (names ++ [decimal chunkId])) =
      joined (dataName :: names) ++ slash :: decimal chunkId := by
  have spelled := @joined_concat (dataName :: names) (decimal chunkId) (by simp)
  rwa [List.cons_append] at spelled

theorem FileNames.chunk {names : List Name} (file : FileNames names) (chunkId : Int32) :
    ChunkNames names chunkId := by
  refine ⟨file.nonempty, file.valid, ?_⟩
  have digits := decimal_length chunkId
  have fits := file.fits
  rw [joined_chunk, List.length_append, List.length_cons]
  omega

namespace ChunkNames

variable {names : List Name} {chunkId : Int32}

theorem chunk_valid (chunk : ChunkNames names chunkId) :
    ∀ name ∈ names ++ [decimal chunkId], ValidName name := by
  intro name member
  rcases List.mem_append.mp member with inside | last
  · exact chunk.valid name inside
  · rw [List.mem_singleton.mp last]
    exact decimal_valid chunkId

theorem chunkPath (chunk : ChunkNames names chunkId) :
    chunkPath (joined names) chunkId = joined (dataName :: (names ++ [decimal chunkId])) :=
  chunkPath_eq chunk.nonempty chunk.fits

theorem directory_fits (chunk : ChunkNames names chunkId) :
    (joined (dataName :: names)).length < pathSize := by
  have fits := chunk.fits
  rw [joined_chunk, List.length_append] at fits
  omega

theorem spells_dir (chunk : ChunkNames names chunkId) {disk : Disk}
    (store : StoreDirectory disk) (follow : Bool) :
    ∃ last parent, names.reverse ++ dataName :: disk.cwd = last :: parent ∧
      disk.Spells follow (directoryPath (joined names)) last parent := by
  rw [directoryPath_eq chunk.nonempty chunk.directory_fits]
  have valid := chunk.valid
  obtain ⟨front, last, rfl⟩ := (List.eq_nil_or_concat' names).resolve_left chunk.nonempty
  exact ⟨last, front.reverse ++ dataName :: disk.cwd, by simp, store.spells follow valid⟩

end ChunkNames

theorem fileExists_run {path : Bytes} {last : Name} {parent : Location} (process : Process σ)
    (spells : process.disk.Spells true path last parent) (unblocked : process.faults.Clean .access) :
    fileExists path process =
      some ((process.disk.node? (last :: parent)).isSome, process.spend .access) := by
  have ran : access path process =
      some (process.disk.node? (last :: parent), process.spend .access) := by
    rw [access, attempt_stat, if_pos unblocked.next, Disk.lookup_of_spells spells]
  rw [fileExists, bind_of_some ran]
  rfl

/-- A save whose paths lead nowhere makes directories at most. -/
theorem saveChunkToFile_lost {filename bytes : Bytes} {chunkId : Int32}
    {process : Process StorageStateOuter} {disk : Disk} {faults : Faults} (nonempty : bytes ≠ [])
    (before : process.disk.resolve true (chunkPath filename chunkId) = none)
    (directory : process.disk.resolve true (directoryPath filename) = none)
    (created : createDirectories (chunkPath filename chunkId)
        ((process.spend .access).spend .opendir) =
      some (true, { process with disk := disk, faults := faults }))
    (after : disk.resolve true (chunkPath filename chunkId) = none) :
    saveChunkToFile (some filename) (some bytes) chunkId process =
      some (false, { process with disk := disk, faults := faults.spend .fopen }) := by
  have seen : fileExists (chunkPath filename chunkId) process =
      some (false, process.spend .access) := by
    rw [fileExists, access, bind_of_some (attempt_of_none ?_)]
    · rfl
    · rw [Disk.stat, Disk.lookup, before]
      rfl
  have looked : directoryHasFiles (directoryPath filename) (process.spend .access) =
      some (false, (process.spend .access).spend .opendir) := by
    rw [directoryHasFiles, opendir, bind_of_some (attempt_of_none ?_)]
    · rfl
    · rw [Process.spend_disk, Disk.opendir, directory]
  have refused : fopenAppend (chunkPath filename chunkId)
      ({ process with disk := disk, faults := faults } : Process StorageStateOuter) =
      some (none, { process with disk := disk, faults := faults.spend .fopen }) := by
    rw [fopenAppend, attempt_of_none]
    · rfl
    · rw [Disk.openAppend, after]
  simp only [saveChunkToFile, nonempty, if_false]
  rw [bind_of_some seen, bind_of_some looked]
  simp only [Bool.false_eq_true, if_false]
  rw [bind_of_some created]
  simp only [Bool.not_true, Bool.false_eq_true, if_false]
  exact bind_of_some refused

def takesChunk (fullPath data : Bytes) : Sys σ Bool := do
  if !(← createDirectories fullPath) then
    return false
  match ← fopenAppend fullPath with
  | none => return false
  | some file => return (← fwrite file data) = data.length

def recordChunk (filename : Bytes) (chunkId : Int32) (directoryHasFile : Bool) :
    Sys StorageStateOuter Bool := do
  let allocated ← allocate .realloc
  let process ← get
  match insertToStruct allocated process.memory filename chunkId directoryHasFile with
  | none => failure
  | some state =>
      set { process with memory := state }
      return true

theorem saveChunkToFile_eq {filename data : Bytes} (chunkId : Int32) (nonempty : data ≠ []) :
    saveChunkToFile (some filename) (some data) chunkId = do
      let fileExistedBefore ← fileExists (chunkPath filename chunkId)
      let directoryHasFile ← directoryHasFiles (directoryPath filename)
      if fileExistedBefore then
        return true
      if ← takesChunk (chunkPath filename chunkId) data then
        recordChunk filename chunkId directoryHasFile
      else
        return false := by
  simp only [saveChunkToFile, nonempty, if_false, takesChunk, bind_assoc]
  congr
  funext existed
  congr
  funext has
  cases existed with
  | true => rfl
  | false =>
      simp only [Bool.false_eq_true, if_false]
      congr
      funext created
      cases created with
      | false => simp
      | true =>
          simp only [Bool.not_true, Bool.false_eq_true, if_false, bind_assoc]
          congr
          funext opened
          cases opened with
          | none => simp
          | some file =>
              simp only [bind_assoc, pure_bind]
              congr
              funext count
              by_cases whole : count = data.length
              · simp only [whole, ne_eq, not_true_eq_false, if_false, decide_true, if_true]
                rfl
              · simp [whole]

/-- Directories are made, the file is opened and the bytes are written, or it ends before. -/
theorem takesChunk_run {names : List Name} {chunkId : Int32} (chunk : ChunkNames names chunkId)
    (process : Process σ) (store : StoreDirectory process.disk)
    (absent : process.disk.node? (decimal chunkId ::
      (names.reverse ++ dataName :: process.disk.cwd)) = none) (data : Bytes) :
    ∃ taken disk faults, takesChunk (chunkPath (joined names) chunkId) data process =
        some (taken, { process with disk := disk, faults := faults }) ∧
      faults .realloc = process.faults .realloc ∧
      (taken = false ∧
          MadeDirs process.disk disk (names.reverse ++ dataName :: process.disk.cwd) ∧
          ¬(process.faults.Clean .mkdir ∧ process.faults.Clean .fopen ∧
            Free process.disk (names.reverse ++ dataName :: process.disk.cwd)) ∨
        taken = false ∧ ¬process.faults.Clean .fwrite ∧ (∃ count,
          Filled process.disk disk (names.reverse ++ dataName :: process.disk.cwd)
            (decimal chunkId) (data.take count)) ∨
        taken = true ∧ Filled process.disk disk
          (names.reverse ++ dataName :: process.disk.cwd) (decimal chunkId) data) := by
  have chunkValid := chunk.chunk_valid
  obtain ⟨made, faults, created, madeDirs, same, makes⟩ :=
    createDirectories_spec process chunkValid store chunk.fits
  have nothing : made.node? (decimal chunkId :: (names.reverse ++ dataName :: made.cwd)) = none := by
    rw [madeDirs.cwd, madeDirs.node_below, absent]
  obtain ⟨opened, disk, ran, opens⟩ := fopenAppend_run
    ({ process with disk := made, faults := faults } : Process σ)
    ((store.made madeDirs).spells true chunkValid) nothing
  simp only [madeDirs.cwd] at opens
  rw [chunk.chunkPath, takesChunk, bind_of_some created]
  simp only [Bool.not_true, Bool.false_eq_true, if_false]
  rw [bind_of_some ran]
  rcases opens with ⟨rfl, rfl, unclean⟩ | ⟨rfl, filled⟩
  · refine ⟨false, disk, faults.spend .fopen, rfl, ?_, Or.inl ⟨rfl, madeDirs, ?_⟩⟩
    · rw [Faults.spend_of_ne (by simp), same _ (by simp)]
    · rintro ⟨cleanMkdir, cleanFopen, free⟩
      exact unclean ⟨cleanFopen.of_eq (same _ (by simp)), makes cleanMkdir free, decimal_valid chunkId⟩
  · obtain ⟨count, final, wrote, filledFinal, bound, complete⟩ := fwrite_run
      ({ process with disk := disk, faults := faults.spend .fopen } : Process σ) data filled
    have whole := filledFinal.of_made madeDirs
    refine ⟨decide (count = data.length), final, (faults.spend .fopen).spend .fwrite, ?_, ?_, ?_⟩
    · exact bind_of_some wrote
    · rw [Faults.spend_of_ne (by simp), Faults.spend_of_ne (by simp), same _ (by simp)]
    · by_cases short : count = data.length
      · rw [short, List.take_length] at whole
        exact Or.inr (Or.inr ⟨by simp [short], whole⟩)
      · refine Or.inr (Or.inl ⟨by simp [short], ?_, count, whole⟩)
        exact fun clean => short (complete ((clean.of_eq (same _ (by simp))).spend .fopen))

theorem saveChunkToFile_outcome {names : List Name} {chunkId : Int32}
    (chunk : ChunkNames names chunkId) (process : Process StorageStateOuter)
    (store : StoreDirectory process.disk) {bytes : Bytes} (nonempty : bytes ≠ [])
    (unblocked : process.faults.Clean .access) :
    SaveOutcome process (joined names) bytes chunkId
      (names.reverse ++ dataName :: process.disk.cwd)
      (saveChunkToFile (some (joined names)) (some bytes) chunkId process) := by
  have existed := fileExists_run process (store.spells true chunk.chunk_valid) unblocked
  rw [← chunk.chunkPath] at existed
  obtain ⟨last, parent, here, dirSpells⟩ := chunk.spells_dir store true
  obtain ⟨has, faults, looked, sameFaults, listed, lists⟩ :=
    directoryHasFiles_spec (process.spend .access) dirSpells
  have answer : Listed process (names.reverse ++ dataName :: process.disk.cwd) has := by
    rw [Listed, here]
    exact ⟨listed, fun opens reads => lists (opens.spend .access) (reads.spend .access)⟩
  have unspent : ∀ call, call ≠ .access → call ≠ .opendir → call ≠ .readdir →
      faults call = process.faults call := by
    intro call notAccess notOpendir notReaddir
    rw [sameFaults call notOpendir notReaddir]
    exact Faults.spend_of_ne notAccess
  rw [saveChunkToFile_eq chunkId nonempty, bind_of_some existed, bind_of_some looked]
  cases found : process.disk.node? (decimal chunkId :: (names.reverse ++ dataName :: process.disk.cwd)) with
  | some node => exact SaveOutcome.stored faults (by simp [found])
  | none =>
      obtain ⟨taken, disk, left, took, realloc, outcome⟩ :=
        takesChunk_run chunk { process with faults := faults } store found bytes
      simp only [Option.isSome_none, Bool.false_eq_true, if_false]
      have took : takesChunk (chunkPath (joined names) chunkId) bytes
          { process.spend .access with faults := faults } = _ := took
      rw [bind_of_some took]
      rcases outcome with ⟨rfl, made, unclean⟩ | ⟨rfl, unclean, count, filled⟩ | ⟨rfl, filled⟩
      · refine SaveOutcome.refused disk left found made ?_
        rintro ⟨cleanMkdir, cleanFopen, free⟩
        apply unclean
        exact ⟨cleanMkdir.of_eq (unspent _ (by simp) (by simp) (by simp)),
          cleanFopen.of_eq (unspent _ (by simp) (by simp) (by simp)), free⟩
      · refine SaveOutcome.short disk left count found filled ?_
        exact fun clean => unclean (clean.of_eq (unspent _ (by simp) (by simp) (by simp)))
      · have reallocs : left.next .realloc = process.faults.next .realloc :=
          Faults.next_of_eq (realloc.trans (unspent _ (by simp) (by simp) (by simp)))
        simp only [if_true, recordChunk, bind_apply, allocate, Option.bind_some, get_apply, reallocs]
        cases inserted : insertToStruct (process.faults.next .realloc = .done) process.memory
            (joined names) chunkId has with
        | none =>
            simp only [Process.spend_memory, inserted]
            exact SaveOutcome.outOfRange has found answer inserted
        | some state =>
            simp only [Process.spend_memory, inserted]
            exact SaveOutcome.recorded disk _ has state found filled answer inserted

end DistributedFileSystem.StorageLayer
