import DistributedFileSystem.StorageLayer.IndexAgreement

/-!
The chunk store under names of several components, which share one tree below
`data`: what a save and a delete do to it when no file system call fails.
-/

namespace DistributedFileSystem.StorageLayer

open ByteString Posix Transition

structure Spelled (names : List Name) : Prop where
  nonempty : names ≠ []
  component : ∀ name ∈ names, Component name

def Long (names : List Name) : Prop := ∃ name ∈ names, nameMax < name.length

theorem Spelled.valid {names : List Name} (spelled : Spelled names) (short : ¬Long names) :
    ∀ name ∈ names, ValidName name := by
  intro name member
  apply (spelled.component name member).valid
  by_contra exceeds
  exact short ⟨name, member, by omega⟩

theorem Spelled.injective {left right : List Name} (leftSpelled : Spelled left)
    (rightSpelled : Spelled right) (same : joined left = joined right) : left = right :=
  joined_injective leftSpelled.nonempty rightSpelled.nonempty leftSpelled.component
    rightSpelled.component same

section LongNames

variable {σ : Type}

theorem DataDirectory.resolve_long {disk : Disk} {follow : Bool} (data : DataDirectory disk)
    {names : List Name} (component : ∀ name ∈ names, Component name) (long : Long names) :
    disk.resolve follow (joined (dataName :: names)) = none := by
  have below := @Disk.resolve_long disk follow [dataName] names (by simp [dataName_valid]) component
    (by simpa using data.dir) (by simpa using data.plain) long
  simpa using below

theorem mkdir_long {names : List Name} (process : Process σ) (data : DataDirectory process.disk)
    (component : ∀ name ∈ names, Component name) (long : Long names) :
    mkdir (joined (dataName :: names)) process = some (-1, process.spend .mkdir) := by
  have trimmed : (joined (dataName :: names)).rdropWhile (· = slash) = joined (dataName :: names) := by
    apply joined_trimmed (by simp)
    rw [List.forall_mem_cons]
    exact ⟨dataName_valid.component, component⟩
  have refused : process.disk.mkdir (joined (dataName :: names)) = none := by
    rw [Disk.mkdir, trimmed, data.resolve_long component long]
  rw [mkdir, bind_of_some (attempt_of_none refused)]
  rfl

theorem mkdirChain_append (front first second : List Name) :
    (mkdirChain front (first ++ second) : Sys σ Unit) =
      (mkdirChain front first >>= fun _ => mkdirChain (front ++ first) second) := by
  induction first generalizing front with
  | nil => simp [mkdirChain]
  | cons name rest ih => simp [mkdirChain, ih]

/-- Past a name that is too long nothing is made. -/
theorem mkdirChain_long (mid rest : List Name) (process : Process σ)
    (data : DataDirectory process.disk) (component : ∀ name ∈ mid ++ rest, Component name)
    (long : ∀ name, rest.head? = some name → Long (mid ++ [name])) :
    ∃ faults, mkdirChain (dataName :: mid) rest process =
      some ((), { process with faults := faults }) := by
  induction rest generalizing mid process with
  | nil => exact ⟨process.faults, rfl⟩
  | cons name rest ih =>
      have here := long name rfl
      have refused := @mkdir_long _ (mid ++ [name]) process data
        (fun other member => component other (by simp at member ⊢; tauto)) here
      obtain ⟨faults, finished⟩ := ih (mid ++ [name]) (process.spend .mkdir) data
        (fun other member => component other (by simpa using member)) (by
          intro other _
          obtain ⟨exceeding, member, exceeds⟩ := here
          exact ⟨exceeding, by simp at member ⊢; tauto, exceeds⟩)
      refine ⟨faults, ?_⟩
      rw [mkdirChain, List.cons_append, bind_of_some refused]
      exact finished

theorem createDirectories_long {front back : List Name} {name last : Name} (process : Process σ)
    (data : DataDirectory process.disk) (valid : ∀ other ∈ front, ValidName other)
    (component : ∀ other ∈ front ++ name :: back ++ [last], Component other)
    (exceeds : nameMax < name.length)
    (fits : (joined (dataName :: (front ++ name :: back ++ [last]))).length < pathSize) :
    ∃ disk faults, createDirectories (joined (dataName :: (front ++ name :: back ++ [last]))) process =
        some (true, { process with disk := disk, faults := faults }) ∧
      MadeDirs process.disk disk (front.reverse ++ dataName :: process.disk.cwd) := by
  have equation := @createDirectories_eq σ (dataName :: (front ++ name :: back)) last
    (.of_component (by simp) (by
      rw [List.forall_mem_cons]
      exact ⟨dataName_valid.component, fun other member =>
        component other (List.mem_append_left _ member)⟩))
    (component last (by simp)).2.1 fits
  obtain ⟨_, disk, ran, made, _⟩ := mkdir_data process data.store.cwd
  obtain ⟨middle, faults, started, madeLater, _⟩ := mkdirChain_spec [] front
    { process.spend .mkdir with disk := disk } (by simpa using valid) (data.made made).store
  simp only [made.cwd, List.reverse_nil, List.nil_append] at madeLater
  obtain ⟨left, finished⟩ := mkdirChain_long front (name :: back)
    ({ process with disk := middle, faults := faults } : Process σ)
    ((data.made made).made madeLater)
    (fun other member => component other (List.mem_append_left _ member)) (by
      intro other first
      obtain rfl : name = other := by simpa using first
      exact ⟨name, by simp, exceeds⟩)
  refine ⟨middle, left, ?_, (made.deepen ⟨front.reverse, rfl⟩).trans madeLater⟩
  rw [List.cons_append] at equation
  rw [equation, mkdirChain, List.nil_append, bind_assoc, bind_of_some ran, mkdirChain_append,
    bind_assoc, bind_of_some started]
  exact bind_of_some finished

end LongNames

/-- A save under a name with a component too long for a directory entry stores nothing. -/
theorem saveChunkToFile_long {front back : List Name} {name : Name} {chunkId : Int32}
    (process : Process StorageStateOuter) (data : DataDirectory process.disk)
    (valid : ∀ other ∈ front, ValidName other)
    (component : ∀ other ∈ front ++ name :: back, Component other)
    (exceeds : nameMax < name.length)
    (fits : (joined (dataName :: (front ++ name :: back ++ [decimal chunkId]))).length < pathSize)
    {bytes : Bytes} (nonempty : bytes ≠ []) :
    ∃ disk faults, saveChunkToFile (some (joined (front ++ name :: back))) (some bytes) chunkId process =
        some (false, { process with disk := disk, faults := faults }) ∧
      MadeDirs process.disk disk (front.reverse ++ dataName :: process.disk.cwd) := by
  have chunkSpelled : ∀ other ∈ front ++ name :: back ++ [decimal chunkId], Component other := by
    rw [List.forall_mem_append]
    exact ⟨component, by simpa using (decimal_valid chunkId).component⟩
  have path : chunkPath (joined (front ++ name :: back)) chunkId =
      joined (dataName :: (front ++ name :: back ++ [decimal chunkId])) :=
    chunkPath_eq (by simp) fits
  have chunkLong : Long (front ++ name :: back ++ [decimal chunkId]) := ⟨name, by simp, exceeds⟩
  have directoryFits : (joined (dataName :: (front ++ name :: back))).length < pathSize := by
    rw [joined_chunk, List.length_append] at fits
    omega
  have directory : directoryPath (joined (front ++ name :: back)) =
      joined (dataName :: (front ++ name :: back)) := directoryPath_eq (by simp) directoryFits
  obtain ⟨disk, faults, created, made⟩ := createDirectories_long
    ((process.spend .access).spend .opendir) data valid chunkSpelled exceeds fits
  have before := @DataDirectory.resolve_long process.disk true data _ chunkSpelled chunkLong
  have closed := @DataDirectory.resolve_long process.disk true data _ component
    ⟨name, by simp, exceeds⟩
  have after := @DataDirectory.resolve_long disk true (data.made made) _ chunkSpelled chunkLong
  rw [← path] at created before after
  rw [← directory] at closed
  exact ⟨disk, faults.spend .fopen, saveChunkToFile_lost nonempty before closed created after, made⟩

def chunkFile (disk : Disk) (names : List Name) (chunkId : Int32) : Option Bytes :=
  match disk.node? (decimal chunkId :: (names.reverse ++ dataName :: disk.cwd)) with
  | some (.file bytes) => some bytes
  | _ => none

theorem chunkFile_eq_some {disk : Disk} {names : List Name} {chunkId : Int32} {bytes : Bytes} :
    chunkFile disk names chunkId = some bytes ↔
      disk.node? (decimal chunkId :: (names.reverse ++ dataName :: disk.cwd)) =
        some (.file bytes) := by
  unfold chunkFile
  split
  · rename_i held found
    simp [found]
  · rename_i other
    simp only [reduceCtorEq, false_iff]
    exact other bytes

/-- No path below `data` outgrows the buffers, and a directory with a file has an entry. -/
structure Sheltered (storage : Storage) : Prop where
  data : DataDirectory storage.disk
  short : ∀ names, (storage.disk.node? (names.reverse ++ dataName :: storage.disk.cwd)).isSome →
    (joined (dataName :: names)).length < pathSize
  covers : ∀ names, names ≠ [] →
    HasRegular storage.disk (names.reverse ++ dataName :: storage.disk.cwd) →
    ∃ file ∈ storage.table.fileToChunkState, file.filePath = joined names

inductive Growth (storage next : Storage) (names : List Name) (chunkId : Int32) : Prop
  | directories (front : List Name) : front <+: names →
      MadeDirs storage.disk next.disk (front.reverse ++ dataName :: storage.disk.cwd) →
      next.table = storage.table → Growth storage next names chunkId
  | chunk (bytes : Bytes) (has allocated : Bool) :
      storage.disk.node? (decimal chunkId :: (names.reverse ++ dataName :: storage.disk.cwd)) = none →
      Filled storage.disk next.disk (names.reverse ++ dataName :: storage.disk.cwd)
        (decimal chunkId) bytes →
      (has = true ↔ HasRegular storage.disk (names.reverse ++ dataName :: storage.disk.cwd)) →
      insertToStruct allocated storage.table (joined names) chunkId has = some next.table →
      Growth storage next names chunkId

def Fits (names : List Name) : Prop := (joined (dataName :: names)).length < pathSize

def Request.Nested : Request → Prop
  | .save filename _ chunkId => ∀ name, filename = some name →
      ∃ names, Spelled names ∧ name = joined names ∧ Fits (names ++ [decimal chunkId])
  | .delete filename => ∃ names, Spelled names ∧ filename = joined names ∧ Fits names
  | .read _ _ => False

def Action.Nested (action : Action) : Prop :=
  action.request.Nested ∧ FileSystemClean action.faults

theorem Long.split {names : List Name} (long : Long names) :
    ∃ front name back, names = front ++ name :: back ∧ nameMax < name.length ∧
      ∀ other ∈ front, other.length ≤ nameMax := by
  induction names with
  | nil => simp [Long] at long
  | cons first rest ih =>
      by_cases short : first.length ≤ nameMax
      · have later : Long rest := by
          obtain ⟨name, member, exceeds⟩ := long
          rcases List.mem_cons.mp member with rfl | inside
          · omega
          · exact ⟨name, inside, exceeds⟩
        obtain ⟨front, name, back, rfl, exceeds, all⟩ := ih later
        exact ⟨first :: front, name, back, rfl, exceeds, by simpa [short] using all⟩
      · exact ⟨[], first, rest, rfl, by omega, by simp⟩

theorem insertToStruct_isSome {storage : Storage} (sheltered : Sheltered storage)
    {names : List Name} {chunkId : Int32} {allocated has : Bool} (nonempty : names ≠ [])
    (answer : has = true →
      HasRegular storage.disk (names.reverse ++ dataName :: storage.disk.cwd)) :
    insertToStruct allocated storage.table (joined names) chunkId has ≠ none := by
  rw [ne_eq, insertToStruct_eq_none]
  rintro ⟨found, empty⟩
  obtain ⟨file, member, _⟩ := sheltered.covers names nonempty (answer found)
  simp [empty] at member

theorem step_save_nested {storage : Storage} (sheltered : Sheltered storage) {names : List Name}
    (spelled : Spelled names) {chunkId : Int32} (fits : Fits (names ++ [decimal chunkId]))
    {faults : Faults} (clean : FileSystemClean faults) (data : Option Bytes) :
    ∃ answer next, step storage ⟨.save (some (joined names)) data chunkId, faults⟩ =
        some (.saved answer, next) ∧ Growth storage next names chunkId := by
  have unchanged : Growth storage storage names chunkId :=
    Growth.directories [] List.nil_prefix (MadeDirs.refl _ _) rfl
  by_cases unchecked : data = none ∨ data = some []
  · exact ⟨false, storage, step_save_unchecked storage chunkId faults (Or.inr unchecked), unchanged⟩
  · obtain ⟨bytes, rfl⟩ := Option.ne_none_iff_exists'.mp fun missing => unchecked (Or.inl missing)
    have nonempty : bytes ≠ [] := fun empty => unchecked (Or.inr (by rw [empty]))
    rw [step_save]
    by_cases long : Long names
    · obtain ⟨front, name, back, rfl, exceeds, short⟩ := long.split
      obtain ⟨disk, left, saved, made⟩ := saveChunkToFile_long (storage.process faults)
        sheltered.data (fun other member => (spelled.component other (by simp [member])).valid
          (short other member)) spelled.component exceeds fits nonempty
      rw [saved]
      exact ⟨false, _, rfl, Growth.directories front (List.prefix_append _ _) made rfl⟩
    · have outcome := saveChunkToFile_outcome ⟨spelled.nonempty, spelled.valid long, fits⟩
        (storage.process faults) sheltered.data.store nonempty (clean _ (by simp) (by simp))
      generalize saveChunkToFile (some (joined names)) (some bytes) chunkId (storage.process faults) =
        ended at outcome
      cases outcome with
      | stored left _ => exact ⟨true, _, rfl, unchanged⟩
      | refused disk left _ made _ =>
          exact ⟨false, _, rfl, Growth.directories names List.prefix_rfl made rfl⟩
      | short _ _ _ _ _ unclean => exact absurd (clean _ (by simp) (by simp)) unclean
      | recorded disk left has table absent filled listed inserted =>
          exact ⟨true, _, rfl, Growth.chunk bytes has _ absent filled
            ⟨listed.1, listed.2 (clean _ (by simp) (by simp)) (clean _ (by simp) (by simp))⟩ inserted⟩
      | outOfRange has _ listed missing =>
          exact absurd missing (insertToStruct_isSome sheltered spelled.nonempty listed.1)

theorem Sheltered.directoryAt {storage : Storage} (sheltered : Sheltered storage) {names : List Name}
    (dir : storage.disk.node? (names.reverse ++ dataName :: storage.disk.cwd) = some .dir) :
    DirectoryAt storage.disk (dataName :: names) := by
  have place : (dataName :: names).reverse ++ storage.disk.cwd =
      names.reverse ++ dataName :: storage.disk.cwd := by simp
  have valid := @Disk.names_valid storage.disk names.reverse (dataName :: storage.disk.cwd)
    (by simp [dir])
  refine ⟨by simp, ?_, by rw [place, dir], ?_⟩
  · rw [List.forall_mem_cons]
    exact ⟨dataName_valid, fun name member => valid name (List.mem_reverse.mpr member)⟩
  · intro more present
    rw [place] at present
    have short := sheltered.short (names ++ more.reverse) (by simpa using present)
    rw [List.cons_append, filepathSize]
    rw [pathSize] at short
    omega

theorem step_delete_nested {storage : Storage} (sheltered : Sheltered storage) {names : List Name}
    (spelled : Spelled names) (fits : Fits names) {faults : Faults}
    (clean : FileSystemClean faults) :
    storage.disk.node? (names.reverse ++ dataName :: storage.disk.cwd) ≠ some .dir ∧
        step storage ⟨.delete (joined names), faults⟩ = some (.deleted false, storage) ∨
      storage.disk.node? (names.reverse ++ dataName :: storage.disk.cwd) = some .dir ∧
        ∃ disk, step storage ⟨.delete (joined names), faults⟩ =
            some (.deleted true,
              { disk := disk, table := removeFromStruct storage.table (joined names) }) ∧
          Pruned storage.disk disk [names.reverse ++ dataName :: storage.disk.cwd] ∧
          disk.node? (names.reverse ++ dataName :: storage.disk.cwd) = none := by
  have path := directoryPath_eq spelled.nonempty fits
  by_cases dir : storage.disk.node? (names.reverse ++ dataName :: storage.disk.cwd) = some .dir
  · refine Or.inr ⟨dir, ?_⟩
    obtain ⟨result, disk, left, ran, pruned, _, _, gone, succeeds⟩ :=
      removeDirectory_removes descriptorLimit (dataName :: names) (storage.process faults)
        (sheltered.directoryAt dir)
    have place : (dataName :: names).reverse ++ storage.disk.cwd =
        names.reverse ++ dataName :: storage.disk.cwd := by simp
    simp only [Storage.process_disk, place] at pruned gone succeeds
    have shallow := (sheltered.directoryAt dir).shallower (show 512 ≤ descriptorLimit by decide)
    rw [place] at shallow
    obtain rfl := succeeds clean.removal shallow
    rw [← path] at ran
    exact ⟨disk, step_delete_of_removed ran, pruned, gone rfl _ (List.mem_singleton_self _)⟩
  · refine Or.inl ⟨dir, ?_⟩
    have unopened : storage.disk.opendir (directoryPath (joined names)) = none := by
      rw [path]
      by_cases long : Long names
      · rw [Disk.opendir, sheltered.data.resolve_long spelled.component long]
      · obtain ⟨front, last, rfl⟩ := (List.eq_nil_or_concat' names).resolve_left spelled.nonempty
        rw [Disk.opendir_of_spells (sheltered.data.spells true (spelled.valid long)), if_neg]
        simpa using dir
    obtain ⟨left, ran⟩ := removeDirectory_unopened descriptorLimit (storage.process faults) unopened
    exact step_delete_of_removed ran

section Changes

variable {before after : Disk} {bottom dir : Location} {name : Name} {bytes : Bytes}

theorem hasRegular_of_made (made : MadeDirs before after bottom) :
    HasRegular after dir ↔ HasRegular before dir := by
  constructor
  · rintro ⟨child, held, found⟩
    rcases made.node (child :: dir) with same | ⟨_, _, isDir⟩
    · exact ⟨child, held, by rw [← same, found]⟩
    · simp [isDir] at found
  · rintro ⟨child, held, found⟩
    exact ⟨child, held, made.some_of_some found⟩

theorem hasRegular_of_filled (filled : Filled before after bottom name bytes) :
    HasRegular after dir ↔ dir = bottom ∨ HasRegular before dir := by
  constructor
  · rintro ⟨child, held, found⟩
    by_cases same : child :: dir = name :: bottom
    · exact Or.inl (List.cons.inj same).2
    · rcases filled.node _ same with kept | ⟨_, _, isDir⟩
      · exact Or.inr ⟨child, held, by rw [← kept, found]⟩
      · simp [isDir] at found
  · rintro (rfl | ⟨child, held, found⟩)
    · exact ⟨name, bytes, filled.file⟩
    · by_cases same : child :: dir = name :: bottom
      · rw [(List.cons.inj same).2]
        exact ⟨name, bytes, filled.file⟩
      · exact ⟨child, held, filled.some_of_some same found⟩

theorem hasRegular_of_pruned {tops : List Location} (pruned : Pruned before after tops)
    (regular : HasRegular after dir) : HasRegular before dir := by
  obtain ⟨child, held, found⟩ := regular
  exact ⟨child, held, pruned.some_of_some found⟩

theorem DataDirectory.pruned (data : DataDirectory before) {names : List Name}
    (nonempty : names ≠ [])
    (pruned : Pruned before after [names.reverse ++ dataName :: before.cwd]) :
    DataDirectory after := by
  constructor
  · rw [pruned.cwd, pruned.outside, data.dir]
    intro top member above
    rw [List.mem_singleton.mp member] at above
    have shorter := above.length_le
    have positive := List.length_pos_iff.mpr nonempty
    simp only [List.length_cons, List.length_append, List.length_reverse] at shorter
    omega
  · rw [pruned.cwd]
    intro more target found
    exact data.plain more target (pruned.some_of_some found)

end Changes

theorem Growth.cwd {storage next : Storage} {names : List Name} {chunkId : Int32}
    (growth : Growth storage next names chunkId) : next.disk.cwd = storage.disk.cwd := by
  cases growth with
  | directories front _ made _ => exact made.cwd
  | chunk bytes has allocated _ filled _ _ => exact filled.cwd

theorem Growth.data {storage next : Storage} {names : List Name} {chunkId : Int32}
    (growth : Growth storage next names chunkId) (data : DataDirectory storage.disk) :
    DataDirectory next.disk := by
  cases growth with
  | directories front _ made _ => exact data.made made
  | chunk bytes has allocated _ filled _ _ => exact data.filled filled

theorem fits_of_above {front names : List Name} {cwd : Location} (fits : Fits names)
    (above : front.reverse ++ dataName :: cwd <:+ names.reverse ++ dataName :: cwd) : Fits front := by
  rw [List.suffix_append_self_iff, List.reverse_suffix] at above
  have shorter := joined_length_mono ((List.prefix_cons_inj dataName).mpr above)
  rw [Fits] at fits ⊢
  omega

theorem Growth.fits {storage next : Storage} {names : List Name} {chunkId : Int32}
    (growth : Growth storage next names chunkId) (fits : Fits (names ++ [decimal chunkId]))
    (other : List Name)
    (present : (next.disk.node? (other.reverse ++ dataName :: storage.disk.cwd)).isSome) :
    (storage.disk.node? (other.reverse ++ dataName :: storage.disk.cwd)).isSome ∨ Fits other := by
  have inner : Fits names := by
    apply @fits_of_above _ _ storage.disk.cwd fits
    rw [List.suffix_append_self_iff, List.reverse_suffix]
    exact List.prefix_append _ _
  cases growth with
  | directories front above made _ =>
      rcases made.node (other.reverse ++ dataName :: storage.disk.cwd) with same | ⟨inside, _, _⟩
      · exact Or.inl (by rw [← same]; exact present)
      · refine Or.inr (fits_of_above (@fits_of_above _ _ storage.disk.cwd inner ?_) inside)
        rw [List.suffix_append_self_iff, List.reverse_suffix]
        exact above
  | chunk bytes has allocated _ filled _ _ =>
      by_cases chunk : other.reverse ++ dataName :: storage.disk.cwd =
          decimal chunkId :: (names.reverse ++ dataName :: storage.disk.cwd)
      · refine Or.inr (@fits_of_above _ _ storage.disk.cwd fits ?_)
        rw [chunk, List.reverse_append]
        exact List.suffix_refl _
      · rcases filled.node _ chunk with same | ⟨inside, _, _⟩
        · exact Or.inl (by rw [← same]; exact present)
        · exact Or.inr (fits_of_above inner inside)

theorem Sheltered.grown {storage next : Storage} (sheltered : Sheltered storage)
    {names : List Name} {chunkId : Int32} (growth : Growth storage next names chunkId)
    (fits : Fits (names ++ [decimal chunkId])) : Sheltered next := by
  refine ⟨growth.data sheltered.data, ?_, ?_⟩
  · intro other present
    rw [growth.cwd] at present
    rcases growth.fits fits other present with before | fitting
    · exact sheltered.short other before
    · exact fitting
  · intro other nonempty regular
    rw [growth.cwd] at regular
    cases growth with
    | directories front _ made same =>
        rw [same]
        exact sheltered.covers other nonempty ((hasRegular_of_made made).mp regular)
    | chunk bytes has allocated _ filled answer inserted =>
        have paths := insertToStruct_filePath inserted
        have listed : joined other ∈
            next.table.fileToChunkState.map FileStateCurrentInner.filePath := by
          rw [paths, List.mem_append]
          have known : HasRegular storage.disk (other.reverse ++ dataName :: storage.disk.cwd) →
              joined other ∈ storage.table.fileToChunkState.map FileStateCurrentInner.filePath := by
            intro before
            obtain ⟨file, member, same⟩ := sheltered.covers other nonempty before
            exact List.mem_map.mpr ⟨file, member, same⟩
          rcases (hasRegular_of_filled filled).mp regular with same | before
          · obtain rfl : other = names := List.reverse_inj.mp (List.append_cancel_right same)
            cases has with
            | true => exact Or.inl (known (answer.mp rfl))
            | false => exact Or.inr (by simp)
          · exact Or.inl (known before)
        obtain ⟨file, member, same⟩ := List.mem_map.mp listed
        exact ⟨file, member, same⟩

theorem Sheltered.deleted {storage : Storage} (sheltered : Sheltered storage) {disk : Disk}
    {names : List Name} (spelled : Spelled names)
    (pruned : Pruned storage.disk disk [names.reverse ++ dataName :: storage.disk.cwd])
    (gone : disk.node? (names.reverse ++ dataName :: storage.disk.cwd) = none) :
    Sheltered { disk := disk, table := removeFromStruct storage.table (joined names) } := by
  refine ⟨sheltered.data.pruned spelled.nonempty pruned, ?_, ?_⟩
  · intro other present
    simp only [pruned.cwd] at present
    obtain ⟨node, found⟩ := Option.isSome_iff_exists.mp present
    exact sheltered.short other (by rw [pruned.some_of_some found]; rfl)
  · intro other nonempty regular
    simp only [pruned.cwd] at regular
    obtain ⟨file, member, same⟩ := sheltered.covers other nonempty (hasRegular_of_pruned pruned regular)
    have different : file.filePath ≠ joined names := by
      intro equal
      obtain ⟨child, held, found⟩ := regular
      have component : ∀ name ∈ other, Component name := by
        intro name inside
        have valid := @Disk.names_valid disk (child :: other.reverse)
          (dataName :: storage.disk.cwd) (by simp [found])
        exact (valid name (by simp [inside])).component
      obtain rfl : other = names :=
        Spelled.injective ⟨nonempty, component⟩ spelled (same.symm.trans equal)
      rw [Disk.node?_none_of_parent (by simp [gone])] at found
      simp at found
    refine ⟨file, ?_, same⟩
    rw [removeFromStruct_eq, List.mem_eraseP_of_neg (by simpa using different)]
    exact member

theorem Storage.Fresh.sheltered {storage : Storage} (fresh : storage.Fresh) : Sheltered storage := by
  refine ⟨fresh.layout.dataDirectory, ?_, ?_⟩
  · intro names present
    by_cases empty : names = []
    · subst empty
      decide
    · have missing := @Storage.Fresh.absent _ fresh names.reverse (by simpa using empty)
      simp [missing] at present
  · rintro names _ ⟨child, held, found⟩
    have missing := @Storage.Fresh.absent _ fresh (child :: names.reverse) (by simp)
    rw [List.cons_append] at missing
    simp [missing] at found

inductive NestedStep (storage : Storage) (action : Action) (reply : Reply) (next : Storage) : Prop
  | refused : next = storage → (∀ removed, reply = .deleted removed → removed = false) →
      NestedStep storage action reply next
  | saved (names : List Name) (chunkId : Int32) (answer : Bool) : reply = .saved answer →
      Spelled names → Fits (names ++ [decimal chunkId]) → Growth storage next names chunkId →
      NestedStep storage action reply next
  | deleted (names : List Name) (disk : Disk) : action.request = .delete (joined names) →
      reply = .deleted true → Spelled names →
      storage.disk.node? (names.reverse ++ dataName :: storage.disk.cwd) = some .dir →
      Pruned storage.disk disk [names.reverse ++ dataName :: storage.disk.cwd] →
      disk.node? (names.reverse ++ dataName :: storage.disk.cwd) = none →
      next = { disk := disk, table := removeFromStruct storage.table (joined names) } →
      NestedStep storage action reply next

theorem step_nested {storage : Storage} (sheltered : Sheltered storage) {action : Action}
    (nested : action.Nested) :
    ∃ reply next, step storage action = some (reply, next) ∧
      NestedStep storage action reply next := by
  obtain ⟨request, faults⟩ := action
  obtain ⟨named, clean⟩ := nested
  cases request with
  | save filename data chunkId =>
      cases filename with
      | none =>
          exact ⟨.saved false, storage, step_save_unchecked storage chunkId faults (Or.inl rfl),
            NestedStep.refused rfl (by simp)⟩
      | some name =>
          obtain ⟨names, spelled, rfl, fits⟩ := named name rfl
          obtain ⟨answer, next, stepped, growth⟩ := step_save_nested sheltered spelled fits clean data
          exact ⟨.saved answer, next, stepped, NestedStep.saved names chunkId answer rfl spelled fits growth⟩
  | delete filename =>
      obtain ⟨names, spelled, rfl, fits⟩ := named
      rcases step_delete_nested sheltered spelled fits clean with
        ⟨_, stepped⟩ | ⟨dir, disk, stepped, pruned, gone⟩
      · exact ⟨_, _, stepped, NestedStep.refused rfl (by simp)⟩
      · exact ⟨_, _, stepped, NestedStep.deleted names disk rfl rfl spelled dir pruned gone rfl⟩
  | read filename chunkId => exact named.elim

theorem NestedStep.sheltered {storage next : Storage} {action : Action} {reply : Reply}
    (stepped : NestedStep storage action reply next) (sheltered : Sheltered storage) :
    Sheltered next := by
  cases stepped with
  | refused same _ => rwa [same]
  | saved names chunkId answer _ _ fits growth => exact sheltered.grown growth fits
  | deleted names disk _ _ spelled _ pruned gone same =>
      rw [same]
      exact sheltered.deleted spelled pruned gone

theorem run_nested {storage : Storage} {actions : List Action} (sheltered : Sheltered storage)
    (nested : ∀ action ∈ actions, action.Nested) :
    ∃ trace final, run step storage actions = some (trace, final) ∧ Sheltered final := by
  induction actions generalizing storage with
  | nil => exact ⟨[], storage, rfl, sheltered⟩
  | cons action rest ih =>
      rw [List.forall_mem_cons] at nested
      obtain ⟨reply, next, stepped, change⟩ := step_nested sheltered nested.1
      obtain ⟨trace, final, finished, kept⟩ := ih (change.sheltered sheltered) nested.2
      exact ⟨_, final, run_cons_of_step stepped finished, kept⟩

end DistributedFileSystem.StorageLayer
