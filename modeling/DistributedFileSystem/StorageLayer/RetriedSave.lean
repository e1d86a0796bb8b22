import DistributedFileSystem.StorageLayer.IndexAgreement

/-!
The attempts of the retry loop of an upload (`client/insertFile.ts`) at saving
one chunk, of which any may stop at a directory that is not made, a file that is
not opened, or a write that is cut short.
-/

namespace DistributedFileSystem.StorageLayer

open ByteString Posix Transition

section Directories

variable {σ : Type}

theorem StoreDirectory.more {before after : Disk} (store : StoreDirectory before)
    (more : MoreDirs before after) : StoreDirectory after := by
  constructor
  · rw [more.cwd]
    exact more.some_of_some store.cwd
  · rw [more.cwd]
    exact more.plainBelow store.plain

theorem mkdirEachSlash_more (seen path : Bytes) (process : Process σ) :
    ∃ disk faults, mkdirEachSlash seen path process =
        some ((), { process with disk := disk, faults := faults }) ∧
      MoreDirs process.disk disk := by
  induction path generalizing seen process with
  | nil => exact ⟨process.disk, process.faults, rfl, MoreDirs.refl _⟩
  | cons byte rest ih =>
      rw [mkdirEachSlash]
      split
      · obtain ⟨code, made, ran, more⟩ := mkdir_more seen process
        obtain ⟨disk, faults, finished, later⟩ :=
          ih (seen ++ [byte]) { process.spend .mkdir with disk := made }
        refine ⟨disk, faults, ?_, more.trans later⟩
        rw [bind_of_some ran]
        exact finished
      · exact ih (seen ++ [byte]) process

theorem createDirectories_more (path : Bytes) (process : Process σ) :
    ∃ disk faults, createDirectories path process =
        some (true, { process with disk := disk, faults := faults }) ∧
      MoreDirs process.disk disk := by
  rw [createDirectories]
  split
  · exact ⟨process.disk, process.faults, rfl, MoreDirs.refl _⟩
  · obtain ⟨middle, faults, chained, early⟩ := mkdirEachSlash_more []
      (((snprintf pathSize path).rdropWhile (· ≠ slash)).dropLast) process
    obtain ⟨code, disk, ran, late⟩ := mkdir_more
      ((snprintf pathSize path).rdropWhile (· ≠ slash)).dropLast
      ({ process with disk := middle, faults := faults } : Process σ)
    refine ⟨disk, faults.spend .mkdir, ?_, early.trans late⟩
    rw [bind_of_some chained, bind_of_some ran]
    rfl

end Directories

section LongName

/-- A path whose second component does not fit a directory entry leads nowhere. -/
theorem StoreDirectory.resolve_long {disk : Disk} {follow : Bool} (store : StoreDirectory disk)
    {path : Bytes} {name : Name} {rest : List Name}
    (spelled : components path = dataName :: name :: rest) (component : Component name)
    (long : nameMax < name.length) : disk.resolve follow path = none := by
  have nonempty : path ≠ [] := by
    rintro rfl
    simp [components_name, dataName, ascii] at spelled
  have relative : path.head? ≠ some slash := by
    intro starts
    obtain ⟨tail, rfl⟩ := List.head?_eq_some_iff.mp starts
    rw [← List.nil_append (slash :: tail), components_append,
      components_name List.not_mem_nil] at spelled
    exact absurd (List.cons.inj spelled).1 (by decide)
  rw [Disk.resolve, if_neg nonempty, Disk.start, if_neg relative, spelled]
  show Disk.walkWith disk (disk.walk follow (linkMax - 1)) follow disk.cwd _ = none
  rw [Disk.walkWith_name _ dataName_valid store.cwd (store.plain []), Disk.walkWith]
  obtain ⟨notNil, _, notDot, notDotdot⟩ := component
  simp [notNil, notDot, notDotdot, long]

theorem components_long {name : Name} (component : Component name) (long : nameMax < name.length)
    {tail : Bytes} (ends : tail = [] ∨ ∃ more, tail = slash :: more) :
    ∃ other rest, components (snprintf pathSize (ascii "data/" ++ name ++ tail)) =
        dataName :: other :: rest ∧ Component other ∧ nameMax < other.length := by
  have front : ascii "data/" ++ name ++ tail = dataName ++ slash :: (name ++ tail) := by
    simp [ascii, dataName, slash]
  have plain : slash ∉ dataName := by decide
  -- the buffer has room for 506 bytes behind "data/"
  have cut : snprintf pathSize (ascii "data/" ++ name ++ tail) =
      dataName ++ slash :: (name ++ tail).take 506 := by
    rw [front, snprintf, pathSize, List.take_append]
    rfl
  have shortened : Component (name.take 506) ∧ nameMax < (name.take 506).length := by
    have size : nameMax < (name.take 506).length := by
      rw [List.length_take]
      simp only [nameMax] at long ⊢
      omega
    refine ⟨⟨?_, fun member => component.2.1 (List.mem_of_mem_take member), ?_, ?_⟩, size⟩
    · intro empty
      simp [empty] at size
    · intro same
      simp [same, dot, nameMax, ascii] at size
    · intro same
      simp [same, dotdot, nameMax, ascii] at size
  rw [cut, components_append, components_name plain, List.take_append]
  by_cases room : name.length < 506
  · rcases ends with rfl | ⟨more, rfl⟩
    · refine ⟨name.take 506, [], ?_, shortened⟩
      rw [List.take_nil, List.append_nil, components_name shortened.1.2.1]
      rfl
    · obtain ⟨left, same⟩ : ∃ left, 506 - name.length = left + 1 := ⟨505 - name.length, by omega⟩
      refine ⟨name.take 506, components (more.take left), ?_, shortened⟩
      rw [same, List.take_succ_cons, components_append, components_name shortened.1.2.1]
      rfl
  · have none : 506 - name.length = 0 := by omega
    refine ⟨name.take 506, [], ?_, shortened⟩
    rw [none, List.take_zero, List.append_nil, components_name shortened.1.2.1]
    rfl

theorem saveChunkToFile_tooLong {name bytes : Bytes} (chunkId : Int32)
    (process : Process StorageStateOuter) (store : StoreDirectory process.disk)
    (component : Component name) (long : nameMax < name.length) (nonempty : bytes ≠ []) :
    ∃ disk faults, saveChunkToFile (some name) (some bytes) chunkId process =
        some (false, { process with disk := disk, faults := faults }) ∧
      MoreDirs process.disk disk := by
  have lost : ∀ disk, StoreDirectory disk → disk.resolve true (chunkPath name chunkId) = none := by
    intro disk kept
    obtain ⟨other, rest, spelled, short, exceeds⟩ := @components_long name component long
      (slash :: decimal chunkId) (Or.inr ⟨_, rfl⟩)
    have path : ascii "data/" ++ name ++ slash :: decimal chunkId =
        ascii "data/" ++ name ++ ascii "/" ++ decimal chunkId := by simp [ascii, slash]
    rw [path] at spelled
    exact kept.resolve_long spelled short exceeds
  have closed : process.disk.resolve true (directoryPath name) = none := by
    obtain ⟨other, rest, spelled, short, exceeds⟩ := @components_long name component long []
      (Or.inl rfl)
    rw [List.append_nil] at spelled
    exact store.resolve_long spelled short exceeds
  obtain ⟨disk, faults, created, more⟩ := createDirectories_more (chunkPath name chunkId)
    ((process.spend .access).spend .opendir)
  exact ⟨disk, faults.spend .fopen,
    saveChunkToFile_lost nonempty (lost _ store) closed created (lost _ (store.more more)), more⟩

end LongName

def attempts (filename data : Bytes) (chunkId : Int32) (faults : List Faults) : List Action :=
  faults.map fun faults => ⟨.save (some filename) (some data) chunkId, faults⟩

def chunkNode (disk : Disk) (filename : Bytes) (chunkId : Int32) : Option Node :=
  disk.node? (decimal chunkId :: filename :: dataName :: disk.cwd)

def TrueMeansStored (filename data : Bytes) (chunkId : Int32) (storage : Storage)
    (action : Action) : Prop :=
  ∀ next, step storage action = some (.saved true, next) →
    chunkNode next.disk filename chunkId = some (.file data) ∧ Lists next.table filename chunkId

/-- Earlier attempts have left nothing in the place of the chunk, or the whole of it. -/
def AbsentOrListed (filename : Bytes) (chunkId : Int32) (storage : Storage) (_ : Action) : Prop :=
  chunkNode storage.disk filename chunkId = none ∨ Lists storage.table filename chunkId

structure Unknown (filename : Bytes) (storage : Storage) : Prop where
  store : StoreDirectory storage.disk
  empty : ¬HasRegular storage.disk (filename :: dataName :: storage.disk.cwd)
  absent : ∀ file ∈ storage.table.fileToChunkState, file.filePath ≠ filename

inductive Retried (filename data : Bytes) (chunkId : Int32) (storage : Storage) : Prop
  | waiting : Unknown filename storage → chunkNode storage.disk filename chunkId = none →
      Retried filename data chunkId storage
  | stored : chunkNode storage.disk filename chunkId = some (.file data) →
      Lists storage.table filename chunkId → Retried filename data chunkId storage
  | residue : (chunkNode storage.disk filename chunkId).isSome →
      ¬Lists storage.table filename chunkId → Retried filename data chunkId storage

theorem chunkNode_of_filled {before after : Disk} {filename bytes : Bytes} {chunkId : Int32}
    (filled : Filled before after (filename :: dataName :: before.cwd) (decimal chunkId) bytes) :
    chunkNode after filename chunkId = some (.file bytes) := by
  rw [chunkNode, filled.cwd, filled.file]

section Attempt

variable {storage : Storage} {filename data : Bytes} {chunkId : Int32} {faults : Faults}

theorem Unknown.unlisted (unknown : Unknown filename storage) :
    ¬Lists storage.table filename chunkId := by
  rintro ⟨file, member, named, _⟩
  exact unknown.absent file member named

theorem Unknown.retried (unknown : Unknown filename storage) :
    Retried filename data chunkId storage := by
  cases found : chunkNode storage.disk filename chunkId with
  | none => exact .waiting unknown found
  | some node => exact .residue (by rw [found]; rfl) unknown.unlisted

theorem Unknown.more (unknown : Unknown filename storage) {disk : Disk}
    (more : MoreDirs storage.disk disk) :
    Unknown filename { disk := disk, table := storage.table } := by
  refine ⟨unknown.store.more more, ?_, unknown.absent⟩
  rintro ⟨name, bytes, found⟩
  rw [more.cwd, more.file_iff] at found
  exact unknown.empty ⟨name, bytes, found⟩

theorem step_present (store : StoreDirectory storage.disk) (nonempty : data ≠ [])
    (accurate : faults.Clean .access)
    (present : (chunkNode storage.disk filename chunkId).isSome) :
    step storage ⟨.save (some filename) (some data) chunkId, faults⟩ =
      some (.saved true, storage) := by
  have dir := Disk.parent_dir present
  have valid : ValidName filename := Disk.name_valid (by rw [dir]; rfl)
  have outcome := @save_outcome storage filename data chunkId faults store valid nonempty accurate
  obtain ⟨node, found⟩ := Option.isSome_iff_exists.mp present
  unfold chunkNode at found
  rw [step_save]
  generalize saveChunkToFile (some filename) (some data) chunkId (storage.process faults) = ended
    at outcome
  cases outcome with
  | stored _ _ => rfl
  | refused _ _ missing _ _ => simp [found] at missing
  | short _ _ _ missing _ _ => simp [found] at missing
  | recorded _ _ _ _ missing _ _ _ => simp [found] at missing
  | outOfRange _ missing _ _ => simp [found] at missing

theorem step_tooLong (unknown : Unknown filename storage) (component : Component filename)
    (nonempty : data ≠ []) (long : nameMax < filename.length) :
    ∃ next, step storage ⟨.save (some filename) (some data) chunkId, faults⟩ =
        some (.saved false, next) ∧
      Unknown filename next ∧ chunkNode next.disk filename chunkId = none := by
  obtain ⟨disk, left, refused, more⟩ := saveChunkToFile_tooLong chunkId
    (storage.process faults) unknown.store component long nonempty
  have nowhere : chunkNode disk filename chunkId = none := by
    by_contra present
    have dir := Disk.parent_dir (Option.isSome_iff_ne_none.mpr present)
    have short := (Disk.name_valid (show (disk.node? (filename :: _)).isSome from
      by rw [dir]; rfl)).2.2.2.2
    omega
  rw [step_save, refused]
  exact ⟨_, rfl, unknown.more more, nowhere⟩

/-- What an attempt comes to, on a file that is unknown: the chunk and its entry, nothing in
its place, or the part of a write that was cut short. -/
theorem step_waiting (unknown : Unknown filename storage) (component : Component filename)
    (nonempty : data ≠ []) (absent : chunkNode storage.disk filename chunkId = none)
    (accurate : faults.Clean .access) (memory : faults.Clean .realloc) :
    ∃ saved next, step storage ⟨.save (some filename) (some data) chunkId, faults⟩ =
        some (.saved saved, next) ∧ StoreDirectory next.disk ∧
      (saved = true ∧ chunkNode next.disk filename chunkId = some (.file data) ∧
          Lists next.table filename chunkId ∨
        saved = false ∧ Unknown filename next ∧ chunkNode next.disk filename chunkId = none ∨
        saved = false ∧ (chunkNode next.disk filename chunkId).isSome ∧
          ¬Lists next.table filename chunkId ∧ ¬faults.Clean .fwrite) := by
  by_cases long : nameMax < filename.length
  · obtain ⟨next, stepped, kept, nowhere⟩ :=
      @step_tooLong storage filename data chunkId faults unknown component nonempty long
    exact ⟨false, next, stepped, kept.store, Or.inr (Or.inl ⟨rfl, kept, nowhere⟩)⟩
  · rw [step_save]
    have valid := component.valid (by omega)
    have outcome := @save_outcome storage filename data chunkId faults unknown.store valid nonempty
      accurate
    have told : ∀ has, Listed (storage.process faults)
        (filename :: dataName :: storage.disk.cwd) has → has = false := by
      intro has answer
      rw [← Bool.not_eq_true]
      exact fun said => unknown.empty (answer.1 said)
    generalize saveChunkToFile (some filename) (some data) chunkId (storage.process faults) = ended
      at outcome
    cases outcome with
    | stored _ present => exact absurd absent (Option.isSome_iff_ne_none.mp present)
    | refused disk left missing made _ =>
        have kept := unknown.more (MoreDirs.of_made made)
        have nowhere : chunkNode disk filename chunkId = none := by
          rw [chunkNode, made.cwd]
          exact (made.node_below _).trans missing
        exact ⟨false, _, rfl, kept.store, Or.inr (Or.inl ⟨rfl, kept, nowhere⟩)⟩
    | short disk left count _ filled unclean =>
        refine ⟨false, _, rfl, @StoreDirectory.filled _ _ unknown.store [filename] _ _ filled,
          Or.inr (Or.inr ⟨rfl, ?_, unknown.unlisted, unclean⟩)⟩
        rw [chunkNode_of_filled filled]
        rfl
    | recorded disk left has table _ filled answer inserted =>
        obtain rfl := told has answer
        rw [Storage.process_faults, memory.next, insertToStruct_new, Option.some.injEq] at inserted
        have listed : Lists table filename chunkId := by
          rw [← inserted]
          exact ⟨⟨filename, [chunkId]⟩, by simp [pushChunkId], rfl, by simp⟩
        exact ⟨true, _, rfl, @StoreDirectory.filled _ _ unknown.store [filename] _ _ filled,
          Or.inl ⟨rfl, chunkNode_of_filled filled, listed⟩⟩
    | outOfRange has _ answer inserted =>
        obtain rfl := told has answer
        simp [insertToStruct_new] at inserted

structure Retrying (filename data : Bytes) (chunkId : Int32) (storage : Storage) : Prop where
  store : StoreDirectory storage.disk
  retried : Retried filename data chunkId storage

def Attempts (filename data : Bytes) (chunkId : Int32) (action : Action) : Prop :=
  action.request = .save (some filename) (some data) chunkId ∧ action.faults.Clean .access ∧
    action.faults.Clean .realloc

theorem attempt_decides (component : Component filename) (nonempty : data ≠ [])
    {action : Action} (retrying : Retrying filename data chunkId storage)
    (attempted : Attempts filename data chunkId action) :
    (∃ saved next, step storage action = some (.saved saved, next) ∧
      Retrying filename data chunkId next) ∧
    (TrueMeansStored filename data chunkId storage action ↔
      AbsentOrListed filename chunkId storage action) := by
  obtain ⟨_, faults⟩ := action
  obtain ⟨rfl, accurate, memory⟩ := attempted
  obtain ⟨store, ⟨unknown, absent⟩ | ⟨file, listed⟩ | ⟨present, unlisted⟩⟩ := retrying
  · obtain ⟨saved, next, stepped, kept, outcome⟩ := step_waiting unknown component nonempty
      absent accurate memory
    refine ⟨⟨saved, next, stepped, kept, ?_⟩, ?_⟩
    · rcases outcome with ⟨_, file, listed⟩ | ⟨_, still, nowhere⟩ | ⟨_, present, unlisted, _⟩
      · exact .stored file listed
      · exact .waiting still nowhere
      · exact .residue present unlisted
    · refine iff_of_true ?_ (Or.inl absent)
      intro other again
      rw [stepped] at again
      obtain ⟨rfl, rfl⟩ : saved = true ∧ next = other := by simpa using again
      simpa using outcome
  · have stepped := @step_present storage filename data chunkId faults store nonempty accurate
      (by rw [file]; rfl)
    refine ⟨⟨true, storage, stepped, store, .stored file listed⟩, ?_⟩
    refine iff_of_true ?_ (Or.inr listed)
    intro other again
    rw [stepped] at again
    obtain rfl : storage = other := by simpa using again
    exact ⟨file, listed⟩
  · have stepped := @step_present storage filename data chunkId faults store nonempty accurate
      present
    refine ⟨⟨true, storage, stepped, store, .residue present unlisted⟩, ?_⟩
    apply iff_of_false
    · intro means
      exact unlisted (means storage stepped).2
    · rintro (absent | listed)
      · simp [absent] at present
      · exact unlisted listed

end Attempt

theorem attempts_attempt {filename data : Bytes} {chunkId : Int32} {faults : List Faults}
    (accurate : ∀ one ∈ faults, one.Clean .access ∧ one.Clean .realloc) :
    ∀ action ∈ attempts filename data chunkId faults, Attempts filename data chunkId action := by
  intro action member
  obtain ⟨one, within, rfl⟩ := List.mem_map.mp member
  exact ⟨rfl, accurate one within⟩

/-- With every write complete, the place of the chunk stays free until the chunk is listed. -/
theorem whole_writes {filename data : Bytes} {chunkId : Int32} {storage : Storage}
    (unknown : Unknown filename storage) (component : Component filename) (nonempty : data ≠ [])
    (free : chunkNode storage.disk filename chunkId = none) {actions : List Action}
    (attempted : ∀ action ∈ actions,
      Attempts filename data chunkId action ∧ action.faults.Clean .fwrite) :
    Guarded step (AbsentOrListed filename chunkId) storage actions := by
  refine @guarded_of_invariant _ _ _ step _ (fun storage =>
    Unknown filename storage ∧ chunkNode storage.disk filename chunkId = none ∨
      StoreDirectory storage.disk ∧ (chunkNode storage.disk filename chunkId).isSome ∧
        Lists storage.table filename chunkId) _ ?_ ?_ actions storage (Or.inl ⟨unknown, free⟩)
    attempted
  · rintro storage action (⟨_, absent⟩ | ⟨_, _, listed⟩) _
    · exact Or.inl absent
    · exact Or.inr listed
  · rintro storage ⟨_, faults⟩ output next held ⟨⟨rfl, accurate, memory⟩, whole⟩ stepped
    rcases held with ⟨unknown, absent⟩ | ⟨store, present, listed⟩
    · obtain ⟨saved, after, again, kept, outcome⟩ := step_waiting unknown component nonempty absent
        accurate memory
      obtain ⟨_, rfl⟩ : _ ∧ after = next := by simpa [stepped, eq_comm] using again
      rcases outcome with ⟨_, file, listed⟩ | ⟨_, still, nowhere⟩ | ⟨_, _, _, unclean⟩
      · exact Or.inr ⟨kept, by rw [file]; rfl, listed⟩
      · exact Or.inl ⟨still, nowhere⟩
      · exact absurd whole unclean
    · rw [step_present store nonempty accurate present] at stepped
      obtain ⟨_, rfl⟩ := Prod.mk.inj (Option.some.inj stepped)
      exact Or.inr ⟨store, present, listed⟩

/-- On a file that the store does not know, whatever directories, files and writes fail:
every attempt that answers `true` has stored the chunk exactly when each attempt finds
nothing in its place, or finds it listed; as it does when every write is complete. -/
theorem retried_save_iff (storage : Storage) (filename data : Bytes) (chunkId : Int32)
    (unknown : Unknown filename storage) (component : Component filename) (nonempty : data ≠ [])
    (faults : List Faults)
    (accurate : ∀ one ∈ faults, one.Clean .access ∧ one.Clean .realloc) :
    (run step storage (attempts filename data chunkId faults)).isSome ∧
    (Guarded step (TrueMeansStored filename data chunkId) storage
        (attempts filename data chunkId faults) ↔
      Guarded step (AbsentOrListed filename chunkId) storage
        (attempts filename data chunkId faults)) ∧
    (chunkNode storage.disk filename chunkId = none → (∀ one ∈ faults, one.Clean .fwrite) →
      Guarded step (TrueMeansStored filename data chunkId) storage
        (attempts filename data chunkId faults)) := by
  have domain := @attempts_attempt filename data chunkId faults accurate
  have start : Retrying filename data chunkId storage := ⟨unknown.store, unknown.retried⟩
  have decided : Guarded step (TrueMeansStored filename data chunkId) storage
        (attempts filename data chunkId faults) ↔
      Guarded step (AbsentOrListed filename chunkId) storage
        (attempts filename data chunkId faults) := by
    refine guarded_iff_guarded ?_ ?_ _ storage start domain
    · exact fun _ _ retrying attempted =>
        (attempt_decides component nonempty retrying attempted).2
    · intro before action output next retrying attempted _ stepped
      obtain ⟨saved, after, again, kept⟩ :=
        (attempt_decides component nonempty retrying attempted).1
      obtain ⟨_, rfl⟩ : _ ∧ after = next := by simpa [stepped, eq_comm] using again
      exact kept
  refine ⟨?_, decided, ?_⟩
  · have always : Guarded step (fun _ action => Attempts filename data chunkId action) storage
        (attempts filename data chunkId faults) :=
      @guarded_of_invariant _ _ _ step _ (fun _ => True) _ (fun _ _ _ attempted => attempted)
        (fun _ _ _ _ _ _ _ => trivial) _ storage trivial domain
    obtain ⟨trace, last, ran, _⟩ := @run_history _ _ _ step _
      (fun _ storage => Retrying filename data chunkId storage)
      (fun _ before action retrying attempted => by
        obtain ⟨saved, next, stepped, kept⟩ :=
          (attempt_decides component nonempty retrying attempted).1
        exact ⟨_, next, stepped, kept⟩)
      (attempts filename data chunkId faults) [] storage start always
    rw [ran]
    rfl
  · intro free whole
    apply decided.mpr
    apply whole_writes unknown component nonempty free
    intro action member
    refine ⟨domain action member, ?_⟩
    obtain ⟨one, within, rfl⟩ := List.mem_map.mp member
    exact whole one within

theorem emptyStorage_unknown (filename : Bytes) : Unknown filename emptyStorage := by
  refine ⟨emptyStorage_fresh.layout.dataDirectory.store, ?_, by simp [emptyStorage, storageStateInit]⟩
  rintro ⟨name, bytes, found⟩
  have missing := emptyStorage_fresh.absent (List.cons_ne_nil name [filename])
  simp only [List.cons_append, List.nil_append] at missing
  simp [missing] at found

def cutShort : List Faults :=
  [Function.update (fun _ => []) .fwrite [.short 1], fun _ => []]

theorem cutShort_accurate : ∀ one ∈ cutShort, one.Clean .access ∧ one.Clean .realloc := by
  intro one member
  simp only [cutShort, List.mem_cons, List.not_mem_nil, or_false] at member
  rcases member with rfl | rfl
  · simp [Faults.Clean]
  · simp [Faults.Clean]

theorem cutShort_answers_true :
    (run step emptyStorage (attempts (ascii "a") (ascii "xy") 0 cutShort)).map (fun ended =>
        (ended.1.map Prod.snd, chunkNode ended.2.disk (ascii "a") 0,
          ended.2.table.fileToChunkState)) =
      some ([.saved false, .saved true], some (.file (ascii "x")), []) ∧
    ¬Guarded step (TrueMeansStored (ascii "a") (ascii "xy") 0) emptyStorage
      (attempts (ascii "a") (ascii "xy") 0 cutShort) := by
  have found : (run step emptyStorage (attempts (ascii "a") (ascii "xy") 0 cutShort)).map
      (fun ended => (ended.1.map Prod.snd, chunkNode ended.2.disk (ascii "a") 0,
        ended.2.table.fileToChunkState)) =
      some ([.saved false, .saved true], some (.file (ascii "x")), []) := by decide +kernel
  refine ⟨found, ?_⟩
  intro means
  obtain ⟨⟨trace, last⟩, ran, same⟩ := Option.map_eq_some_iff.mp found
  simp only [attempts, cutShort, List.map_cons, List.map_nil] at ran means
  obtain ⟨first, middle, tail, stepped, rest, rfl⟩ := run_cons ran
  obtain ⟨second, final, none, again, finished, rfl⟩ := run_cons rest
  obtain ⟨rfl, rfl⟩ := Prod.mk.inj (Option.some.inj finished)
  simp only [List.map_cons, List.map_nil, Prod.mk.injEq, List.cons.injEq, and_true] at same
  obtain ⟨⟨_, rfl⟩, _, empty⟩ := same
  obtain ⟨file, member, _⟩ := ((means.2 first middle stepped).1 final again).2
  simp [empty] at member

theorem retried_save_iff_cutShort :
    Guarded step (TrueMeansStored (ascii "a") (ascii "xy") 0) emptyStorage
        (attempts (ascii "a") (ascii "xy") 0 cutShort) ↔
      Guarded step (AbsentOrListed (ascii "a") 0) emptyStorage
        (attempts (ascii "a") (ascii "xy") 0 cutShort) :=
  (retried_save_iff emptyStorage (ascii "a") (ascii "xy") 0 (emptyStorage_unknown _)
    (by decide) (by decide) cutShort cutShort_accurate).2.1

end DistributedFileSystem.StorageLayer
