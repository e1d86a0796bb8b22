import DistributedFileSystem.StorageLayer.ChunkStore

/-!
One file on a storage node while it is uploaded: the node keeps what first came under
each chunk id, and the last entry of its table is the one of the file.
-/

namespace DistributedFileSystem.StorageLayer

open ByteString Posix

structure Uploading (others : List FileStateCurrentInner) (filename : Bytes) (storage : Storage) :
    Prop where
  data : DataDirectory storage.disk
  directory : ChunkDirectory storage.disk filename
  entry : ∃ ids, storage.table.fileToChunkState =
      others ++ (if ids = [] then [] else [{ filePath := filename, chunkIds := ids }]) ∧
    ∀ id, id ∈ ids ↔ (stored storage.disk filename id).isSome

theorem stored_eq_none {disk : Disk} {filename : Bytes}
    (absent : disk.node? (filename :: dataName :: disk.cwd) = none) (chunkId : Int32) :
    stored disk filename chunkId = none := by
  rw [stored, @Disk.node?_none_of_parent disk _ (by simp [absent])]

namespace Uploading

variable {others : List FileStateCurrentInner} {filename : Bytes} {storage : Storage}

theorem start (data : DataDirectory storage.disk)
    (absent : storage.disk.node? (filename :: dataName :: storage.disk.cwd) = none) :
    Uploading storage.table.fileToChunkState filename storage := by
  refine ⟨data, ⟨Or.inl absent, ?_⟩, [], by simp, by simp [stored_eq_none absent]⟩
  intro last node found
  rw [@Disk.node?_none_of_parent storage.disk _ (by simp [absent])] at found
  contradiction

theorem record {chunkId : Int32} {has : Bool} {table : StorageStateOuter}
    (uploading : Uploading others filename storage)
    (told : has = true ↔ ∃ id, (stored storage.disk filename id).isSome)
    (inserted : insertToStruct true storage.table filename chunkId has = some table) :
    ∃ ids, table.fileToChunkState =
        others ++ (if ids = [] then [] else [{ filePath := filename, chunkIds := ids }]) ∧
      ∀ id, id ∈ ids ↔ (stored storage.disk filename id).isSome ∨ id = chunkId := by
  obtain ⟨ids, entries, known⟩ := uploading.entry
  refine ⟨ids ++ [chunkId], ?_, ?_⟩
  · obtain ⟨front, entry, extended, source⟩ := insertToStruct_some inserted
    rw [extended, if_neg (by simp)]
    rcases source with ⟨rfl, rfl, rfl⟩ | ⟨rfl, split⟩
    · have empty : ids = [] := by
        rw [List.eq_nil_iff_forall_not_mem]
        intro id member
        simpa using told.mpr ⟨id, (known id).mp member⟩
      simp [entries, empty, pushChunkId]
    · obtain ⟨id, present⟩ := told.mp rfl
      rw [entries, if_neg (List.ne_nil_of_mem ((known id).mpr present))] at split
      obtain ⟨rfl, same⟩ := List.append_inj' split rfl
      obtain rfl := (List.cons.inj same).1
      simp [pushChunkId]
  · intro id
    rw [List.mem_append, List.mem_singleton, known]

theorem insertable {chunkId : Int32} {has : Bool} (uploading : Uploading others filename storage)
    (told : has = true → ∃ id, (stored storage.disk filename id).isSome) :
    insertToStruct true storage.table filename chunkId has ≠ none := by
  obtain ⟨ids, entries, known⟩ := uploading.entry
  rw [ne_eq, insertToStruct_eq_none]
  rintro ⟨said, empty⟩
  obtain ⟨id, present⟩ := told said
  rw [entries, if_neg (List.ne_nil_of_mem ((known id).mpr present))] at empty
  simp at empty

/-- The chunk that came first under an id stays. -/
theorem save (uploading : Uploading others filename storage) (valid : ValidName filename)
    {bytes : Bytes} (nonempty : bytes ≠ []) (chunkId : Int32) :
    ∃ next, step storage ⟨.save (some filename) (some bytes) chunkId, fun _ => []⟩ =
        some (.saved true, next) ∧ Uploading others filename next ∧
      ∀ id, stored next.disk filename id =
        (stored storage.disk filename id).or (if id = chunkId then some bytes else none) := by
  have clean : ∀ call, Faults.Clean (fun _ => []) call := by simp [Faults.Clean]
  have outcome := @save_outcome storage filename bytes chunkId _ uploading.data.store valid nonempty
    (clean .access)
  have told : ∀ has, Listed (storage.process fun _ => []) (filename :: dataName :: storage.disk.cwd)
      has → (has = true ↔ ∃ id, (stored storage.disk filename id).isSome) := by
    intro has listed
    rw [← uploading.directory.hasRegular_iff]
    exact ⟨listed.1, listed.2 (clean .opendir) (clean .readdir)⟩
  rw [step_save]
  generalize saveChunkToFile (some filename) (some bytes) chunkId (storage.process fun _ => []) =
    ended at outcome
  cases outcome with
  | stored faults present =>
      refine ⟨storage, rfl, uploading, ?_⟩
      rw [Storage.process_disk, uploading.directory.node?_eq_stored, Option.isSome_map] at present
      obtain ⟨held, found⟩ := Option.isSome_iff_exists.mp present
      intro id
      by_cases same : id = chunkId
      · rw [same, found, Option.some_or]
      · rw [if_neg same, Option.or_none]
  | refused disk faults _ _ unclean =>
      exact absurd ⟨clean .mkdir, clean .fopen, uploading.directory.free uploading.data.dir⟩ unclean
  | short disk faults count _ _ unclean => exact absurd (clean .fwrite) unclean
  | recorded disk faults has table absent filled listed inserted =>
      rw [Storage.process_disk, uploading.directory.node?_eq_stored, Option.map_eq_none_iff] at absent
      obtain ⟨directory, held⟩ := uploading.directory.filled filled
      refine ⟨⟨disk, table⟩, rfl, ⟨?_, directory, ?_⟩, ?_⟩
      · exact @DataDirectory.filled _ _ uploading.data [filename] _ _ filled
      · obtain ⟨ids, entries, known⟩ := uploading.record (told has listed) inserted
        refine ⟨ids, entries, ?_⟩
        intro id
        rw [known, held]
        by_cases same : id = chunkId
        · simp [same]
        · simp [same]
      · intro id
        rw [held]
        by_cases same : id = chunkId
        · rw [same, if_pos rfl, absent, if_pos rfl, Option.none_or]
        · rw [if_neg same, if_neg same, Option.or_none]
  | outOfRange has _ listed missing =>
      exact absurd missing (uploading.insertable (told has listed).mp)

theorem read (uploading : Uploading others filename storage) (valid : ValidName filename)
    {chunkId : Int32} {bytes : Bytes} (held : stored storage.disk filename chunkId = some bytes) :
    step storage ⟨.read filename chunkId, fun _ => []⟩ =
      some (.opened (some (.file bytes)), storage) := by
  have found : storage.disk.node? (decimal chunkId :: filename :: dataName :: storage.disk.cwd) =
      some (.file bytes) := by
    rw [uploading.directory.node?_eq_stored, held, Option.map_some]
  obtain ⟨ids, entries, known⟩ := uploading.entry
  have member := (known chunkId).mpr (by simp [held])
  have listed : (storage.table.fileToChunkState.any fun file =>
      file.filePath = filename && file.chunkIds.contains chunkId) = true := by
    rw [entries, if_neg (List.ne_nil_of_mem member), List.any_append, Bool.or_eq_true]
    right
    simpa using member
  rw [step_read_eq chunkId _ uploading.data valid, if_pos ⟨listed, rfl⟩, found]

end Uploading

end DistributedFileSystem.StorageLayer
