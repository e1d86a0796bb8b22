import DistributedFileSystem.StorageLayer.ChunkStore

/-!
When the table of a storage node lists exactly the chunks on its disk.
-/

namespace DistributedFileSystem.StorageLayer

open ByteString Posix Transition

def FileSystemClean (faults : Faults) : Prop :=
  ∀ call, call ≠ .malloc → call ≠ .realloc → faults.Clean call

def Action.Permitted (action : Action) : Prop :=
  (∀ filename, action.request.filename = some filename → ValidName filename) ∧
    FileSystemClean action.faults

def Lists (table : StorageStateOuter) (filename : Bytes) (chunkId : Int32) : Prop :=
  ∃ file ∈ table.fileToChunkState, file.filePath = filename ∧ chunkId ∈ file.chunkIds

def listings (table : StorageStateOuter) (filename : Bytes) : List Int32 :=
  (table.fileToChunkState.filter fun file => file.filePath = filename).flatMap
    FileStateCurrentInner.chunkIds

/-- The table lists a chunk exactly when it is on the disk, and then once. -/
def Agrees (storage : Storage) : Prop :=
  ∀ filename chunkId, ValidName filename →
    (Lists storage.table filename chunkId ↔ (stored storage.disk filename chunkId).isSome) ∧
    ((stored storage.disk filename chunkId).isSome →
      (listings storage.table filename).count chunkId = 1)

/-- A new chunk whose directory has a regular file finds its own file in the last
entry, and memory for its id. -/
def ExtendsOwnEntry (storage : Storage) (action : Action) : Prop :=
  match action.request with
  | .save (some filename) (some data) chunkId =>
      data ≠ [] → stored storage.disk filename chunkId = none →
        action.faults.next .realloc = .done ∧
          ((∃ other, (stored storage.disk filename other).isSome) →
            ∃ last, storage.table.fileToChunkState.getLast? = some last ∧
              last.filePath = filename)
  | _ => True

structure Indexed (storage : Storage) : Prop where
  layout : Layout storage.disk
  names : (storage.table.fileToChunkState.map FileStateCurrentInner.filePath).Nodup
  nonempty : ∀ file ∈ storage.table.fileToChunkState, file.chunkIds ≠ []
  nodup : ∀ file ∈ storage.table.fileToChunkState, file.chunkIds.Nodup
  accurate : ∀ file ∈ storage.table.fileToChunkState, ∀ chunkId,
    chunkId ∈ file.chunkIds ↔ (stored storage.disk file.filePath chunkId).isSome
  covers : ∀ filename chunkId, (stored storage.disk filename chunkId).isSome →
    ∃ file ∈ storage.table.fileToChunkState, file.filePath = filename

theorem Storage.Fresh.indexed {storage : Storage} (fresh : storage.Fresh) : Indexed storage := by
  have empty : storage.table.fileToChunkState = [] := by rw [fresh.table, storageStateInit]
  refine ⟨fresh.layout, by simp [empty], by simp [empty], by simp [empty], by simp [empty], ?_⟩
  intro filename chunkId present
  simp [fresh.stored_eq_none] at present

theorem listings_of_mem {table : StorageStateOuter} {file : FileStateCurrentInner}
    (names : (table.fileToChunkState.map FileStateCurrentInner.filePath).Nodup)
    (member : file ∈ table.fileToChunkState) : listings table file.filePath = file.chunkIds := by
  obtain ⟨entries⟩ := table
  unfold listings
  simp only at names member ⊢
  induction entries with
  | nil => simp at member
  | cons first rest ih =>
      rw [List.map_cons, List.nodup_cons] at names
      rcases List.mem_cons.mp member with rfl | later
      · have others : rest.filter (fun other => decide (other.filePath = file.filePath)) = [] := by
          rw [List.filter_eq_nil_iff]
          intro other inRest same
          exact names.1 (List.mem_map.mpr ⟨other, inRest, of_decide_eq_true same⟩)
        simp [others]
      · have different : first.filePath ≠ file.filePath := by
          intro same
          exact names.1 (List.mem_map.mpr ⟨file, later, same.symm⟩)
        simpa [different] using ih names.2 later

theorem removeFromStruct_eq_filter {table : StorageStateOuter} (filename : Bytes)
    (names : (table.fileToChunkState.map FileStateCurrentInner.filePath).Nodup) :
    (removeFromStruct table filename).fileToChunkState =
      table.fileToChunkState.filter fun file => file.filePath ≠ filename := by
  rw [removeFromStruct_eq]
  obtain ⟨entries⟩ := table
  simp only at names ⊢
  induction entries with
  | nil => rfl
  | cons first rest ih =>
      rw [List.map_cons, List.nodup_cons] at names
      by_cases same : first.filePath = filename
      · have others : ∀ file ∈ rest, decide (file.filePath ≠ filename) = true := by
          intro file member
          rw [decide_eq_true_eq]
          intro equal
          exact names.1 (List.mem_map.mpr ⟨file, member, equal.trans same.symm⟩)
        rw [List.eraseP_cons_of_pos (by simp [same]), List.filter_cons_of_neg (by simp [same]),
          List.filter_eq_self.mpr others]
      · have tail := ih names.2
        simp only [ne_eq, decide_not] at tail
        simp [same, tail]

namespace Indexed

variable {storage next : Storage} {filename : Bytes} {chunkId : Int32}

theorem lists_iff (indexed : Indexed storage) :
    Lists storage.table filename chunkId ↔ (stored storage.disk filename chunkId).isSome := by
  constructor
  · rintro ⟨file, member, rfl, listed⟩
    exact (indexed.accurate file member chunkId).mp listed
  · intro present
    obtain ⟨file, member, rfl⟩ := indexed.covers filename chunkId present
    exact ⟨file, member, rfl, (indexed.accurate file member chunkId).mpr present⟩

theorem agrees (indexed : Indexed storage) : Agrees storage := by
  intro filename chunkId _
  refine ⟨indexed.lists_iff, ?_⟩
  intro present
  obtain ⟨file, member, rfl⟩ := indexed.covers filename chunkId present
  rw [listings_of_mem indexed.names member]
  exact List.count_eq_one_of_mem (indexed.nodup file member)
    ((indexed.accurate file member chunkId).mpr present)

theorem other_names (indexed : Indexed storage)
    (absent : ∀ other, stored storage.disk filename other = none) :
    ∀ file ∈ storage.table.fileToChunkState, file.filePath ≠ filename := by
  rintro file member rfl
  obtain ⟨listed, rest, ids⟩ := List.exists_cons_of_ne_nil (indexed.nonempty file member)
  have present := (indexed.accurate file member listed).mp (by simp [ids])
  simp [absent] at present

theorem record {front : List FileStateCurrentInner} {entry : FileStateCurrentInner} {bytes : Bytes}
    (indexed : Indexed storage) (layout : Layout next.disk)
    (filled : ∀ other otherId, stored next.disk other otherId =
      if other = filename ∧ otherId = chunkId then some bytes else stored storage.disk other otherId)
    (absent : stored storage.disk filename chunkId = none)
    (extended : next.table.fileToChunkState = front ++ [pushChunkId true entry chunkId])
    (kept : front.Sublist storage.table.fileToChunkState)
    (others : ∀ file ∈ front, file.filePath ≠ filename)
    (all : storage.table.fileToChunkState ⊆ front ++ [entry])
    (named : entry.filePath = filename) (nodup : entry.chunkIds.Nodup)
    (own : ∀ other, other ∈ entry.chunkIds ↔ (stored storage.disk filename other).isSome) :
    Indexed next := by
  have pushed : pushChunkId true entry chunkId =
      { filePath := filename, chunkIds := entry.chunkIds ++ [chunkId] } := by
    simp [pushChunkId, ← named]
  rw [pushed] at extended
  have fresh : chunkId ∉ entry.chunkIds := by
    intro listed
    have present := (own chunkId).mp listed
    simp [absent] at present
  have members : ∀ file ∈ next.table.fileToChunkState, file ∈ front ∨
      file = { filePath := filename, chunkIds := entry.chunkIds ++ [chunkId] } := by
    intro file member
    simpa [extended] using member
  refine ⟨layout, ?_, ?_, ?_, ?_, ?_⟩
  · rw [extended, List.map_append, List.nodup_append]
    refine ⟨(kept.map _).nodup indexed.names, by simp, ?_⟩
    intro name inFront other last same
    obtain ⟨file, member, rfl⟩ := List.mem_map.mp inFront
    exact others file member (by simpa using same.trans (by simpa using last))
  · intro file member
    rcases members file member with old | rfl
    · exact indexed.nonempty file (kept.subset old)
    · simp
  · intro file member
    rcases members file member with old | rfl
    · exact indexed.nodup file (kept.subset old)
    · rw [List.nodup_append]
      refine ⟨nodup, by simp, ?_⟩
      intro listed member other last same
      rw [List.mem_singleton.mp last] at same
      exact fresh (same ▸ member)
  · intro file member other
    rcases members file member with old | rfl
    · rw [filled, if_neg (fun both => others file old both.1)]
      exact indexed.accurate file (kept.subset old) other
    · rw [filled, List.mem_append, own, List.mem_singleton]
      by_cases same : other = chunkId
      · simp [same]
      · simp [same]
  · intro other otherId present
    by_cases same : other = filename
    · exact ⟨_, by rw [extended]; exact List.mem_append_right _ (List.mem_singleton_self _),
        same.symm⟩
    · rw [filled, if_neg (fun both => same both.1)] at present
      obtain ⟨file, member, rfl⟩ := indexed.covers other otherId present
      rcases List.mem_append.mp (all member) with old | last
      · exact ⟨file, by rw [extended]; exact List.mem_append_left _ old, rfl⟩
      · rw [List.mem_singleton.mp last] at same
        exact absurd named same

theorem remove (indexed : Indexed storage) (layout : Layout next.disk)
    (gone : ∀ chunkId, stored next.disk filename chunkId = none)
    (same : ∀ other chunkId, other ≠ filename →
      stored next.disk other chunkId = stored storage.disk other chunkId)
    (removed : next.table = removeFromStruct storage.table filename) : Indexed next := by
  have entries := removeFromStruct_eq_filter filename indexed.names
  rw [← removed] at entries
  have kept : ∀ file ∈ next.table.fileToChunkState,
      file ∈ storage.table.fileToChunkState ∧ file.filePath ≠ filename := by
    intro file member
    rw [entries, List.mem_filter, decide_eq_true_eq] at member
    exact member
  refine ⟨layout, ?_, ?_, ?_, ?_, ?_⟩
  · rw [entries]
    exact (List.filter_sublist.map _).nodup indexed.names
  · exact fun file member => indexed.nonempty file (kept file member).1
  · exact fun file member => indexed.nodup file (kept file member).1
  · intro file member chunkId
    rw [same _ _ (kept file member).2]
    exact indexed.accurate file (kept file member).1 chunkId
  · intro other chunkId present
    have different : other ≠ filename := by
      rintro rfl
      simp [gone] at present
    rw [same _ _ different] at present
    obtain ⟨file, member, named⟩ := indexed.covers other chunkId present
    refine ⟨file, ?_, named⟩
    rw [entries, List.mem_filter, decide_eq_true_eq, named]
    exact ⟨member, different⟩

theorem unchanged (indexed : Indexed storage) (layout : Layout next.disk)
    (same : ∀ other chunkId, stored next.disk other chunkId = stored storage.disk other chunkId)
    (table : next.table = storage.table) : Indexed next := by
  refine ⟨layout, ?_, ?_, ?_, ?_, ?_⟩
  · rw [table]
    exact indexed.names
  · rw [table]
    exact indexed.nonempty
  · rw [table]
    exact indexed.nodup
  · simp only [table, same]
    exact indexed.accurate
  · simp only [table, same]
    exact indexed.covers

end Indexed

theorem save_new {storage : Storage} {filename bytes : Bytes} {chunkId : Int32} {faults : Faults}
    (layout : Layout storage.disk) (valid : ValidName filename) (nonempty : bytes ≠ [])
    (clean : FileSystemClean faults) (absent : stored storage.disk filename chunkId = none) :
    ∃ has, (has = true ↔ ∃ other, (stored storage.disk filename other).isSome) ∧
      Records storage filename bytes chunkId faults has := by
  rcases step_save_new layout valid nonempty (clean .access (by simp) (by simp))
      (clean .fwrite (by simp) (by simp)) absent with
    ⟨_, _, _, _, unclean⟩ | ⟨has, told, tells, records⟩
  · exact absurd ⟨clean .mkdir (by simp) (by simp), clean .fopen (by simp) (by simp)⟩ unclean
  · exact ⟨has, ⟨told, tells (clean .opendir (by simp) (by simp))
      (clean .readdir (by simp) (by simp))⟩, records⟩

theorem FileSystemClean.removal {faults : Faults} (clean : FileSystemClean faults) :
    CleanRemoval faults :=
  ⟨clean .opendir (by simp) (by simp), clean .readdir (by simp) (by simp),
    clean .lstat (by simp) (by simp), clean .unlink (by simp) (by simp),
    clean .rmdir (by simp) (by simp)⟩

theorem save_keeps {storage : Storage} {filename bytes : Bytes} {chunkId : Int32} {faults : Faults}
    (indexed : Indexed storage) (valid : ValidName filename) (nonempty : bytes ≠ [])
    (clean : FileSystemClean faults) (absent : stored storage.disk filename chunkId = none)
    (memory : faults.next .realloc = .done)
    (own : (∃ other, (stored storage.disk filename other).isSome) →
      ∃ last, storage.table.fileToChunkState.getLast? = some last ∧ last.filePath = filename) :
    ∃ reply next, step storage ⟨.save (some filename) (some bytes) chunkId, faults⟩ = some (reply, next) ∧ Indexed next := by
  obtain ⟨has, told, records⟩ := save_new indexed.layout valid nonempty clean absent
  simp only [Records, memory, decide_true] at records
  rcases records with ⟨undefined, _⟩ | ⟨disk, table, inserted, stepped, layout, filled⟩
  · rw [insertToStruct_eq_none] at undefined
    obtain ⟨last, found, _⟩ := own (told.mp undefined.1)
    simp [undefined.2] at found
  · refine ⟨_, _, stepped, ?_⟩
    obtain ⟨front, entry, extended, source⟩ := insertToStruct_some inserted
    rcases source with ⟨rfl, rfl, rfl⟩ | ⟨rfl, split⟩
    · -- no file of the directory is known, so no entry has its name
      have none : ∀ other, stored storage.disk filename other = none := by
        intro other
        by_contra present
        have said := told.mpr ⟨other, Option.isSome_iff_ne_none.mpr present⟩
        simp at said
      refine indexed.record layout filled absent extended (List.Sublist.refl _)
        (indexed.other_names none) (by simp) rfl (by simp) ?_
      intro other
      simp [none]
    · obtain ⟨last, found, named⟩ := own (told.mp rfl)
      have same : entry = last := by simpa [split] using found
      subst last
      have member : entry ∈ storage.table.fileToChunkState := by simp [split]
      have names := indexed.names
      rw [split, List.map_append, List.nodup_append] at names
      refine indexed.record layout filled absent extended (by simp [split]) ?_ (by simp [split])
        named (indexed.nodup entry member) ?_
      · intro file inFront equal
        exact names.2.2 file.filePath (List.mem_map_of_mem inFront) entry.filePath (by simp)
          (equal.trans named.symm)
      · intro other
        rw [← named]
        exact indexed.accurate entry member other

theorem ExtendsOwnEntry.keeps {storage : Storage} {action : Action} (indexed : Indexed storage)
    (permitted : action.Permitted) (own : ExtendsOwnEntry storage action) :
    ∃ reply next, step storage action = some (reply, next) ∧ Indexed next := by
  obtain ⟨request, faults⟩ := action
  obtain ⟨valid, clean⟩ := permitted
  cases request with
  | save filename data chunkId =>
      match filename, data with
      | none, _ => exact ⟨_, _, step_save_unchecked storage chunkId faults (by simp), indexed⟩
      | some _, none => exact ⟨_, _, step_save_unchecked storage chunkId faults (by simp), indexed⟩
      | some filename, some bytes =>
          have validName := valid filename rfl
          by_cases empty : bytes = []
          · exact ⟨_, _, step_save_unchecked storage chunkId faults (by simp [empty]), indexed⟩
          · by_cases absent : stored storage.disk filename chunkId = none
            · obtain ⟨memory, last⟩ := own empty absent
              exact save_keeps indexed validName empty clean absent memory last
            · exact ⟨_, _, step_save_known indexed.layout validName empty
                (clean .access (by simp) (by simp)) (Option.isSome_iff_ne_none.mpr absent), indexed⟩
  | delete filename =>
      obtain ⟨removed, disk, stepped, layout, _, others, gone, failed⟩ :=
        step_delete faults indexed.layout (valid filename rfl)
      refine ⟨_, _, stepped, ?_⟩
      cases removed with
      | true => exact indexed.remove layout (gone rfl) others rfl
      | false =>
          refine indexed.unchanged layout ?_ rfl
          intro other chunkId
          by_cases same : other = filename
          · rw [same]
            exact failed clean.removal rfl chunkId
          · exact others other chunkId same
  | read filename chunkId =>
      obtain ⟨opened, stepped, _⟩ := step_read chunkId faults indexed.layout (valid filename rfl)
      exact ⟨_, _, stepped, indexed⟩

theorem save_breaks {storage : Storage} {filename bytes : Bytes} {chunkId : Int32} {faults : Faults}
    (indexed : Indexed storage) (valid : ValidName filename) (nonempty : bytes ≠ [])
    (clean : FileSystemClean faults) (absent : stored storage.disk filename chunkId = none)
    (foreign : ¬(faults.next .realloc = .done ∧
      ((∃ other, (stored storage.disk filename other).isSome) →
        ∃ last, storage.table.fileToChunkState.getLast? = some last ∧ last.filePath = filename))) :
    ¬∃ reply next, step storage ⟨.save (some filename) (some bytes) chunkId, faults⟩ =
        some (reply, next) ∧ Agrees next := by
  rintro ⟨reply, next, stepped, agrees⟩
  obtain ⟨has, told, records⟩ := save_new indexed.layout valid nonempty clean absent
  rcases records with ⟨_, undefined⟩ | ⟨disk, table, inserted, recorded, layout, filled⟩
  · simp [undefined] at stepped
  · obtain ⟨_, rfl⟩ : _ ∧ _ := by simpa [recorded] using stepped
    obtain ⟨front, entry, extended, source⟩ := insertToStruct_some inserted
    -- the chunk is on the disk now, but no entry of its own file takes it in
    obtain ⟨file, member, named, listed⟩ :=
      (agrees filename chunkId valid).1.mpr (by simp [filled])
    have unlisted : ∀ other ∈ storage.table.fileToChunkState, other.filePath = filename →
        chunkId ∉ other.chunkIds := by
      rintro other inTable rfl inIds
      have present := (indexed.accurate other inTable chunkId).mp inIds
      simp [absent] at present
    have old : ∀ other ∈ front, other ∈ storage.table.fileToChunkState := by
      intro other inFront
      rcases source with ⟨_, rfl, _⟩ | ⟨_, split⟩
      · exact inFront
      · simp [split, inFront]
    simp only [extended, List.mem_append, List.mem_singleton] at member
    rcases member with inFront | rfl
    · exact unlisted file (old file inFront) named listed
    · by_cases memory : faults.next .realloc = .done
      · have sameName : entry.filePath = filename := by simpa [pushChunkId, memory] using named
        apply foreign
        refine ⟨memory, ?_⟩
        intro present
        rcases source with ⟨rfl, _, _⟩ | ⟨_, split⟩
        · have said := told.mpr present
          simp at said
        · exact ⟨entry, by simp [split], sameName⟩
      · simp only [pushChunkId, memory, decide_false, Bool.false_eq_true, if_false] at named listed
        rcases source with ⟨_, _, rfl⟩ | ⟨_, split⟩
        · simp at listed
        · exact unlisted entry (by simp [split]) named listed

theorem ExtendsOwnEntry.breaks {storage : Storage} {action : Action} (indexed : Indexed storage)
    (permitted : action.Permitted) (foreign : ¬ExtendsOwnEntry storage action) :
    ¬∃ reply next, step storage action = some (reply, next) ∧ Agrees next := by
  obtain ⟨request, faults⟩ := action
  obtain ⟨valid, clean⟩ := permitted
  match request with
  | .save none _ _ => exact absurd trivial foreign
  | .save (some _) none _ => exact absurd trivial foreign
  | .delete _ => exact absurd trivial foreign
  | .read _ _ => exact absurd trivial foreign
  | .save (some filename) (some bytes) chunkId =>
      simp only [ExtendsOwnEntry, Classical.not_imp] at foreign
      obtain ⟨nonempty, absent, fails⟩ := foreign
      exact save_breaks indexed (valid filename rfl) nonempty clean absent fails

/-- From an empty node, over any permitted requests: the table agrees with the
disk after each of them exactly when every new chunk extends the entry of its file. -/
theorem always_agrees_iff (storage : Storage) (fresh : storage.Fresh) (actions : List Action)
    (permitted : ∀ action ∈ actions, action.Permitted) :
    Always step Agrees storage actions ↔ Guarded step ExtendsOwnEntry storage actions := by
  refine always_iff_guarded ?_ ?_ actions storage fresh.indexed permitted
  · intro storage action indexed permitted own
    obtain ⟨reply, next, stepped, indexedNext⟩ := own.keeps indexed permitted
    exact ⟨reply, next, stepped, indexedNext, indexedNext.agrees⟩
  · intro storage action indexed permitted foreign
    exact ExtendsOwnEntry.breaks indexed permitted foreign

def interleavedUploads : List Action := [
  ⟨.save (some (ascii "a")) (some (ascii "x")) 0, fun _ => []⟩,
  ⟨.save (some (ascii "b")) (some (ascii "y")) 0, fun _ => []⟩,
  ⟨.save (some (ascii "a")) (some (ascii "z")) 1, fun _ => []⟩]

theorem interleavedUploads_permitted : ∀ action ∈ interleavedUploads, action.Permitted := by
  intro action member
  have clean : FileSystemClean fun _ => [] := by
    intro call _ _ outcome listed
    simp at listed
  have named : ∀ letter, ValidName letter → ∀ filename, some letter = some filename →
      ValidName filename := by
    rintro letter valid filename same
    exact Option.some.inj same ▸ valid
  simp only [interleavedUploads, List.mem_cons, List.not_mem_nil, or_false] at member
  rcases member with rfl | rfl | rfl
  · exact ⟨named _ (by decide), clean⟩
  · exact ⟨named _ (by decide), clean⟩
  · exact ⟨named _ (by decide), clean⟩

theorem always_agrees_iff_interleavedUploads :
    Always step Agrees emptyStorage interleavedUploads ↔
      Guarded step ExtendsOwnEntry emptyStorage interleavedUploads :=
  always_agrees_iff emptyStorage emptyStorage_fresh interleavedUploads interleavedUploads_permitted

theorem interleavedUploads_disagree : ¬∀ storage actions, storage.Fresh →
    (∀ action ∈ actions, action.Permitted) → Always step Agrees storage actions := by
  intro always
  obtain ⟨trace, last, ran, agrees⟩ := (always emptyStorage interleavedUploads emptyStorage_fresh
    interleavedUploads_permitted).final (by simp [interleavedUploads])
  have found : ((run step emptyStorage interleavedUploads).map fun ended =>
      (ended.2.table.fileToChunkState, stored ended.2.disk (ascii "a") 1)) =
      some ([⟨ascii "a", [0]⟩, ⟨ascii "b", [0, 1]⟩], some (ascii "z")) := by decide +kernel
  simp only [ran, Option.map_some, Option.some.injEq, Prod.mk.injEq] at found
  have listed := (agrees (ascii "a") 1 (by decide)).1.mpr (by simp [found.2])
  simp [Lists, found.1, ascii] at listed

end DistributedFileSystem.StorageLayer
