import DistributedFileSystem.StorageLayer.ChunkStore

/-!
What an opened chunk holds, over runs in which files are saved, deleted and
opened: the disk is a store that keeps the first value put under a key.
-/

namespace DistributedFileSystem.StorageLayer

open ByteString Posix Transition PutOnce

def effect : Action × Reply → Option (Event Bytes Int32 Bytes)
  | (⟨.save (some filename) (some data) chunkId, _⟩, .saved true) =>
      some (.put filename chunkId data)
  | (⟨.delete filename, _⟩, .deleted true) => some (.drop filename)
  | _ => none

def effects (history : List (Action × Reply)) : List (Event Bytes Int32 Bytes) :=
  history.filterMap effect

/-- The data of the first save of the chunk to answer `true` since the last
removal of the file that did. -/
def firstSaved (filename : Bytes) (chunkId : Int32) (history : List (Action × Reply)) :
    Option Bytes :=
  firstPut filename chunkId (effects history)

/-- The name is one component, `access` tells the truth, a write that is started is
complete, and a removal that does not succeed has no effect. -/
def Orderly (storage : Storage) (action : Action) : Prop :=
  (∀ filename, action.request.filename = some filename → ValidName filename) ∧
    action.faults.Clean .access ∧ action.faults.Clean .fwrite ∧
    ∀ next, step storage action = some (.deleted false, next) →
      next.disk.node? = storage.disk.node?

structure Holds (history : List (Action × Reply)) (storage : Storage) : Prop where
  layout : Layout storage.disk
  stored : stored storage.disk = replay (effects history)
  covers : ∀ filename chunkId, (StorageLayer.stored storage.disk filename chunkId).isSome →
    ∃ file ∈ storage.table.fileToChunkState, file.filePath = filename

def OpensFirstSaved (history : List (Action × Reply)) (event : Action × Reply) : Prop :=
  ∀ filename chunkId node, event.1.request = .read filename chunkId →
    event.2 = .opened (some node) →
      ∃ data, firstSaved filename chunkId history = some data ∧ node = .file data

theorem effects_concat (history : List (Action × Reply)) (event : Action × Reply) :
    replay (effects (history ++ [event])) =
      match effect event with
      | some change => apply (replay (effects history)) change
      | none => replay (effects history) := by
  rw [effects, List.filterMap_append]
  cases found : effect event with
  | none => simp [found, effects]
  | some change => simp [found, effects, replay_concat]

theorem Storage.Fresh.holds {storage : Storage} (fresh : storage.Fresh) : Holds [] storage := by
  refine ⟨fresh.layout, ?_, ?_⟩
  · funext filename chunkId
    rw [fresh.stored_eq_none]
    rfl
  · intro filename chunkId present
    simp [fresh.stored_eq_none] at present

namespace Holds

variable {history : List (Action × Reply)} {storage next : Storage} {action : Action} {reply : Reply}

theorem idle (holds : Holds history storage) (layout : Layout next.disk)
    (same : StorageLayer.stored next.disk = StorageLayer.stored storage.disk)
    (table : next.table = storage.table) (none : effect (action, reply) = none) :
    Holds (history ++ [(action, reply)]) next := by
  refine ⟨layout, ?_, ?_⟩
  · rw [effects_concat, none, same, holds.stored]
  · rw [same, table]
    exact holds.covers

theorem covers_inserted {has allocated : Bool} {filename bytes : Bytes} {chunkId : Int32}
    {disk : Disk} {table : StorageStateOuter}
    (covers : ∀ other otherId, (StorageLayer.stored storage.disk other otherId).isSome →
      ∃ file ∈ storage.table.fileToChunkState, file.filePath = other)
    (told : has = true → ∃ id, (StorageLayer.stored storage.disk filename id).isSome)
    (inserted : insertToStruct allocated storage.table filename chunkId has = some table)
    (filled : ∀ other otherId, StorageLayer.stored disk other otherId =
      if other = filename ∧ otherId = chunkId then some bytes
      else StorageLayer.stored storage.disk other otherId)
    {other : Bytes} {otherId : Int32} (present : (StorageLayer.stored disk other otherId).isSome) :
    ∃ file ∈ table.fileToChunkState, file.filePath = other := by
  rw [← List.mem_map, insertToStruct_filePath inserted, List.mem_append, List.mem_map]
  by_cases before : ∃ id, (StorageLayer.stored storage.disk other id).isSome
  · obtain ⟨id, there⟩ := before
    exact Or.inl (covers other id there)
  · have same : other = filename := by
      rw [filled] at present
      by_contra different
      rw [if_neg (fun both => different both.1)] at present
      exact before ⟨otherId, present⟩
    subst other
    have untold : has = false := by
      rw [← Bool.not_eq_true]
      exact fun said => before (told said)
    simp [untold]

theorem save (holds : Holds history storage) (orderly : Orderly storage action)
    {filename data : Option Bytes} {chunkId : Int32}
    (request : action.request = .save filename data chunkId) :
    ∃ reply next, step storage action = some (reply, next) ∧
      Holds (history ++ [(action, reply)]) next := by
  obtain ⟨_, faults⟩ := action
  simp only at request
  subst request
  obtain ⟨valid, accurate, whole, _⟩ := orderly
  by_cases unchecked : filename = none ∨ data = none ∨ data = some []
  · exact ⟨_, _, step_save_unchecked storage chunkId faults unchecked,
      holds.idle holds.layout rfl rfl (by simp [effect])⟩
  · simp only [not_or] at unchecked
    obtain ⟨filename, rfl⟩ := Option.ne_none_iff_exists'.mp unchecked.1
    obtain ⟨bytes, rfl⟩ := Option.ne_none_iff_exists'.mp unchecked.2.1
    have nonempty : bytes ≠ [] := fun empty => unchecked.2.2 (by rw [empty])
    have validName := valid filename rfl
    by_cases absent : StorageLayer.stored storage.disk filename chunkId = none
    · rcases step_save_new holds.layout validName nonempty accurate whole absent with
        ⟨disk, stepped, layout, same, _⟩ | ⟨has, told, _, records⟩
      · exact ⟨_, _, stepped, holds.idle layout same rfl rfl⟩
      · rcases records with ⟨undefined, _⟩ | ⟨disk, table, inserted, stepped, layout, filled⟩
        · -- a chunk next to it is listed by an entry, so the table is not empty
          rw [insertToStruct_eq_none] at undefined
          obtain ⟨other, present⟩ := told undefined.1
          obtain ⟨file, member, _⟩ := holds.covers filename other present
          simp [undefined.2] at member
        · refine ⟨_, _, stepped, layout, ?_, ?_⟩
          · rw [effects_concat, ← holds.stored]
            funext other otherId
            rw [filled]
            simp only [effect, apply, PutOnce.put, absent, Option.getD_none]
          · exact fun other otherId => covers_inserted holds.covers told inserted filled
    · refine ⟨_, _, step_save_known holds.layout validName nonempty accurate
        (Option.isSome_iff_ne_none.mpr absent), holds.layout, ?_, holds.covers⟩
      rw [effects_concat, ← holds.stored]
      obtain ⟨held, found⟩ := Option.ne_none_iff_exists'.mp absent
      funext other otherId
      by_cases same : other = filename ∧ otherId = chunkId
      · simp only [effect, apply, PutOnce.put, same, and_self, if_true, found, Option.getD_some]
      · simp only [effect, apply, PutOnce.put, same, if_false]

theorem delete (holds : Holds history storage) (orderly : Orderly storage action)
    {filename : Bytes} (request : action.request = .delete filename) :
    ∃ reply next, step storage action = some (reply, next) ∧
      Holds (history ++ [(action, reply)]) next := by
  obtain ⟨_, faults⟩ := action
  simp only at request
  subst request
  obtain ⟨valid, _, _, atomic⟩ := orderly
  obtain ⟨removed, disk, stepped, layout, cwd, others, gone, _⟩ :=
    step_delete faults holds.layout (valid filename rfl)
  refine ⟨_, _, stepped, ?_⟩
  cases removed with
  | false =>
      refine holds.idle layout ?_ rfl rfl
      have same := atomic _ stepped
      funext other chunkId
      simp only at same
      rw [StorageLayer.stored, StorageLayer.stored, same, cwd]
  | true =>
      refine ⟨layout, ?_, ?_⟩
      · rw [effects_concat, ← holds.stored]
        funext other chunkId
        simp only [effect, apply, PutOnce.drop]
        split
        · rename_i same
          rw [same, gone rfl]
        · rename_i different
          exact others other chunkId different
      · intro other chunkId present
        have different : other ≠ filename := by
          rintro rfl
          simp [gone rfl] at present
        rw [others other chunkId different] at present
        obtain ⟨file, member, rfl⟩ := holds.covers other chunkId present
        refine ⟨file, ?_, rfl⟩
        simp only [if_true, removeFromStruct_eq]
        exact (List.mem_eraseP_of_neg (by simpa using different)).mpr member

theorem read (holds : Holds history storage) (orderly : Orderly storage action)
    {filename : Bytes} {chunkId : Int32} (request : action.request = .read filename chunkId) :
    ∃ opened, step storage action = some (.opened opened, storage) ∧
      Holds (history ++ [(action, .opened opened)]) storage ∧
      OpensFirstSaved history (action, .opened opened) := by
  obtain ⟨_, faults⟩ := action
  simp only at request
  subst request
  obtain ⟨opened, stepped, held⟩ := step_read chunkId faults holds.layout (orderly.1 filename rfl)
  refine ⟨opened, stepped, holds.idle holds.layout rfl rfl rfl, ?_⟩
  intro otherName otherId node request reply
  simp only [Request.read.injEq, Reply.opened.injEq] at request reply
  obtain ⟨rfl, rfl⟩ := request
  obtain ⟨bytes, rfl, found⟩ := held node reply
  refine ⟨bytes, ?_, rfl⟩
  rw [firstSaved, ← replay_eq_firstPut, ← holds.stored, found]

theorem step (holds : Holds history storage) (orderly : Orderly storage action) :
    ∃ reply next, StorageLayer.step storage action = some (reply, next) ∧
      Holds (history ++ [(action, reply)]) next ∧ OpensFirstSaved history (action, reply) := by
  cases request : action.request with
  | save filename data chunkId =>
      obtain ⟨reply, next, stepped, kept⟩ := holds.save orderly request
      refine ⟨reply, next, stepped, kept, ?_⟩
      intro _ _ _ read _
      simp [request] at read
  | delete filename =>
      obtain ⟨reply, next, stepped, kept⟩ := holds.delete orderly request
      refine ⟨reply, next, stepped, kept, ?_⟩
      intro _ _ _ read _
      simp [request] at read
  | read filename chunkId =>
      obtain ⟨opened, stepped, kept, opens⟩ := holds.read orderly request
      exact ⟨_, storage, stepped, kept, opens⟩

end Holds

/-- From an empty node, over any orderly run: an opened chunk has the bytes of its
first save since its file was last removed. -/
theorem opens_first_saved (storage : Storage) (fresh : storage.Fresh) (actions : List Action)
    (orderly : Guarded step Orderly storage actions) :
    ∃ trace last, run step storage actions = some (trace, last) ∧
      ∀ earlier filename chunkId faults node later,
        trace = earlier ++ (⟨.read filename chunkId, faults⟩, .opened (some node)) :: later →
        ∃ data, firstSaved filename chunkId earlier = some data ∧ node = .file data := by
  obtain ⟨trace, last, ran, _, opens⟩ := @run_throughout _ _ _ step Orderly Holds OpensFirstSaved
    (fun _ _ _ holds orderly => holds.step orderly) actions storage fresh.holds orderly
  refine ⟨trace, last, ran, ?_⟩
  intro earlier filename chunkId faults node later split
  exact opens earlier _ later split filename chunkId node rfl rfl

def savedAgain : List Action := [
  ⟨.save (some (ascii "a")) (some (ascii "x")) 0, fun _ => []⟩,
  ⟨.delete (ascii "a"), fun _ => []⟩,
  ⟨.save (some (ascii "a")) (some (ascii "y")) 0, fun _ => []⟩,
  ⟨.read (ascii "a") 0, fun _ => []⟩]

theorem savedAgain_orderly : Guarded step Orderly emptyStorage savedAgain := by
  have named : ∀ filename, some (ascii "a") = some filename → ValidName filename := by
    rintro filename same
    exact Option.some.inj same ▸ (by decide : ValidName (ascii "a"))
  have clean : ∀ call, Faults.Clean (fun _ => []) call := by
    intro call outcome member
    simp at member
  have kept : ∀ storage request, request.filename = some (ascii "a") →
      (∀ filename, request ≠ .delete filename) → Orderly storage ⟨request, fun _ => []⟩ := by
    intro storage request filename different
    refine ⟨by simpa [filename] using named, clean _, clean _, ?_⟩
    intro next deleted
    obtain ⟨name, same⟩ := delete_of_deleted deleted
    exact absurd same (different name)
  refine ⟨kept _ _ rfl (by simp), ?_⟩
  intro reply saved stepped
  refine ⟨⟨named, clean _, clean _, ?_⟩, ?_⟩
  · intro next deleted
    have removed : (step emptyStorage ⟨.save (some (ascii "a")) (some (ascii "x")) 0,
        fun _ => []⟩).bind (fun served =>
          (step served.2 ⟨.delete (ascii "a"), fun _ => []⟩).map Prod.fst) =
        some (.deleted true) := by decide +kernel
    simp [stepped, deleted] at removed
  · intro _ removed _
    refine ⟨kept _ _ rfl (by simp), ?_⟩
    intro _ again _
    exact ⟨kept _ _ rfl (by simp), fun _ _ _ => trivial⟩

theorem opens_first_saved_savedAgain : ∃ trace last,
    run step emptyStorage savedAgain = some (trace, last) ∧
      ∀ earlier filename chunkId faults node later,
        trace = earlier ++ (⟨.read filename chunkId, faults⟩, .opened (some node)) :: later →
        ∃ data, firstSaved filename chunkId earlier = some data ∧ node = .file data :=
  opens_first_saved emptyStorage emptyStorage_fresh savedAgain savedAgain_orderly

end DistributedFileSystem.StorageLayer
