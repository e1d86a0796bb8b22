import DistributedFileSystem.StorageLayer.HttpMain

/-! The HTTP server of a storage node over one callback after the other. -/

namespace DistributedFileSystem.StorageLayer

open ByteString Posix Transition

structure Callback where
  request : HttpRequest
  uploadData : Bytes
  conInfo : Option ConnectionInfo
  faults : Faults

def callBack (storage : Storage) (callback : Callback) :
    Option ((Answer × Option ConnectionInfo) × Storage) :=
  (answerToConnection callback.request callback.uploadData callback.conInfo
    (storage.process callback.faults)).map fun (result, process) =>
      (result, { disk := process.disk, table := process.memory })

def newChunkRequest (filename chunkIdStr : Bytes) : HttpRequest := {
  url := ascii "/new-chunk"
  method := ascii "POST"
  header := fun name =>
    if name = ascii "X-Filename" then some filename
    else if name = ascii "X-Chunk-ID" then some chunkIdStr
    else none
}

def uploadCallbacks (filename chunkIdStr body : Bytes) (faults : Faults) : List Callback :=
  let request := newChunkRequest filename chunkIdStr
  [⟨request, [], none, faults⟩, ⟨request, body, some { data := none }, faults⟩,
    ⟨request, [], some { data := some body }, faults⟩]

def Names (named : Option Bytes) (before after : StorageStateOuter) : Prop :=
  ∀ file ∈ after.fileToChunkState,
    file.filePath ∈ before.fileToChunkState.map FileStateCurrentInner.filePath ∨
      named = some file.filePath

theorem Names.same {named : Option Bytes} {before after : StorageStateOuter}
    (same : after = before) : Names named before after := by
  intro file member
  rw [same] at member
  exact Or.inl (List.mem_map_of_mem member)

theorem Names.inserted {allocated has : Bool} {before after : StorageStateOuter}
    {filename : Bytes} {chunkId : Int32}
    (inserted : insertToStruct allocated before filename chunkId has = some after) :
    Names (some filename) before after := by
  intro file member
  have named := List.mem_map_of_mem (f := FileStateCurrentInner.filePath) member
  rw [insertToStruct_filePath inserted, List.mem_append] at named
  refine named.imp_right ?_
  intro new
  split at new
  · contradiction
  · rw [List.mem_singleton.mp new]

theorem Names.removed (named : Option Bytes) (state : StorageStateOuter) (filename : Bytes) :
    Names named state (removeFromStruct state filename) := by
  intro file member
  rw [removeFromStruct_eq] at member
  exact Or.inl (List.mem_map_of_mem (List.mem_of_mem_eraseP member))

theorem Names.trans {named : Option Bytes} {before middle after : StorageStateOuter}
    (early : Names named before middle) (late : Names named middle after) :
    Names named before after := by
  intro file member
  rcases late file member with old | new
  · obtain ⟨other, there, same⟩ := List.mem_map.mp old
    rw [← same]
    exact early other there
  · exact Or.inr new

theorem saveChunkToFile_names {filename : Bytes} {data : Option Bytes} {chunkId : Int32}
    {answer : Bool} {process next : Process StorageStateOuter}
    (saved : saveChunkToFile (some filename) data chunkId process = some (answer, next)) :
    Names (some filename) process.memory next.memory := by
  by_cases unchecked : data = none ∨ data = some []
  · obtain ⟨_, rfl⟩ : false = answer ∧ process = next := by
      rcases unchecked with rfl | rfl
      · simpa [saveChunkToFile, pure_apply] using saved
      · simpa [saveChunkToFile, pure_apply] using saved
    exact Names.same rfl
  · obtain ⟨bytes, rfl⟩ := Option.ne_none_iff_exists'.mp fun missing => unchecked (Or.inl missing)
    have nonempty : bytes ≠ [] := fun empty => unchecked (Or.inr (by rw [empty]))
    obtain ⟨has, disk, faults, _, _, ended⟩ :=
      @saveChunkToFile_calls filename bytes chunkId nonempty process
    rcases ended with ⟨_, same⟩ | ⟨_, _, same⟩ | ⟨_, _, same⟩
    · obtain ⟨_, rfl⟩ := Prod.mk.inj (Option.some.inj (saved.symm.trans same))
      exact Names.same rfl
    · obtain ⟨_, rfl⟩ := Prod.mk.inj (Option.some.inj (saved.symm.trans same))
      exact Names.same rfl
    · have recorded := same.symm.trans saved
      simp only [recordChunk, bind_apply, allocate, get_apply, Option.bind_some,
        Process.spend_memory] at recorded
      cases inserted : insertToStruct (faults.next .realloc = .done) process.memory filename
          chunkId has with
      | none =>
          rw [inserted] at recorded
          contradiction
      | some state =>
          rw [inserted] at recorded
          obtain ⟨_, rfl⟩ := Prod.mk.inj (Option.some.inj recorded)
          exact Names.inserted inserted

theorem deleteFile_names {filename : Bytes} {removed : Bool}
    {process next : Process StorageStateOuter}
    (deleted : deleteFile filename process = some (removed, next)) :
    Names (some filename) process.memory next.memory := by
  obtain ⟨result, last, ran, same, _⟩ :=
    removeDirectory_quiet descriptorLimit (directoryPath filename) process
  rw [deleteFile_of_removed ran] at deleted
  obtain ⟨_, rfl⟩ := Prod.mk.inj (Option.some.inj deleted)
  simp only
  split
  · rw [same]
    exact Names.removed _ _ _
  · exact Names.same same

def Respects {α : Type} (named : Option Bytes) (action : Sys StorageStateOuter α) : Prop :=
  ∀ process value next, action process = some (value, next) →
    Names named process.memory next.memory

namespace Respects

variable {α β : Type} {named : Option Bytes}

theorem pure (value : α) : Respects named (pure value : Sys StorageStateOuter α) := by
  intro process other next ran
  obtain ⟨_, rfl⟩ := Prod.mk.inj (Option.some.inj ran)
  exact Names.same rfl

theorem bind {first : Sys StorageStateOuter α} {rest : α → Sys StorageStateOuter β}
    (early : Respects named first) (late : ∀ value, Respects named (rest value)) :
    Respects named (first >>= rest) := by
  intro process other next ran
  rw [bind_apply, Option.bind_eq_some_iff] at ran
  obtain ⟨⟨value, middle⟩, started, finished⟩ := ran
  exact (early process value middle started).trans (late value middle other next finished)

theorem allocate (call : Call) : Respects named (allocate call) := by
  intro process other next ran
  obtain ⟨_, rfl⟩ := Prod.mk.inj (Option.some.inj ran)
  exact Names.same rfl

theorem quiet {spared : Call} {action : Sys StorageStateOuter α} (quiet : Quiet spared action) :
    Respects named action := by
  intro process other next ran
  obtain ⟨value, last, finished, same, _⟩ := quiet process
  obtain ⟨_, rfl⟩ := Prod.mk.inj (Option.some.inj (finished.symm.trans ran))
  exact Names.same same

theorem fstat : Respects named fstat :=
  @quiet _ _ .malloc _ ((Quiet.attempt _ (by simp)).bind fun _ => Quiet.pure _)

theorem getFileDescriptor (filename : Bytes) (chunkId : Int32) :
    Respects named (getFileDescriptor filename chunkId) := by
  refine @quiet _ _ .malloc _ (Quiet.get_bind fun process => ?_)
  split
  · exact Quiet.attempt _ (by simp)
  · exact Quiet.pure _

end Respects

theorem answerPost_respects (request : HttpRequest) (conInfo : ConnectionInfo) :
    Respects (request.header (ascii "X-Filename")) (answerPost request conInfo) := by
  unfold answerPost answerPostWith
  split
  · split
    · rename_i filename chunkIdStr name _
      split
      · refine Respects.bind ?_ fun _ => Respects.pure _
        refine Respects.bind ?_ fun stored => ?_
        · intro process answer next saved
          rw [name]
          exact saveChunkToFile_names saved
        · split
          · exact Respects.pure _
          · refine (Respects.allocate .malloc).bind fun granted => ?_
            split
            · exact Respects.pure _
            · exact Respects.pure _
      · exact Respects.pure _
    · exact Respects.pure _
  · exact Respects.pure _

theorem answerGet_respects (request : HttpRequest) (named : Option Bytes) :
    Respects named (answerGet request) := by
  unfold answerGet
  split
  · split
    · refine (Respects.getFileDescriptor _ _).bind fun opened => ?_
      split
      · exact Respects.pure _
      · refine Respects.fstat.bind fun statted => ?_
        split
        · exact Respects.pure _
        · refine (Respects.allocate .malloc).bind fun created => ?_
          split
          · exact Respects.pure _
          · exact Respects.pure _
    · exact Respects.pure _
  · exact Respects.pure _

theorem answerDelete_respects (request : HttpRequest) :
    Respects (request.header (ascii "X-Filename")) (answerDelete request) := by
  unfold answerDelete
  split
  · split
    · exact Respects.pure _
    · rename_i filename name
      refine Respects.bind ?_ fun removed => ?_
      · intro process answer next deleted
        rw [name]
        exact deleteFile_names deleted
      · split
        · exact Respects.pure _
        · exact Respects.pure _
  · exact Respects.pure _

theorem answerToConnection_respects (request : HttpRequest) (uploadData : Bytes)
    (conInfo : Option ConnectionInfo) : Respects (request.header (ascii "X-Filename"))
      (answerToConnection request uploadData conInfo) := by
  unfold answerToConnection answerToConnectionWith
  split
  · refine (Respects.allocate .malloc).bind fun granted => ?_
    split
    · exact Respects.pure _
    · exact Respects.pure _
  · split
    · refine (Respects.allocate .realloc).bind fun granted => ?_
      split
      · exact Respects.pure _
      · exact Respects.pure _
    · split
      · exact (answerPost_respects request _).bind fun _ => Respects.pure _
      · split
        · exact (answerGet_respects request _).bind fun _ => Respects.pure _
        · split
          · exact (answerDelete_respects request).bind fun _ => Respects.pure _
          · exact Respects.pure _

theorem callBack_names {storage next : Storage} {callback : Callback}
    {result : Answer × Option ConnectionInfo}
    (called : callBack storage callback = some (result, next)) :
    Names (callback.request.header (ascii "X-Filename")) storage.table next.table := by
  obtain ⟨⟨_, process⟩, answered, same⟩ := Option.map_eq_some_iff.mp called
  obtain ⟨_, rfl⟩ := Prod.mk.inj same
  exact answerToConnection_respects _ _ _ _ _ _ answered

/-- Whatever was asked of the node, a name in its table is one it was sent. -/
theorem run_names {storage final : Storage} {callbacks : List Callback}
    {trace : List (Callback × (Answer × Option ConnectionInfo))}
    (fresh : storage.table = storageStateInit)
    (ran : run callBack storage callbacks = some (trace, final)) :
    ∀ file ∈ final.table.fileToChunkState, ∃ callback ∈ callbacks,
      callback.request.header (ascii "X-Filename") = some file.filePath := by
  have known : ∀ file ∈ final.table.fileToChunkState,
      file.filePath ∈ storage.table.fileToChunkState.map FileStateCurrentInner.filePath ∨
        ∃ callback ∈ callbacks,
          callback.request.header (ascii "X-Filename") = some file.filePath := by
    clear fresh
    induction callbacks generalizing storage trace with
    | nil =>
        obtain ⟨_, rfl⟩ := Prod.mk.inj (Option.some.inj ran)
        exact fun file member => Or.inl (List.mem_map_of_mem member)
    | cons callback rest ih =>
        obtain ⟨_, next, _, called, finished, _⟩ := run_cons ran
        intro file member
        rcases ih finished file member with old | ⟨later, belongs, sent⟩
        · obtain ⟨other, there, same⟩ := List.mem_map.mp old
          rw [← same]
          exact (callBack_names called other there).imp_right fun sent => ⟨callback, by simp, sent⟩
        · exact Or.inr ⟨later, by simp [belongs], sent⟩
  intro file member
  refine (known file member).resolve_left ?_
  simp [fresh, storageStateInit]

end DistributedFileSystem.StorageLayer
