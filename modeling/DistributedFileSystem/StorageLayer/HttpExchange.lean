import DistributedFileSystem.StorageLayer.HttpRun

/-!
A whole request to the HTTP server of a storage node: its callbacks, up to the one
that answers, when none of their calls fails.
-/

namespace DistributedFileSystem.StorageLayer

open ByteString Posix

def callBacks (request : HttpRequest) :
    Storage → Option ConnectionInfo → List Bytes → Option (Answer × Storage)
  | storage, conInfo, [] =>
      (callBack storage ⟨request, [], conInfo, fun _ => []⟩).map
        fun ((answer, _), next) => (answer, next)
  | storage, conInfo, piece :: pieces =>
      match callBack storage ⟨request, piece, conInfo, fun _ => []⟩ with
      | some ((.yes, kept), next) => callBacks request next kept pieces
      | some ((answer, _), next) => some (answer, next)
      | none => none

/-- The first callback comes before the body. -/
def exchange (request : HttpRequest) (storage : Storage) (pieces : List Bytes) :
    Option (Answer × Storage) :=
  callBacks request storage none ([] :: pieces)

def chunkRequest (filename chunkIdStr : Bytes) : HttpRequest :=
  { newChunkRequest filename chunkIdStr with
    url := ascii "/chunk"
    method := ascii "GET" }

@[simp] theorem spend_nothing (call : Call) : Faults.spend (fun _ => []) call = fun _ => [] := by
  funext other
  simp [Faults.spend, Function.update_apply]

@[simp] theorem next_nothing (call : Call) : Faults.next (fun _ => []) call = .done := rfl

section Pieces

variable {request : HttpRequest} {storage : Storage}

theorem callBack_first : callBack storage ⟨request, [], none, fun _ => []⟩ =
    some ((.yes, some { data := none }), storage) := by
  simp [callBack, answerToConnection, answerToConnectionWith, bind_apply, allocate, pure_apply]

theorem callBack_piece (post : request.method = ascii "POST") {piece : Bytes}
    (nonempty : piece ≠ []) (info : ConnectionInfo) :
    callBack storage ⟨request, piece, some info, fun _ => []⟩ =
      some ((.yes, some { data := some (info.data.getD [] ++ piece) }), storage) := by
  simp [callBack, answerToConnection, answerToConnectionWith, post, nonempty, bind_apply, allocate, pure_apply]

theorem callBacks_pieces (post : request.method = ascii "POST") {pieces : List Bytes}
    (nonempty : ∀ piece ∈ pieces, piece ≠ []) (held : Bytes) :
    callBacks request storage (some { data := some held }) pieces =
      callBacks request storage (some { data := some (held ++ pieces.flatten) }) [] := by
  induction pieces generalizing held with
  | nil => simp
  | cons piece pieces ih =>
      rw [List.forall_mem_cons] at nonempty
      have later := ih nonempty.2 (held ++ piece)
      rw [List.append_assoc, ← List.flatten_cons] at later
      rw [← later, callBacks, callBack_piece post nonempty.1]
      rfl

theorem exchange_post (post : request.method = ascii "POST") {pieces : List Bytes}
    (nonempty : ∀ piece ∈ pieces, piece ≠ []) (body : pieces.flatten ≠ []) :
    exchange request storage pieces =
      (callBack storage ⟨request, [], some { data := some pieces.flatten }, fun _ => []⟩).map
        fun ((answer, _), next) => (answer, next) := by
  cases pieces with
  | nil => simp at body
  | cons piece pieces =>
      rw [List.forall_mem_cons] at nonempty
      rw [exchange, callBacks, callBack_first]
      simp only
      rw [callBacks, callBack_piece post nonempty.1]
      simp only [Option.getD_none, List.nil_append]
      rw [callBacks_pieces post nonempty.2, callBacks, List.flatten_cons]

end Pieces

/-- The names in the table after a request are old ones or the one in its header. -/
theorem callBacks_names {request : HttpRequest} {storage next : Storage}
    {conInfo : Option ConnectionInfo} {pieces : List Bytes} {answer : Answer}
    (called : callBacks request storage conInfo pieces = some (answer, next)) :
    Names (request.header (ascii "X-Filename")) storage.table next.table := by
  induction pieces generalizing storage conInfo with
  | nil =>
      rw [callBacks, Option.map_eq_some_iff] at called
      obtain ⟨_, last, same⟩ := called
      obtain ⟨_, rfl⟩ := Prod.mk.inj same
      exact callBack_names last
  | cons piece pieces ih =>
      rw [callBacks] at called
      split at called
      · rename_i early
        exact (callBack_names early).trans (ih called)
      · rename_i early
        obtain ⟨_, rfl⟩ := Prod.mk.inj (Option.some.inj called)
        exact callBack_names early
      · contradiction

section Chunk

variable {storage next : Storage} {filename chunkIdStr : Bytes}

theorem handleNewChunk_saved {bytes : Bytes} (nonempty : bytes ≠ []) {chunkId : Int32} {answer : Bool}
    {process last : Process StorageStateOuter} (memory : process.faults.next .malloc = .done)
    (saved : saveChunkToFile (some filename) (some bytes) chunkId process = some (answer, last)) :
    ∃ response faults, handleNewChunk { data := some bytes } noResponse filename chunkId process =
        some ((answer, response), { last with faults := faults }) ∧
      response.page.isSome = answer := by
  have granted := Faults.next_of_eq (saveChunkToFile_answer nonempty saved).2
  rw [memory] at granted
  rw [handleNewChunk, bind_of_some saved]
  cases answer with
  | false => exact ⟨noResponse, last.faults, rfl, rfl⟩
  | true =>
      simp only [Bool.not_true, Bool.false_eq_true, if_false, bind_apply, allocate, granted,
        decide_true, Option.bind_some, if_true]
      exact ⟨_, _, rfl, rfl⟩

theorem answerPost_saved {request : HttpRequest} (chunkUrl : request.url = ascii "/new-chunk")
    (name : request.header (ascii "X-Filename") = some filename)
    (text : request.header (ascii "X-Chunk-ID") = some chunkIdStr) {bytes : Bytes}
    (nonempty : bytes ≠ []) {answer : Bool} {process last : Process StorageStateOuter}
    (memory : process.faults.next .malloc = .done)
    (saved : saveChunkToFile (some filename) (some bytes) (atoi chunkIdStr) process =
      some (answer, last)) :
    ∃ page faults, answerPost request { data := some bytes } process =
        some (.json (if answer then httpOk else httpInternalServerError) page,
          { last with faults := faults }) ∧ page.isSome = answer := by
  obtain ⟨response, faults, handled, page⟩ := handleNewChunk_saved nonempty memory saved
  have sized : 0 < bytes.length := List.length_pos_iff.mpr nonempty
  refine ⟨response.page, faults, ?_, page⟩
  simp only [answerPost, answerPostWith, chunkUrl, name, text, Option.getD_some, sized, if_true]
  rw [bind_of_some handled]
  rfl

theorem answerGet_opened {request : HttpRequest} (chunkUrl : request.url = ascii "/chunk")
    (name : request.header (ascii "X-Filename") = some filename)
    (text : request.header (ascii "X-Chunk-ID") = some chunkIdStr) {opened : Option Node}
    {process last : Process StorageStateOuter}
    (stats : last.faults.next .fstat = .done) (memory : last.faults.next .malloc = .done)
    (ran : getFileDescriptor filename (atoi chunkIdStr) process = some (opened, last)) :
    ∃ faults, answerGet request process =
      some ((opened.map Answer.file).getD notFound, { last with faults := faults }) := by
  simp only [answerGet, chunkUrl, name, text, if_true]
  rw [bind_of_some ran]
  cases opened with
  | none => exact ⟨last.faults, rfl⟩
  | some node =>
      have seen : (fstat : Sys StorageStateOuter Bool) last = some (true, last.spend .fstat) := by
        simp [fstat, attempt, stats, bind_apply, pure_apply, Process.spend]
      have granted : (last.spend .fstat).faults.next .malloc = .done := by
        rw [Process.spend_faults, Faults.next_of_eq (Faults.spend_of_ne (by simp)), memory]
      refine ⟨((last.spend .fstat).spend .malloc).faults, ?_⟩
      simp only [bind_apply, seen, Option.bind_some, Bool.not_true, Bool.false_eq_true, if_false,
        allocate, granted, decide_true, if_true]
      rfl

theorem exchange_newChunk {pieces : List Bytes} (nonempty : ∀ piece ∈ pieces, piece ≠ [])
    (body : pieces.flatten ≠ []) {answer : Bool}
    (stepped : step storage ⟨.save (some filename) (some pieces.flatten) (atoi chunkIdStr),
      fun _ => []⟩ = some (.saved answer, next)) :
    ∃ page, exchange (newChunkRequest filename chunkIdStr) storage pieces =
        some (.json (if answer then httpOk else httpInternalServerError) page, next) ∧
      page.isSome = answer := by
  rw [step_save, Option.map_eq_some_iff] at stepped
  obtain ⟨⟨taken, last⟩, saved, same⟩ := stepped
  obtain ⟨rfl, rfl⟩ : taken = answer ∧ _ = next := by simpa using same
  have post : (newChunkRequest filename chunkIdStr).method = ascii "POST" := rfl
  obtain ⟨page, faults, answered, set⟩ := answerPost_saved
    (rfl : (newChunkRequest filename chunkIdStr).url = ascii "/new-chunk") rfl
    (by simp [newChunkRequest, ascii]) body rfl saved
  refine ⟨page, ?_, set⟩
  rw [exchange_post post nonempty body]
  simp only [callBack, answerToConnection, answerToConnectionWith, post, ne_eq, not_true_eq_false, and_false, if_false,
    if_true]
  rw [bind_of_some answered]
  rfl

theorem exchange_chunk {opened : Option Node}
    (stepped : step storage ⟨.read filename (atoi chunkIdStr), fun _ => []⟩ =
      some (.opened opened, next)) :
    exchange (chunkRequest filename chunkIdStr) storage [] =
      some ((opened.map Answer.file).getD notFound, next) := by
  have get : (chunkRequest filename chunkIdStr).method = ascii "GET" := rfl
  have other : ascii "GET" ≠ ascii "POST" := by decide
  simp only [step, Request.serve, bind_apply, pure_apply, Option.map_eq_some_iff,
    Option.bind_eq_some_iff] at stepped
  obtain ⟨_, ⟨⟨found, last⟩, ran, served⟩, same⟩ := stepped
  obtain rfl := Option.some.inj served
  obtain ⟨rfl, rfl⟩ : found = opened ∧ _ = next := by simpa using same
  have spent : last.faults = fun _ => [] := by
    simp only [getFileDescriptor, bind_apply, get_apply, Option.bind_some] at ran
    split at ran
    · rw [openRead, attempt_stat] at ran
      obtain ⟨_, rfl⟩ := Prod.mk.inj (Option.some.inj ran)
      simp
    · obtain ⟨_, rfl⟩ := Prod.mk.inj (Option.some.inj ran)
      rfl
  obtain ⟨faults, answered⟩ := answerGet_opened
    (rfl : (chunkRequest filename chunkIdStr).url = ascii "/chunk") rfl
    (by simp [chunkRequest, newChunkRequest, ascii]) (by simp [spent]) (by simp [spent]) ran
  rw [exchange, callBacks, callBack_first]
  simp only [callBacks, callBack, answerToConnection, answerToConnectionWith, get, other, ne_eq, not_true_eq_false,
    and_false, if_false, if_true]
  rw [bind_of_some answered]
  rfl

end Chunk

end DistributedFileSystem.StorageLayer
