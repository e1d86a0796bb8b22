import DistributedFileSystem.StorageLayer.FirstKept
import DistributedFileSystem.StorageLayer.HttpExchange
import DistributedFileSystem.StorageLayer.UploadFragments

/-!
The HTTP server of a storage node as a front end of its chunk store: a callback that ends a
request makes one call of the store, all at once, and answers by what the call returns.
-/

namespace DistributedFileSystem.StorageLayer

open ByteString Posix Transition

def storeCall (request : HttpRequest) (uploadData : Bytes) :
    Option ConnectionInfo → Option Request
  | none => none
  | some info =>
      if request.method = ascii "POST" then
        if uploadData = [] ∧ request.url = ascii "/new-chunk" then
          match request.header (ascii "X-Filename"), request.header (ascii "X-Chunk-ID") with
          | some filename, some chunkIdStr =>
              if 0 < (info.data.getD []).length then
                some (.save (some filename) info.data (atoi chunkIdStr))
              else none
          | _, _ => none
        else none
      else if request.method = ascii "GET" then
        if request.url = ascii "/chunk" then
          match request.header (ascii "X-Filename"), request.header (ascii "X-Chunk-ID") with
          | some filename, some chunkIdStr => some (.read filename (atoi chunkIdStr))
          | _, _ => none
        else none
      else if request.method = ascii "DELETE" then
        if request.url = ascii "/remove-file" then
          (request.header (ascii "X-Filename")).map .delete
        else none
      else none

def answerAlone (request : HttpRequest) (uploadData : Bytes) (faults : Faults) :
    Option ConnectionInfo → Answer
  | none => if faults.next .malloc = .done then .yes else .no
  | some _ =>
      if request.method = ascii "POST" ∧ uploadData ≠ [] then
        if faults.next .realloc = .done then .yes else .no
      else if request.method = ascii "POST" then
        if request.url = ascii "/new-chunk" then
          if (request.header (ascii "X-Filename")).isSome ∧
              (request.header (ascii "X-Chunk-ID")).isSome then
            .json httpBadRequest (some (errorPage "No request body"))
          else missingHeaders
        else notFound
      else if request.method = ascii "GET" then
        if request.url = ascii "/chunk" then missingHeaders else notFound
      else if request.method = ascii "DELETE" then
        if request.url = ascii "/remove-file" then
          .json httpBadRequest (some (errorPage "Missing X-Filename "))
        else notFound
      else .json httpMethodNotAllowed (some (errorPage "Method Not Allowed"))

def savedText (request : HttpRequest) (conInfo : Option ConnectionInfo) : Bytes :=
  snprintf 200 (ascii "\x7b\"success\": true, \"chunkId\": " ++
    decimal (atoi ((request.header (ascii "X-Chunk-ID")).getD [])) ++ ascii ", \"bytes\": " ++
    digits ((conInfo.bind ConnectionInfo.data).getD []).length ++ ascii "\x7d")

def answerTo (request : HttpRequest) (conInfo : Option ConnectionInfo) (faults : Faults) :
    Reply → Answer
  | .saved true =>
      .json httpOk (if faults.next .malloc = .done then some (savedText request conInfo) else none)
  | .saved false => .json httpInternalServerError none
  | .opened none => notFound
  | .opened (some node) =>
      if faults.next .fstat = .done then
        if faults.next .malloc = .done then .file node else .no
      else .json httpInternalServerError (some (errorPage "Could not stat file"))
  | .deleted true => .json httpOk (some (ascii "\x7b\"message\":\"successfully deleted\"\x7d"))
  | .deleted false => .json httpInternalServerError (some (errorPage "404 Not Found"))

def Storage.of (process : Process StorageStateOuter) : Storage :=
  { disk := process.disk, table := process.memory }

section Calls

variable {request : HttpRequest} {filename chunkIdStr : Bytes} {storage : Storage}
  {faults : Faults}

theorem answerPost_call (url : request.url = ascii "/new-chunk")
    (name : request.header (ascii "X-Filename") = some filename)
    (text : request.header (ascii "X-Chunk-ID") = some chunkIdStr) {bytes : Bytes}
    (nonempty : bytes ≠ []) :
    (answerPost request { data := some bytes } (storage.process faults)).map
        (fun (answer, last) => (answer, Storage.of last)) =
      (step storage ⟨.save (some filename) (some bytes) (atoi chunkIdStr), faults⟩).map
        fun (reply, next) => (answerTo request (some { data := some bytes }) faults reply, next) := by
  have sized : 0 < bytes.length := List.length_pos_iff.mpr nonempty
  simp only [answerPost, answerPostWith, url, name, text, Option.getD_some, sized, if_true, step_save, bind_apply,
    handleNewChunk]
  cases saved : saveChunkToFile (some filename) (some bytes) (atoi chunkIdStr)
      (storage.process faults) with
  | none => simp
  | some ended =>
      obtain ⟨ok, last⟩ := ended
      have granted := Faults.next_of_eq (saveChunkToFile_answer nonempty saved).2
      rw [Storage.process_faults] at granted
      cases ok with
      | false => simp [pure_apply, noResponse, answerTo, Storage.of]
      | true =>
          by_cases memory : faults.next .malloc = .done
          · simp [bind_apply, allocate, granted, memory, pure_apply, answerTo, Storage.of,
              savedText, text]
          · simp [bind_apply, allocate, granted, memory, pure_apply, answerTo, Storage.of,
              noResponse]

theorem getFileDescriptor_faults {opened : Option Node} {process last : Process StorageStateOuter}
    {chunkId : Int32} (ran : getFileDescriptor filename chunkId process = some (opened, last))
    {call : Call} (other : call ≠ .openRead) : last.faults.next call = process.faults.next call := by
  simp only [getFileDescriptor, bind_apply, get_apply, Option.bind_some] at ran
  split at ran
  · rw [openRead, attempt_stat] at ran
    obtain ⟨_, rfl⟩ := Prod.mk.inj (Option.some.inj ran)
    exact Faults.next_of_eq (Faults.spend_of_ne other)
  · obtain ⟨_, rfl⟩ := Prod.mk.inj (Option.some.inj ran)
    rfl

theorem answerGet_call (url : request.url = ascii "/chunk")
    (name : request.header (ascii "X-Filename") = some filename)
    (text : request.header (ascii "X-Chunk-ID") = some chunkIdStr)
    (conInfo : Option ConnectionInfo) :
    (answerGet request (storage.process faults)).map
        (fun (answer, last) => (answer, Storage.of last)) =
      (step storage ⟨.read filename (atoi chunkIdStr), faults⟩).map
        fun (reply, next) => (answerTo request conInfo faults reply, next) := by
  simp only [answerGet, url, name, text, if_true, step, Request.serve, bind_apply]
  cases ran : getFileDescriptor filename (atoi chunkIdStr) (storage.process faults) with
  | none => simp
  | some ended =>
      obtain ⟨opened, last⟩ := ended
      have stats := @getFileDescriptor_faults _ _ _ _ _ ran .fstat (by simp)
      have granted := @getFileDescriptor_faults _ _ _ _ _ ran .malloc (by simp)
      rw [Storage.process_faults] at stats granted
      cases opened with
      | none => simp [pure_apply, answerTo, Storage.of]
      | some node =>
          have seen : (fstat : Sys StorageStateOuter Bool) last =
              some (decide (faults.next .fstat = .done), last.spend .fstat) := by
            by_cases statted : faults.next .fstat = .done
            · simp [fstat, attempt, stats, statted, bind_apply, pure_apply, Process.spend]
            · simp [fstat, attempt, stats, statted, bind_apply, pure_apply]
          have memory : (last.faults.spend .fstat).next .malloc = faults.next .malloc := by
            rw [Faults.next_of_eq (Faults.spend_of_ne (by simp)), granted]
          by_cases statted : faults.next .fstat = .done
          · by_cases created : faults.next .malloc = .done
            · simp [bind_apply, seen, statted, allocate, memory, created, pure_apply, answerTo,
                Storage.of]
            · simp [bind_apply, seen, statted, allocate, memory, created, pure_apply, answerTo,
                Storage.of]
          · simp [bind_apply, seen, statted, pure_apply, answerTo, Storage.of]

theorem answerDelete_call (url : request.url = ascii "/remove-file")
    (name : request.header (ascii "X-Filename") = some filename)
    (conInfo : Option ConnectionInfo) :
    (answerDelete request (storage.process faults)).map
        (fun (answer, last) => (answer, Storage.of last)) =
      (step storage ⟨.delete filename, faults⟩).map
        fun (reply, next) => (answerTo request conInfo faults reply, next) := by
  simp only [answerDelete, url, name, if_true, step, Request.serve, bind_apply]
  cases ran : deleteFile filename (storage.process faults) with
  | none => simp
  | some ended =>
      obtain ⟨removed, last⟩ := ended
      cases removed with
      | false => simp [pure_apply, answerTo, Storage.of]
      | true => simp [pure_apply, answerTo, Storage.of]

def answered (request : HttpRequest) (uploadData : Bytes) (conInfo : Option ConnectionInfo)
    (faults : Faults) (storage : Storage) : Option (Answer × Storage) :=
  match storeCall request uploadData conInfo with
  | none => some (answerAlone request uploadData faults conInfo, storage)
  | some call => (step storage ⟨call, faults⟩).map fun (reply, next) =>
      (answerTo request conInfo faults reply, next)

theorem ended_answer (action : Sys StorageStateOuter Answer) (info : ConnectionInfo)
    (process : Process StorageStateOuter) :
    ((do return (← action, some info) : Sys StorageStateOuter (Answer × Option ConnectionInfo))
        process).map (fun (result, last) => (result.1, Storage.of last)) =
      (action process).map fun (answer, last) => (answer, Storage.of last) := by
  rw [bind_apply]
  cases action process <;> rfl

theorem answerPost_answered (post : request.method = ascii "POST") (info : ConnectionInfo) :
    (answerPost request info (storage.process faults)).map
        (fun (answer, last) => (answer, Storage.of last)) =
      answered request [] (some info) faults storage := by
  by_cases url : request.url = ascii "/new-chunk"
  · cases name : request.header (ascii "X-Filename") with
    | none =>
        simp [answerPost, answerPostWith, answered, storeCall, answerAlone, post, url, name, pure_apply, Storage.of]
    | some filename =>
        cases text : request.header (ascii "X-Chunk-ID") with
        | none =>
            simp [answerPost, answerPostWith, answered, storeCall, answerAlone, post, url, text, pure_apply,
              Storage.of]
        | some chunkIdStr =>
            obtain ⟨data⟩ := info
            by_cases sized : 0 < (data.getD []).length
            · obtain ⟨bytes, rfl⟩ : ∃ bytes, data = some bytes := by
                cases data with
                | none => simp at sized
                | some bytes => exact ⟨bytes, rfl⟩
              have nonempty : bytes ≠ [] := List.length_pos_iff.mp sized
              rw [answerPost_call url name text nonempty]
              simp [answered, storeCall, post, url, name, text, List.length_pos_iff.mpr nonempty]
            · simp [answerPost, answerPostWith, answered, storeCall, answerAlone, post, url, name, text, sized,
                pure_apply, Storage.of]
  · simp [answerPost, answerPostWith, answered, storeCall, answerAlone, post, url, pure_apply, Storage.of]

theorem answerGet_answered (get : request.method = ascii "GET") (uploadData : Bytes)
    (info : ConnectionInfo) :
    (answerGet request (storage.process faults)).map
        (fun (answer, last) => (answer, Storage.of last)) =
      answered request uploadData (some info) faults storage := by
  have other : ascii "GET" ≠ ascii "POST" := by decide
  by_cases url : request.url = ascii "/chunk"
  · cases name : request.header (ascii "X-Filename") with
    | none =>
        simp [answerGet, answered, storeCall, answerAlone, get, other, url, name, pure_apply,
          Storage.of]
    | some filename =>
        cases text : request.header (ascii "X-Chunk-ID") with
        | none =>
            simp [answerGet, answered, storeCall, answerAlone, get, other, url, text, pure_apply,
              Storage.of]
        | some chunkIdStr =>
            rw [answerGet_call url name text (some info)]
            simp [answered, storeCall, get, other, url, name, text]
  · simp [answerGet, answered, storeCall, answerAlone, get, other, url, pure_apply, Storage.of]

theorem answerDelete_answered (delete : request.method = ascii "DELETE") (uploadData : Bytes)
    (info : ConnectionInfo) :
    (answerDelete request (storage.process faults)).map
        (fun (answer, last) => (answer, Storage.of last)) =
      answered request uploadData (some info) faults storage := by
  have notPost : ascii "DELETE" ≠ ascii "POST" := by decide
  have notGet : ascii "DELETE" ≠ ascii "GET" := by decide
  by_cases url : request.url = ascii "/remove-file"
  · cases name : request.header (ascii "X-Filename") with
    | none =>
        simp [answerDelete, answered, storeCall, answerAlone, delete, notPost, notGet, url, name,
          pure_apply, Storage.of]
    | some filename =>
        rw [answerDelete_call url name (some info)]
        simp [answered, storeCall, delete, notPost, notGet, url, name]
  · simp [answerDelete, answered, storeCall, answerAlone, delete, notPost, notGet, url, pure_apply,
      Storage.of]

theorem answerToConnection_answered (request : HttpRequest) (uploadData : Bytes)
    (conInfo : Option ConnectionInfo) (faults : Faults) (storage : Storage) :
    (answerToConnection request uploadData conInfo (storage.process faults)).map
        (fun (result, last) => (result.1, Storage.of last)) =
      answered request uploadData conInfo faults storage := by
  cases conInfo with
  | none =>
      by_cases granted : faults.next .malloc = .done
      · simp [answerToConnection, answerToConnectionWith, answered, storeCall, answerAlone, bind_apply, allocate, granted,
          pure_apply, Storage.of]
      · simp [answerToConnection, answerToConnectionWith, answered, storeCall, answerAlone, bind_apply, allocate, granted,
          pure_apply, Storage.of]
  | some info =>
      rw [answerToConnection, answerToConnectionWith]
      by_cases post : request.method = ascii "POST"
      · by_cases last : uploadData = []
        · subst last
          simp only [post, ne_eq, not_true_eq_false, and_false, if_false, if_true]
          rw [ended_answer, answerPost_answered post]
        · by_cases grown : faults.next .realloc = .done
          · simp [answered, storeCall, answerAlone, post, last, bind_apply, allocate, grown,
              pure_apply, Storage.of]
          · simp [answered, storeCall, answerAlone, post, last, bind_apply, allocate, grown,
              pure_apply, Storage.of]
      · rw [if_neg fun both => post both.1, if_neg post]
        by_cases get : request.method = ascii "GET"
        · rw [if_pos get, ended_answer, answerGet_answered get]
        · rw [if_neg get]
          by_cases delete : request.method = ascii "DELETE"
          · rw [if_pos delete, ended_answer, answerDelete_answered delete]
          · simp [answered, storeCall, answerAlone, post, get, delete, pure_apply, Storage.of]

theorem exchange_bodyless (request : HttpRequest) (storage : Storage) :
    exchange request storage [] =
      answered request [] (some { data := none }) (fun _ => []) storage := by
  rw [exchange, callBacks, callBack_first, ← answerToConnection_answered]
  simp only [callBacks, callBack, Option.map_map]
  rfl

def removeFileRequest (filename : Bytes) : HttpRequest where
  url := ascii "/remove-file"
  method := ascii "DELETE"
  header := fun name => if name = ascii "X-Filename" then some filename else none

theorem exchange_removeFile {storage next : Storage} {removed : Bool}
    (stepped : step storage ⟨.delete filename, fun _ => []⟩ = some (.deleted removed, next)) :
    exchange (removeFileRequest filename) storage [] =
      some (if removed then .json httpOk (some (ascii "\x7b\"message\":\"successfully deleted\"\x7d"))
        else .json httpInternalServerError (some (errorPage "404 Not Found")), next) := by
  have call : storeCall (removeFileRequest filename) [] (some { data := none }) =
      some (.delete filename) := rfl
  rw [exchange_bodyless, answered, call]
  simp only [stepped, Option.map_some]
  cases removed <;> rfl

end Calls

section Pages

variable {request : HttpRequest} {uploadData : Bytes} {conInfo : Option ConnectionInfo}
  {faults : Faults}

theorem answerAlone_pageSet (request : HttpRequest) (uploadData : Bytes) (faults : Faults)
    (conInfo : Option ConnectionInfo) :
    (answerAlone request uploadData faults conInfo).pageSet = true := by
  unfold answerAlone
  repeat' split
  all_goals rfl

theorem storeCall_save {filename data : Option Bytes} {chunkId : Int32}
    (made : storeCall request uploadData conInfo = some (.save filename data chunkId)) :
    ∃ name bytes, filename = some name ∧ data = some bytes ∧ bytes ≠ [] := by
  cases conInfo with
  | none => contradiction
  | some info =>
      simp only [storeCall] at made
      split at made
      · split at made
        · split at made
          · rename_i name text found _
            obtain ⟨sized, same⟩ := Option.ite_none_right_eq_some.mp made
            obtain ⟨rfl, rfl, _⟩ := Request.save.inj (Option.some.inj same)
            cases kept : info.data with
            | none => simp [kept] at sized
            | some bytes =>
                simp only [kept, Option.getD_some] at sized
                exact ⟨name, bytes, rfl, rfl, List.length_pos_iff.mp sized⟩
          · contradiction
        · contradiction
      · split at made
        · split at made
          · split at made
            · cases made
            · contradiction
          · contradiction
        · split at made
          · split at made
            · obtain ⟨_, _, other⟩ := Option.map_eq_some_iff.mp made
              contradiction
            · contradiction
          · contradiction

/-- What the ideal store replies to a call of the daemon leads to an answer with a page, unless
there is no memory for the text that answers a save. -/
theorem answerTo_pageSet {call : Request} {held after : Chunks} {reply : Reply}
    (made : storeCall request uploadData conInfo = some call)
    (kept : keepFirst held ⟨call, faults⟩ = some (reply, after))
    (granted : ∀ filename data chunkId, call = .save filename data chunkId →
      faults.next .malloc = .done) :
    (answerTo request conInfo faults reply).pageSet = true := by
  cases call with
  | save filename data chunkId =>
      obtain ⟨name, bytes, rfl, rfl, nonempty⟩ := storeCall_save made
      simp only [keepFirst, nonempty, if_false, Option.some.injEq, Prod.mk.injEq] at kept
      obtain ⟨rfl, _⟩ := kept
      simp [answerTo, granted _ _ _ rfl, Answer.pageSet]
  | read filename chunkId =>
      obtain ⟨rfl, _⟩ := Prod.mk.inj (Option.some.inj kept)
      cases held filename chunkId with
      | none => rfl
      | some bytes =>
          simp only [answerTo, Option.map_some]
          repeat' split
          all_goals rfl
  | delete filename =>
      obtain ⟨removed, rfl⟩ : ∃ removed, reply = .deleted removed :=
        ⟨_, (Prod.mk.inj (Option.some.inj kept)).1.symm⟩
      cases removed <;> rfl

end Pages

section Daemon

variable {RequestId : Type*} [DecidableEq RequestId] (requests : RequestId → HttpRequest)

def callOf (conCls : RequestId → Option ConnectionInfo) (event : HttpEvent RequestId) :
    Option Action :=
  match event.happening with
  | .completed => none
  | .callback uploadData faults =>
      (storeCall (requests event.id) uploadData (conCls event.id)).map fun call => ⟨call, faults⟩

def infoAfter (conCls : RequestId → Option ConnectionInfo) (event : HttpEvent RequestId) :
    RequestId → Option ConnectionInfo :=
  Function.update conCls event.id (nextInfo (requests event.id) (conCls event.id) event.happening)

/-- The calls of the store in the order of the events that make them. -/
def calls : (RequestId → Option ConnectionInfo) → List (HttpEvent RequestId) → List Action
  | _, [] => []
  | conCls, event :: rest =>
      (callOf requests conCls event).toList ++ calls (infoAfter requests conCls event) rest

def shown (conCls : RequestId → Option ConnectionInfo) (event : HttpEvent RequestId)
    (returned : Option Reply) : Option Answer :=
  match event.happening with
  | .completed => none
  | .callback uploadData faults => some <| match returned with
      | none => answerAlone (requests event.id) uploadData faults (conCls event.id)
      | some reply => answerTo (requests event.id) (conCls event.id) faults reply

def answers : (RequestId → Option ConnectionInfo) → List (HttpEvent RequestId) → List Reply →
    List (HttpEvent RequestId × Option Answer)
  | _, [], _ => []
  | conCls, event :: rest, replies =>
      if (callOf requests conCls event).isSome then
        (event, shown requests conCls event replies.head?) ::
          answers (infoAfter requests conCls event) rest replies.tail
      else
        (event, shown requests conCls event none) ::
          answers (infoAfter requests conCls event) rest replies

/-- One event of the daemon up to `MHD_queue_response`: `strlen(page)` needs a page. -/
def respond (server : HttpServer RequestId) (event : HttpEvent RequestId) :
    Option ((Option Answer × List NewChunk) × HttpServer RequestId) :=
  (happen handleNewChunk requests server event).filter fun ((answer, _), _) =>
    answer.all Answer.pageSet

variable {requests}

theorem happen_call (server : HttpServer RequestId) (event : HttpEvent RequestId) :
    (happen handleNewChunk requests server event).map
        (fun (output, next) => (output.1, next)) =
      match callOf requests server.conCls event with
      | none => some (shown requests server.conCls event none,
          ⟨server.storage, infoAfter requests server.conCls event⟩)
      | some action => (step server.storage action).map fun (reply, next) =>
          (shown requests server.conCls event (some reply),
            ⟨next, infoAfter requests server.conCls event⟩) := by
  obtain ⟨id, happening⟩ := event
  cases happening with
  | completed => rfl
  | callback uploadData faults =>
      have own := answerToConnection_answered (requests id) uploadData (server.conCls id) faults
        server.storage
      simp only [happen, recordedAnswer_handleNewChunk, callOf, shown]
      rw [answered] at own
      cases ran : answerToConnection (requests id) uploadData (server.conCls id)
          (server.storage.process faults) with
      | none =>
          rw [ran] at own
          cases made : storeCall (requests id) uploadData (server.conCls id) with
          | none => simp [made] at own
          | some call =>
              cases stepped : step server.storage ⟨call, faults⟩ with
              | none => simp [stepped]
              | some result => simp [made, stepped] at own
      | some ended =>
          obtain ⟨⟨answer, kept⟩, last⟩ := ended
          obtain rfl := @answerToConnectionWith_info handleNewChunk _ _ _ _ _ _ _ ran
          rw [ran] at own
          cases made : storeCall (requests id) uploadData (server.conCls id) with
          | none =>
              simp only [made, Option.map_some, Option.some.injEq, Prod.mk.injEq] at own
              obtain ⟨rfl, kept⟩ := own
              rw [← kept]
              rfl
          | some call =>
              cases stepped : step server.storage ⟨call, faults⟩ with
              | none => simp [made, stepped] at own
              | some result =>
                  obtain ⟨reply, next⟩ := result
                  simp only [made, stepped, Option.map_some, Option.some.injEq,
                    Prod.mk.injEq] at own
                  obtain ⟨rfl, rfl⟩ := own
                  simp only [Option.map_some, stepped]
                  rfl

/-- A run of the server is a run of the store over the calls that its callbacks make. -/
theorem run_happen (server : HttpServer RequestId) (events : List (HttpEvent RequestId)) :
    (run (happen handleNewChunk requests) server events).map
        (fun (trace, final) => (trace.map fun (event, output) => (event, output.1), final.storage)) =
      (run step server.storage (calls requests server.conCls events)).map fun (replies, last) =>
        (answers requests server.conCls events (replies.map Prod.snd), last) := by
  induction events generalizing server with
  | nil => rfl
  | cons event rest ih =>
      refine (run_cons_seen _ Prod.fst HttpServer.storage server event rest).trans ?_
      rw [happen_call, calls]
      cases made : callOf requests server.conCls event with
      | none =>
          simp only [Option.bind_some, Option.toList_none, List.nil_append]
          rw [ih, Option.map_map]
          simp [Function.comp_def, answers, made]
      | some action =>
          simp only [Option.toList_some, List.singleton_append, run_cons_eq]
          cases step server.storage action with
          | none => rfl
          | some result =>
              simp only [Option.map_some, Option.bind_some]
              rw [ih, Option.map_map, Option.map_map]
              simp [Function.comp_def, answers, made]

/-- A run in which every answer has its page is a run of the store with such answers. -/
theorem run_respond (server : HttpServer RequestId) (events : List (HttpEvent RequestId)) :
    (run (respond requests) server events).map
        (fun (trace, final) => (trace.map fun (event, output) => (event, output.1), final.storage)) =
      ((run step server.storage (calls requests server.conCls events)).map
        fun (replies, last) =>
          (answers requests server.conCls events (replies.map Prod.snd), last)).filter
        fun (shown, _) => shown.all fun entry => entry.2.all Answer.pageSet := by
  have checked := run_filter (happen handleNewChunk requests)
    (fun output : Option Answer × List NewChunk => output.1.all Answer.pageSet) server events
  rw [← run_happen, Option.filter_map]
  refine (congrArg (Option.map _) checked).trans ?_
  simp only [Function.comp_def, List.all_map]

theorem answers_pageSet {conCls : RequestId → Option ConnectionInfo} {held last : Chunks}
    {events : List (HttpEvent RequestId)} {replies : List (Action × Reply)}
    (kept : run keepFirst held (calls requests conCls events) = some (replies, last))
    (granted : ∀ filename data chunkId faults,
      ⟨.save filename data chunkId, faults⟩ ∈ calls requests conCls events →
        faults.next .malloc = .done) :
    ((answers requests conCls events (replies.map Prod.snd)).all fun entry =>
      entry.2.all Answer.pageSet) = true := by
  induction events generalizing conCls held replies with
  | nil => rfl
  | cons event rest ih =>
      rw [calls] at kept granted
      rw [answers]
      cases made : callOf requests conCls event with
      | none =>
          simp only [made, Option.toList_none, List.nil_append] at kept granted
          simp only [Option.isSome_none, Bool.false_eq_true, if_false, List.all_cons,
            Bool.and_eq_true]
          refine ⟨?_, ih kept granted⟩
          unfold shown
          split
          · rfl
          · exact answerAlone_pageSet _ _ _ _
      | some action =>
          simp only [made, Option.toList_some, List.singleton_append] at kept granted
          obtain ⟨reply, after, tail, replied, finished, rfl⟩ := run_cons kept
          simp only [Option.isSome_some, if_true, List.map_cons, List.head?_cons, List.tail_cons,
            List.all_cons, Bool.and_eq_true]
          refine ⟨?_, ih finished fun filename data chunkId faults member =>
            granted filename data chunkId faults (List.mem_cons_of_mem _ member)⟩
          unfold shown
          unfold callOf at made
          split at made
          · contradiction
          · rename_i uploadData faults _
            obtain ⟨call, calling, rfl⟩ := Option.map_eq_some_iff.mp made
            refine answerTo_pageSet calling replied ?_
            rintro filename data chunkId rfl
            exact granted filename data chunkId faults List.mem_cons_self

end Daemon

/-- However the callbacks of the requests interleave and whatever fails in them: the daemon does
what the store does with one call for each callback that ends a request, in their order, and
every answer is the one for what the store returned. It stops being defined where the store does
and at the first answer without a page. -/
theorem requests_serialized {RequestId : Type*} [DecidableEq RequestId]
    (requests : RequestId → HttpRequest) (storage : Storage)
    (events : List (HttpEvent RequestId)) :
    (run (respond requests) (HttpServer.start storage) events).map
        (fun (trace, final) => (trace.map fun (event, output) => (event, output.1), final.storage)) =
      ((run step storage (calls requests (fun _ => none) events)).map fun (replies, last) =>
        (answers requests (fun _ => none) events (replies.map Prod.snd), last)).filter
        fun (shown, _) => shown.all fun entry => entry.2.all Answer.pageSet :=
  run_respond (HttpServer.start storage) events

/-- As long as every new chunk extends the entry of its own file, clients cannot tell the node
from a store that keeps what first came under a chunk id until the file is removed. -/
theorem kept_first {RequestId : Type*} [DecidableEq RequestId]
    (requests : RequestId → HttpRequest) (storage : Storage) (fresh : storage.Fresh)
    (events : List (HttpEvent RequestId))
    (permitted : ∀ action ∈ calls requests (fun _ => none) events, action.Permitted)
    (granted : ∀ filename data chunkId faults,
      ⟨.save filename data chunkId, faults⟩ ∈ calls requests (fun _ => none) events →
        faults.next .malloc = .done)
    (own : Guarded step ExtendsOwnEntry storage (calls requests (fun _ => none) events)) :
    ∃ trace final replies held,
      run (respond requests) (HttpServer.start storage) events = some (trace, final) ∧
      run keepFirst (fun _ _ => none) (calls requests (fun _ => none) events) =
        some (replies, held) ∧
      (trace.map fun (event, output) => (event, output.1)) =
        answers requests (fun _ => none) events (replies.map Prod.snd) ∧
      stored final.storage.disk = held := by
  obtain ⟨replies, last, held, ran, kept, keeps⟩ := fresh.keeps.run permitted own
  have serial := @run_respond _ _ requests (HttpServer.start storage) events
  simp only [HttpServer.start, ran, Option.map_some] at serial
  rw [Option.filter_some, if_pos (answers_pageSet kept granted)] at serial
  obtain ⟨⟨trace, final⟩, happened, same⟩ := Option.map_eq_some_iff.mp serial
  obtain ⟨shows, rfl⟩ := Prod.mk.inj same
  exact ⟨trace, final, replies, held, happened, kept, shows, keeps.held⟩

def postedAndFetched : List (HttpEvent Bool) := [
  ⟨true, .callback [] fun _ => []⟩,
  ⟨true, .callback (ascii "ab") fun _ => []⟩,
  ⟨false, .callback [] fun _ => []⟩,
  ⟨true, .callback (ascii "c") fun _ => []⟩,
  ⟨true, .callback [] fun _ => []⟩,
  ⟨false, .callback [] fun _ => []⟩]

def postAndFetch (id : Bool) : HttpRequest :=
  if id then newChunkRequest (ascii "f") (ascii "0") else chunkRequest (ascii "f") (ascii "0")

theorem postedAndFetched_calls : calls postAndFetch (fun _ => none) postedAndFetched = [
    ⟨.save (some (ascii "f")) (some (ascii "abc")) 0, fun _ => []⟩,
    ⟨.read (ascii "f") 0, fun _ => []⟩] := by
  rfl

theorem kept_first_postedAndFetched : ∃ trace final,
    run (respond postAndFetch) (HttpServer.start emptyStorage) postedAndFetched =
      some (trace, final) ∧
    (trace.map fun (_, output) => output.1).getLast? =
      some (some (.file (.file (ascii "abc")))) := by
  have valid : ∀ filename, some (ascii "f") = some filename → ValidName filename := by
    rintro filename same
    exact Option.some.inj same ▸ (by decide : ValidName (ascii "f"))
  obtain ⟨trace, final, replies, held, ran, kept, shows, _⟩ := kept_first postAndFetch emptyStorage
    emptyStorage_fresh postedAndFetched (by
      intro action member
      simp only [postedAndFetched_calls, List.mem_cons, List.not_mem_nil, or_false] at member
      rcases member with rfl | rfl
      · exact ⟨valid, fileSystemClean_nothing⟩
      · exact ⟨valid, fileSystemClean_nothing⟩) (by
      intro filename data chunkId faults member
      simp only [postedAndFetched_calls, List.mem_cons, List.not_mem_nil, or_false, Action.mk.injEq,
        reduceCtorEq, false_and, Request.save.injEq] at member
      rw [member.2]
      rfl) (by
      rw [postedAndFetched_calls]
      refine ⟨fun _ _ => ⟨rfl, ?_⟩, fun _ _ _ => ⟨trivial, fun _ _ _ => trivial⟩⟩
      rintro ⟨other, present⟩
      simp [emptyStorage_fresh.stored_eq_none] at present)
  refine ⟨trace, final, ran, ?_⟩
  have answered := congrArg (fun entries => (entries.map Prod.snd).getLast?) shows
  simp only [List.map_map] at answered
  refine Eq.trans answered ?_
  rw [postedAndFetched_calls] at kept
  have returned : replies.map Prod.snd =
      [.saved true, .opened (some (.file (ascii "abc")))] := by
    simp [run, keepFirst, PutOnce.put, ascii] at kept
    rw [← kept.1]
    rfl
  rw [returned]
  rfl

end DistributedFileSystem.StorageLayer
