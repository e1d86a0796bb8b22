import DistributedFileSystem.Library.Interleaving
import DistributedFileSystem.StorageLayer.HttpRun

/-!
The callbacks of many requests to the HTTP server of a storage node, in any order, and
the calls of `handleNewChunk` that they make.
-/

namespace DistributedFileSystem.StorageLayer

open ByteString Posix Transition

structure NewChunk where
  conInfo : ConnectionInfo
  filename : Bytes
  chunkId : Int32
  deriving DecidableEq, Repr

section Record

abbrev Recorded := StateT (List NewChunk) (Sys StorageStateOuter)

def unrecorded {α : Type} (action : Sys StorageStateOuter α) : Recorded α := StateT.lift action

variable (handle : ConnectionInfo → Response → Bytes → Int32 →
  Sys StorageStateOuter (Bool × Response))

def recorded (conInfo : ConnectionInfo) (response : Response) (filename : Bytes)
    (chunkId : Int32) : Recorded (Bool × Response) := do
  modify fun calls => calls ++ [⟨conInfo, filename, chunkId⟩]
  unrecorded (handle conInfo response filename chunkId)

def recordedAnswer (request : HttpRequest) (uploadData : Bytes)
    (conInfo : Option ConnectionInfo) : Recorded (Answer × Option ConnectionInfo) :=
  answerToConnectionWith (fun call => unrecorded (allocate call))
    (answerPostWith (recorded handle)) (fun request => unrecorded (answerGet request))
    (fun request => unrecorded (answerDelete request)) request uploadData conInfo

def newChunkCall (request : HttpRequest) (uploadData : Bytes) :
    Option ConnectionInfo → Option NewChunk
  | none => none
  | some info =>
      if request.method = ascii "POST" ∧ uploadData = [] ∧ request.url = ascii "/new-chunk" then
        match request.header (ascii "X-Filename"), request.header (ascii "X-Chunk-ID") with
        | some filename, some chunkIdStr =>
            if 0 < (info.data.getD []).length then some ⟨info, filename, atoi chunkIdStr⟩ else none
        | _, _ => none
      else none

variable {handle}

theorem unrecorded_apply {α : Type} (action : Sys StorageStateOuter α) (calls : List NewChunk)
    (process : Process StorageStateOuter) :
    unrecorded action calls process =
      (action process).map fun (value, next) => ((value, calls), next) := by
  change (action process).bind (fun result => some ((result.1, calls), result.2)) = _
  cases action process <;> rfl

theorem recorded_bind_apply {α β : Type} (first : Recorded α) (rest : α → Recorded β)
    (calls : List NewChunk) (process : Process StorageStateOuter) :
    (first >>= rest) calls process =
      (first calls process).bind fun ((value, calls), next) => rest value calls next := rfl

theorem recorded_pure_apply {α : Type} (value : α) (calls : List NewChunk)
    (process : Process StorageStateOuter) :
    (pure value : Recorded α) calls process = some ((value, calls), process) := rfl

theorem unrecorded_then {α β : Type} (action : Sys StorageStateOuter α)
    {rest : α → Recorded β} {plain : α → Sys StorageStateOuter β} {calls final : List NewChunk}
    (same : ∀ value next, rest value calls next =
      (plain value next).map fun (answered, last) => ((answered, final), last))
    (process : Process StorageStateOuter) :
    (unrecorded action >>= rest) calls process =
      ((action >>= plain) process).map fun (answered, last) => ((answered, final), last) := by
  rw [recorded_bind_apply, unrecorded_apply, bind_apply]
  cases action process with
  | none => rfl
  | some result =>
      obtain ⟨value, next⟩ := result
      exact same value next

theorem recorded_then {β : Type} (rest : Bool × Response → Recorded β) (conInfo : ConnectionInfo)
    (response : Response) (filename : Bytes) (chunkId : Int32) (calls : List NewChunk)
    (process : Process StorageStateOuter) :
    (recorded handle conInfo response filename chunkId >>= rest) calls process =
      (unrecorded (handle conInfo response filename chunkId) >>= rest)
        (calls ++ [⟨conInfo, filename, chunkId⟩]) process := rfl

theorem answerPostWith_recorded {request : HttpRequest} (post : request.method = ascii "POST")
    (info : ConnectionInfo) (calls : List NewChunk) (process : Process StorageStateOuter) :
    answerPostWith (recorded handle) request info calls process =
      (answerPostWith handle request info process).map fun (answer, next) =>
        ((answer, calls ++ (newChunkCall request [] (some info)).toList), next) := by
  by_cases chunkUrl : request.url = ascii "/new-chunk"
  · cases name : request.header (ascii "X-Filename") with
    | none => simp [answerPostWith, newChunkCall, chunkUrl, name, recorded_pure_apply, pure_apply]
    | some filename =>
        cases text : request.header (ascii "X-Chunk-ID") with
        | none =>
            simp [answerPostWith, newChunkCall, chunkUrl, text, recorded_pure_apply, pure_apply]
        | some chunkIdStr =>
            by_cases body : 0 < (info.data.getD []).length
            · simp only [answerPostWith, newChunkCall, post, chunkUrl, name, text, body, and_self,
                if_true, Option.toList_some]
              rw [recorded_then]
              refine unrecorded_then (handle info noResponse filename (atoi chunkIdStr)) ?_ process
              rintro ⟨ok, response⟩ next
              rfl
            · simp [answerPostWith, newChunkCall, chunkUrl, name, text, body, recorded_pure_apply,
                pure_apply]
  · simp [answerPostWith, newChunkCall, chunkUrl, recorded_pure_apply, pure_apply]

theorem newChunkCall_of_not_post {request : HttpRequest} {uploadData : Bytes}
    (other : ¬(request.method = ascii "POST" ∧ uploadData = [])) (info : ConnectionInfo) :
    newChunkCall request uploadData (some info) = none := by
  rw [newChunkCall, if_neg]
  rintro ⟨post, last, _⟩
  exact other ⟨post, last⟩

theorem recordedAnswer_eq (request : HttpRequest) (uploadData : Bytes)
    (conInfo : Option ConnectionInfo) (calls : List NewChunk)
    (process : Process StorageStateOuter) :
    recordedAnswer handle request uploadData conInfo calls process =
      (answerToConnectionWith allocate (answerPostWith handle) answerGet answerDelete request
        uploadData conInfo process).map fun (answered, next) =>
          ((answered, calls ++ (newChunkCall request uploadData conInfo).toList), next) := by
  unfold recordedAnswer answerToConnectionWith
  cases conInfo with
  | none =>
      refine unrecorded_then (allocate .malloc) ?_ process
      intro granted next
      cases granted <;> simp [newChunkCall, recorded_pure_apply, pure_apply]
  | some info =>
      by_cases post : request.method = ascii "POST"
      · by_cases last : uploadData = []
        · subst last
          simp only [post, ne_eq, not_true_eq_false, and_false, if_false, if_true]
          rw [recorded_bind_apply, answerPostWith_recorded post, bind_apply]
          cases answerPostWith handle request info process with
          | none => rfl
          | some result => rfl
        · rw [newChunkCall_of_not_post (fun both => last both.2)]
          simp only [post, last, ne_eq, not_false_eq_true, and_self, if_true]
          refine unrecorded_then (allocate .realloc) ?_ process
          intro granted next
          cases granted <;> simp [recorded_pure_apply, pure_apply]
      · rw [newChunkCall_of_not_post (fun both => post both.1)]
        simp only [post, false_and, if_false, Option.toList_none, List.append_nil]
        split
        · exact unrecorded_then (answerGet request) (fun answer next => rfl) process
        · split
          · exact unrecorded_then (answerDelete request) (fun answer next => rfl) process
          · rfl

theorem recordedAnswer_handleNewChunk (request : HttpRequest) (uploadData : Bytes)
    (conInfo : Option ConnectionInfo) (calls : List NewChunk)
    (process : Process StorageStateOuter) :
    recordedAnswer handleNewChunk request uploadData conInfo calls process =
      (answerToConnection request uploadData conInfo process).map fun (answered, next) =>
        ((answered, calls ++ (newChunkCall request uploadData conInfo).toList), next) :=
  recordedAnswer_eq request uploadData conInfo calls process

end Record

section Returns

theorem getFileDescriptor_returns (filename : Bytes) (chunkId : Int32) :
    Returns (getFileDescriptor filename chunkId) := by
  refine @Returns.quiet _ _ .malloc _ (Quiet.get_bind fun process => ?_)
  split
  · exact Quiet.attempt _ (by simp)
  · exact Quiet.pure _

theorem deleteFile_returns (filename : Bytes) : Returns (deleteFile filename) := by
  intro process
  obtain ⟨result, last, ran, _⟩ :=
    removeDirectory_quiet descriptorLimit (directoryPath filename) process
  rw [deleteFile_of_removed ran]
  rfl

theorem answerGet_returns (request : HttpRequest) : Returns (answerGet request) := by
  unfold answerGet
  split
  · split
    · refine (getFileDescriptor_returns _ _).bind fun opened => ?_
      split
      · exact Returns.pure _
      · refine Returns.bind (@Returns.quiet _ _ .malloc _
          ((Quiet.attempt _ (by simp)).bind fun _ => Quiet.pure _)) fun statted => ?_
        split
        · exact Returns.pure _
        · refine (Returns.allocate .malloc).bind fun created => ?_
          split
          · exact Returns.pure _
          · exact Returns.pure _
    · exact Returns.pure _
  · exact Returns.pure _

theorem answerDelete_returns (request : HttpRequest) : Returns (answerDelete request) := by
  unfold answerDelete
  split
  · split
    · exact Returns.pure _
    · refine (deleteFile_returns _).bind fun removed => ?_
      split
      · exact Returns.pure _
      · exact Returns.pure _
  · exact Returns.pure _

variable {handle : ConnectionInfo → Response → Bytes → Int32 →
  Sys StorageStateOuter (Bool × Response)}

theorem answerPostWith_returns (returns : ∀ conInfo response filename chunkId,
      Returns (handle conInfo response filename chunkId))
    (request : HttpRequest) (conInfo : ConnectionInfo) :
    Returns (answerPostWith handle request conInfo) := by
  unfold answerPostWith
  split
  · split
    · split
      · exact (returns _ _ _ _).bind fun _ => Returns.pure _
      · exact Returns.pure _
    · exact Returns.pure _
  · exact Returns.pure _

theorem answerToConnectionWith_returns (returns : ∀ conInfo response filename chunkId,
      Returns (handle conInfo response filename chunkId))
    (request : HttpRequest) (uploadData : Bytes) (conInfo : Option ConnectionInfo) :
    Returns (answerToConnectionWith allocate (answerPostWith handle) answerGet answerDelete request
      uploadData conInfo) := by
  unfold answerToConnectionWith
  split
  · refine (Returns.allocate .malloc).bind fun granted => ?_
    split
    · exact Returns.pure _
    · exact Returns.pure _
  · split
    · refine (Returns.allocate .realloc).bind fun granted => ?_
      split
      · exact Returns.pure _
      · exact Returns.pure _
    · split
      · exact (answerPostWith_returns returns request _).bind fun _ => Returns.pure _
      · split
        · exact (answerGet_returns request).bind fun _ => Returns.pure _
        · split
          · exact (answerDelete_returns request).bind fun _ => Returns.pure _
          · exact Returns.pure _

end Returns

inductive Happening where
  | callback (uploadData : Bytes) (faults : Faults)
  | completed

structure HttpEvent (RequestId : Type*) where
  id : RequestId
  happening : Happening

structure HttpServer (RequestId : Type*) where
  storage : Storage
  conCls : RequestId → Option ConnectionInfo

def HttpServer.start {RequestId : Type*} (storage : Storage) : HttpServer RequestId :=
  { storage := storage, conCls := fun _ => none }

section Daemon

variable {RequestId : Type*} [DecidableEq RequestId]
  (handle : ConnectionInfo → Response → Bytes → Int32 → Sys StorageStateOuter (Bool × Response))
  (requests : RequestId → HttpRequest)

def happen (server : HttpServer RequestId) (event : HttpEvent RequestId) :
    Option ((Option Answer × List NewChunk) × HttpServer RequestId) :=
  match event.happening with
  | .callback uploadData faults =>
      (recordedAnswer handle (requests event.id) uploadData (server.conCls event.id) []
        (server.storage.process faults)).map fun (((answer, conInfo), calls), process) =>
          ((some answer, calls),
            { storage := { disk := process.disk, table := process.memory }
              conCls := Function.update server.conCls event.id conInfo })
  | .completed =>
      some ((none, []), { server with conCls := Function.update server.conCls event.id none })

def nextInfo (request : HttpRequest) (conInfo : Option ConnectionInfo) :
    Happening → Option ConnectionInfo
  | .completed => none
  | .callback uploadData faults =>
      match conInfo with
      | none => if faults.next .malloc = .done then some { data := none } else none
      | some info =>
          if request.method = ascii "POST" ∧ uploadData ≠ [] then
            if faults.next .realloc = .done then
              some { data := some (info.data.getD [] ++ uploadData) }
            else none
          else some info

def callsAt (request : HttpRequest) (conInfo : Option ConnectionInfo) : Happening → List NewChunk
  | .completed => []
  | .callback uploadData _ => (newChunkCall request uploadData conInfo).toList

variable {handle}

theorem allocated_info {call : Call} {granted refused : Answer × Option ConnectionInfo}
    {kept : Option ConnectionInfo} {answer : Answer} {process next : Process StorageStateOuter}
    (answered : (do
        if ← allocate call then
          return granted
        else
          return refused : Sys StorageStateOuter (Answer × Option ConnectionInfo)) process =
      some ((answer, kept), next)) :
    kept = if process.faults.next call = .done then granted.2 else refused.2 := by
  rw [bind_apply, allocate, Option.bind_some] at answered
  split
  · rename_i permitted
    simp only [permitted, decide_true, if_true, pure_apply, Option.some.injEq,
      Prod.mk.injEq] at answered
    rw [answered.1]
  · rename_i denied
    simp only [denied, decide_false, Bool.false_eq_true, if_false, pure_apply, Option.some.injEq,
      Prod.mk.injEq] at answered
    rw [answered.1]

theorem answerToConnectionWith_info {request : HttpRequest} {uploadData : Bytes}
    {conInfo kept : Option ConnectionInfo} {answer : Answer}
    {process next : Process StorageStateOuter}
    (answered : answerToConnectionWith allocate (answerPostWith handle) answerGet answerDelete
      request uploadData conInfo process = some ((answer, kept), next)) :
    kept = nextInfo request conInfo (.callback uploadData process.faults) := by
  cases conInfo with
  | none =>
      rw [answerToConnectionWith] at answered
      exact allocated_info answered
  | some info =>
      rw [answerToConnectionWith] at answered
      rw [nextInfo]
      by_cases fragment : request.method = ascii "POST" ∧ uploadData ≠ []
      · rw [if_pos fragment] at answered
        rw [if_pos fragment]
        exact allocated_info answered
      · rw [if_neg fragment] at answered
        rw [if_neg fragment]
        refine (show Ends _ fun result : Answer × Option ConnectionInfo => result.2 = some info
          from ?_) _ _ _ answered
        split
        · exact Ends.bind fun _ => Ends.pure rfl
        · split
          · exact Ends.bind fun _ => Ends.pure rfl
          · split
            · exact Ends.bind fun _ => Ends.pure rfl
            · exact Ends.pure rfl

theorem happen_separate : Separate (happen handle requests) HttpEvent.id HttpServer.conCls
    (fun mine event => nextInfo (requests event.id) mine event.happening) Prod.snd
    (fun mine event => callsAt (requests event.id) mine event.happening) := by
  have cases : ∀ {server next : HttpServer RequestId} {event : HttpEvent RequestId}
      {output : Option Answer × List NewChunk},
      happen handle requests server event = some (output, next) →
      next.conCls = Function.update server.conCls event.id
        (nextInfo (requests event.id) (server.conCls event.id) event.happening) ∧
      output.2 = callsAt (requests event.id) (server.conCls event.id) event.happening := by
    rintro server next ⟨id, happening⟩ output happened
    cases happening with
    | completed =>
        obtain ⟨rfl, rfl⟩ := Prod.mk.inj (Option.some.inj happened)
        exact ⟨rfl, rfl⟩
    | callback uploadData faults =>
        rw [happen] at happened
        simp only [recordedAnswer_eq, Option.map_map, Option.map_eq_some_iff] at happened
        obtain ⟨⟨⟨answer, kept⟩, process⟩, answered, same⟩ := happened
        obtain ⟨rfl, rfl⟩ := Prod.mk.inj same
        rw [answerToConnectionWith_info answered]
        exact ⟨rfl, rfl⟩
  constructor
  · intro server event output next happened
    rw [(cases happened).1, Function.update_self]
  · intro server event output next happened other different
    rw [(cases happened).1, Function.update_of_ne different]
  · intro server event output next happened
    exact (cases happened).2

theorem happen_isSome (returns : ∀ conInfo response filename chunkId,
      Returns (handle conInfo response filename chunkId)) (server : HttpServer RequestId)
    (event : HttpEvent RequestId) : (happen handle requests server event).isSome := by
  obtain ⟨id, happening⟩ := event
  cases happening with
  | completed => rfl
  | callback uploadData faults =>
      simp only [happen, recordedAnswer_eq, Option.isSome_map]
      exact answerToConnectionWith_returns returns (requests id) uploadData
        (server.conCls id) (server.storage.process faults)

end Daemon

/-- A whole upload as the library presents it: a callback without data, one for each fragment
of the body, and one of size 0. It goes on only after `MHD_YES`, so the allocation of the
first callback was granted. -/
structure Upload where
  first : Faults
  fragments : List (Bytes × Faults)
  last : Faults
  started : first.next .malloc = .done
  nonempty : ∀ fragment ∈ fragments, fragment.1 ≠ []
  grown : ∀ fragment ∈ fragments, fragment.2.next .realloc = .done

namespace Upload

def body (upload : Upload) : Bytes := (upload.fragments.map Prod.fst).flatten

def happenings (upload : Upload) : List Happening :=
  .callback [] upload.first ::
    upload.fragments.map (fun (uploadData, faults) => .callback uploadData faults) ++
      [.callback [] upload.last]

end Upload

structure CarriesChunk (request : HttpRequest) (filename chunkIdStr : Bytes) : Prop where
  post : request.method = ascii "POST"
  url : request.url = ascii "/new-chunk"
  filename : request.header (ascii "X-Filename") = some filename
  chunkId : request.header (ascii "X-Chunk-ID") = some chunkIdStr

section Upload

variable {request : HttpRequest} {filename chunkIdStr : Bytes}

theorem alone_fragments (post : request.method = ascii "POST")
    {fragments : List (Bytes × Faults)} (nonempty : ∀ fragment ∈ fragments, fragment.1 ≠ [])
    (grown : ∀ fragment ∈ fragments, fragment.2.next .realloc = .done) (held : Bytes)
    (rest : List Happening) :
    alone (nextInfo request) (callsAt request) (some { data := some held })
      (fragments.map (fun (uploadData, faults) => .callback uploadData faults) ++ rest) =
    alone (nextInfo request) (callsAt request)
      (some { data := some (held ++ (fragments.map Prod.fst).flatten) }) rest := by
  induction fragments generalizing held with
  | nil => simp
  | cons fragment fragments ih =>
      obtain ⟨piece, faults⟩ := fragment
      simp only [List.forall_mem_cons] at nonempty grown
      have later := ih nonempty.2 grown.2 (held ++ piece)
      rw [List.append_assoc] at later
      rw [List.map_cons, List.cons_append, alone, callsAt,
        newChunkCall_of_not_post (fun both => nonempty.1 both.2), nextInfo,
        if_pos ⟨post, nonempty.1⟩, if_pos grown.1, List.map_cons, List.flatten_cons]
      exact later

theorem alone_last (chunk : CarriesChunk request filename chunkIdStr) (info : ConnectionInfo)
    (last : Faults) {after : List Happening} (ended : after <+: [.completed]) :
    alone (nextInfo request) (callsAt request) (some info) (.callback [] last :: after) =
      if 0 < (info.data.getD []).length then [⟨info, filename, atoi chunkIdStr⟩] else [] := by
  have idle : ∀ mine, alone (nextInfo request) (callsAt request) mine after = [] := by
    intro mine
    rcases List.prefix_cons_iff.mp ended with rfl | ⟨tail, rfl, nothing⟩
    · rfl
    · rw [List.prefix_nil.mp nothing]
      rfl
  rw [alone, idle, List.append_nil, callsAt, newChunkCall,
    if_pos ⟨chunk.post, rfl, chunk.url⟩, chunk.filename, chunk.chunkId]
  simp only
  split <;> rfl

theorem alone_upload (chunk : CarriesChunk request filename chunkIdStr) (upload : Upload)
    {after : List Happening} (ended : after <+: [.completed]) :
    alone (nextInfo request) (callsAt request) none (upload.happenings ++ after) =
      if upload.body = [] then []
      else [⟨{ data := some upload.body }, filename, atoi chunkIdStr⟩] := by
  obtain ⟨first, fragments, last, started, nonempty, grown⟩ := upload
  rw [Upload.happenings, Upload.body, List.cons_append, List.cons_append, List.append_assoc, alone,
    nextInfo]
  simp only [if_pos started, callsAt, newChunkCall, Option.toList_none, List.nil_append]
  cases fragments with
  | nil =>
      rw [List.map_nil, List.nil_append, List.singleton_append, alone_last chunk _ _ ended]
      simp
  | cons fragment fragments =>
      obtain ⟨piece, faults⟩ := fragment
      simp only [List.forall_mem_cons] at nonempty grown
      have body : piece ++ (fragments.map Prod.fst).flatten ≠ [] := by
        intro empty
        exact nonempty.1 (List.append_eq_nil_iff.mp empty).1
      rw [List.map_cons, List.cons_append, alone, callsAt,
        newChunkCall_of_not_post (fun both => nonempty.1 both.2), nextInfo,
        if_pos ⟨chunk.post, nonempty.1⟩, if_pos grown.1, Option.getD_none, List.nil_append,
        alone_fragments chunk.post nonempty.2 grown.2, List.singleton_append,
        alone_last chunk _ _ ended, List.map_cons, List.flatten_cons, if_neg body]
      exact if_pos (List.length_pos_iff.mpr body)

end Upload

/-- Whatever the callbacks of other requests do in between: a request calls `handle` once, with
its whole body, when it has one, and never when it has none; and no callback
stops the daemon when `handle` returns. -/
theorem body_handled_once {RequestId : Type*} [DecidableEq RequestId]
    (handle : ConnectionInfo → Response → Bytes → Int32 → Sys StorageStateOuter (Bool × Response))
    (requests : RequestId → HttpRequest) (storage : Storage) (events : List (HttpEvent RequestId)) :
    (∀ trace final,
      run (happen handle requests) (HttpServer.start storage) events = some (trace, final) →
      ∀ (id : RequestId) (filename chunkIdStr : Bytes) (upload : Upload) (after : List Happening),
        CarriesChunk (requests id) filename chunkIdStr →
        (ofParty HttpEvent.id id events).map HttpEvent.happening = upload.happenings ++ after →
        after <+: [.completed] →
        itemsOf HttpEvent.id Prod.snd id trace =
          if upload.body = [] then []
          else [⟨{ data := some upload.body }, filename, atoi chunkIdStr⟩]) ∧
    ((∀ conInfo response filename chunkId, Returns (handle conInfo response filename chunkId)) →
      (run (happen handle requests) (HttpServer.start storage) events).isSome) := by
  constructor
  · intro trace final ran id filename chunkIdStr upload after chunk own ended
    have mine : ∀ event ∈ ofParty HttpEvent.id id events, event.id = id := by
      intro event member
      simpa using (List.mem_filter.mp member).2
    rw [itemsOf_eq_alone (happen_separate requests) ran id, ← alone_upload chunk upload ended, ← own]
    apply alone_map
    · intro info event member
      rw [mine event member]
    · intro info event member
      rw [mine event member]
  · intro returns
    exact run_isSome (happen_isSome requests returns) _ _

def inTurns : List (HttpEvent Bool) := [
  ⟨true, .callback [] fun _ => []⟩,
  ⟨false, .callback [] fun _ => []⟩,
  ⟨true, .callback (ascii "ab") fun _ => []⟩,
  ⟨false, .callback (ascii "x") fun _ => []⟩,
  ⟨true, .callback (ascii "c") fun _ => []⟩,
  ⟨false, .callback [] fun _ => []⟩,
  ⟨true, .callback [] fun _ => []⟩]

def inTurnsRequest (id : Bool) : HttpRequest :=
  newChunkRequest (ascii "f") (ascii (if id then "0" else "1"))

theorem body_handled_once_inTurns : ∃ trace final,
    run (happen handleNewChunk inTurnsRequest) (HttpServer.start emptyStorage) inTurns =
      some (trace, final) ∧
    itemsOf HttpEvent.id Prod.snd true trace = [⟨{ data := some (ascii "abc") }, ascii "f", 0⟩] ∧
    itemsOf HttpEvent.id Prod.snd false trace = [⟨{ data := some (ascii "x") }, ascii "f", 1⟩] := by
  have defined : (run (happen handleNewChunk inTurnsRequest) (HttpServer.start emptyStorage)
      inTurns).isSome := by decide +kernel
  obtain ⟨⟨trace, final⟩, ran⟩ := Option.isSome_iff_exists.mp defined
  have once := (body_handled_once handleNewChunk inTurnsRequest emptyStorage inTurns).1 trace final
    ran
  refine ⟨trace, final, ran, ?_, ?_⟩
  · exact once true (ascii "f") (ascii "0")
      ⟨fun _ => [], [(ascii "ab", fun _ => []), (ascii "c", fun _ => [])], fun _ => [], rfl,
        by decide, by simp [Faults.next]⟩ [] ⟨rfl, rfl, rfl, rfl⟩ rfl (List.nil_prefix)
  · exact once false (ascii "f") (ascii "1")
      ⟨fun _ => [], [(ascii "x", fun _ => [])], fun _ => [], rfl, by decide, by simp [Faults.next]⟩
      [] ⟨rfl, rfl, rfl, rfl⟩ rfl (List.nil_prefix)

end DistributedFileSystem.StorageLayer
