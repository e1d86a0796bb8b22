import DistributedFileSystem.StorageLayer.TableSlot

/-!
The HTTP server of a storage node (`httpServer/httpMain.c`,
`httpServer/handleNewChunk.c`). `MHD_lookup_connection_value` is the header
lookup of the request; response objects are made when memory is there.
-/

namespace DistributedFileSystem.StorageLayer

open ByteString Posix

structure HttpRequest where
  url : Bytes
  method : Bytes
  header : Bytes → Option Bytes

structure ConnectionInfo where
  data : Option Bytes
  deriving DecidableEq, Repr

structure Response where
  responseText : Option Bytes
  page : Option Bytes
  shouldFree : Bool
  deriving DecidableEq, Repr

def noResponse : Response := { responseText := none, page := none, shouldFree := false }

/-- How one callback ends; `json` carries what `strlen(page)` is applied to. -/
inductive Answer where
  | no
  | yes
  | file (node : Node)
  | json (status : Nat) (page : Option Bytes)
  deriving DecidableEq, Repr

def httpOk : Nat := 200
def httpBadRequest : Nat := 400
def httpNotFound : Nat := 404
def httpMethodNotAllowed : Nat := 405
def httpInternalServerError : Nat := 500

def errorPage (message : String) : Bytes :=
  ascii "\x7b\"error\":\"" ++ ascii message ++ ascii "\"\x7d"

def notFound : Answer := .json httpNotFound (some (errorPage "404 Not Found"))

def missingHeaders : Answer :=
  .json httpBadRequest (some (errorPage "Missing X-Filename or X-Chunk-ID"))

def handleNewChunk (conInfo : ConnectionInfo) (response : Response) (filename : Bytes)
    (chunkId : Int32) : Sys StorageStateOuter (Bool × Response) := do
  let writeResult ← saveChunkToFile (some filename) conInfo.data chunkId
  if !writeResult then
    return (false, response)
  if ← allocate .malloc then
    let text := snprintf 200 (ascii "\x7b\"success\": true, \"chunkId\": " ++ decimal chunkId ++
      ascii ", \"bytes\": " ++ digits (conInfo.data.getD []).length ++ ascii "\x7d")
    return (true, { responseText := some text, page := some text, shouldFree := true })
  else
    return (true, { response with responseText := none })

def answerPostWith {m : Type → Type} [Monad m]
    (handle : ConnectionInfo → Response → Bytes → Int32 → m (Bool × Response))
    (request : HttpRequest) (conInfo : ConnectionInfo) : m Answer := do
  if request.url = ascii "/new-chunk" then
    match request.header (ascii "X-Filename"), request.header (ascii "X-Chunk-ID") with
    | some filename, some chunkIdStr =>
        let chunkId := atoi chunkIdStr
        if 0 < (conInfo.data.getD []).length then
          let (ok, response) ← handle conInfo noResponse filename chunkId
          return .json (if ok then httpOk else httpInternalServerError) response.page
        else
          return .json httpBadRequest (some (errorPage "No request body"))
    | _, _ => return missingHeaders
  else
    return notFound

def answerPost (request : HttpRequest) (conInfo : ConnectionInfo) :
    Sys StorageStateOuter Answer :=
  answerPostWith handleNewChunk request conInfo

def answerGet (request : HttpRequest) : Sys StorageStateOuter Answer := do
  if request.url = ascii "/chunk" then
    match request.header (ascii "X-Filename"), request.header (ascii "X-Chunk-ID") with
    | some filename, some chunkIdStr =>
        match ← getFileDescriptor filename (atoi chunkIdStr) with
        | none => return notFound
        | some node =>
            if !(← fstat) then
              return .json httpInternalServerError (some (errorPage "Could not stat file"))
            -- `MHD_create_response_from_fd`
            if ← allocate .malloc then
              return .file node
            else
              return .no
    | _, _ => return missingHeaders
  else
    return notFound

def answerDelete (request : HttpRequest) : Sys StorageStateOuter Answer := do
  if request.url = ascii "/remove-file" then
    match request.header (ascii "X-Filename") with
    | none => return .json httpBadRequest (some (errorPage "Missing X-Filename "))
    | some filename =>
        if ← deleteFile filename then
          return .json httpOk (some (ascii "\x7b\"message\":\"successfully deleted\"\x7d"))
        else
          return .json httpInternalServerError (some (errorPage "404 Not Found"))
  else
    return notFound

/-- One callback, over the functions that it calls: `conInfo` is `*con_cls`, which is `NULL` at
the first one. -/
def answerToConnectionWith {m : Type → Type} [Monad m] (allocate : Call → m Bool)
    (post : HttpRequest → ConnectionInfo → m Answer) (get delete : HttpRequest → m Answer)
    (request : HttpRequest) (uploadData : Bytes) (conInfo : Option ConnectionInfo) :
    m (Answer × Option ConnectionInfo) := do
  match conInfo with
  | none =>
      if ← allocate .malloc then
        return (.yes, some { data := none })
      else
        return (.no, none)
  | some info =>
      if request.method = ascii "POST" ∧ uploadData ≠ [] then
        if ← allocate .realloc then
          return (.yes, some { data := some (info.data.getD [] ++ uploadData) })
        else
          return (.no, none)
      else if request.method = ascii "POST" then
        return (← post request info, some info)
      else if request.method = ascii "GET" then
        return (← get request, some info)
      else if request.method = ascii "DELETE" then
        return (← delete request, some info)
      else
        return (.json httpMethodNotAllowed (some (errorPage "Method Not Allowed")), some info)

def answerToConnection (request : HttpRequest) (uploadData : Bytes)
    (conInfo : Option ConnectionInfo) :
    Sys StorageStateOuter (Answer × Option ConnectionInfo) :=
  answerToConnectionWith allocate answerPost answerGet answerDelete request uploadData conInfo

def Carries (request : HttpRequest) (uploadData : Bytes) (conInfo : Option ConnectionInfo)
    (filename data : Bytes) (chunkId : Int32) : Prop :=
  request.method = ascii "POST" ∧ uploadData = [] ∧ request.url = ascii "/new-chunk" ∧
    request.header (ascii "X-Filename") = some filename ∧
    (request.header (ascii "X-Chunk-ID")).map atoi = some chunkId ∧
    conInfo = some { data := some data } ∧ data ≠ []

/-- The chunk is neither there nor can it be stored, or there is no memory for the text of the
answer and the table has a slot for the chunk. -/
def LeavesPageUnset (process : Process StorageStateOuter) (filename data : Bytes)
    (chunkId : Int32) : Prop :=
  ¬(Sees process (chunkPath filename chunkId) ∨
      Storable process (chunkPath filename chunkId) data) ∨
    process.faults.next .malloc ≠ .done ∧
      ¬(process.memory.fileToChunkState = [] ∧ WritesBeside process filename data chunkId)

theorem recordChunk_answer {filename : Bytes} {chunkId : Int32} {has answer : Bool}
    {process next : Process StorageStateOuter}
    (recorded : recordChunk filename chunkId has process = some (answer, next)) :
    answer = true ∧ next.faults .malloc = process.faults .malloc := by
  simp only [recordChunk, bind_apply, allocate, get_apply, Option.bind_some,
    Process.spend_memory] at recorded
  cases inserted : insertToStruct (process.faults.next .realloc = .done) process.memory filename
      chunkId has with
  | none =>
      rw [inserted] at recorded
      contradiction
  | some state =>
      rw [inserted] at recorded
      obtain ⟨rfl, rfl⟩ := Prod.mk.inj (Option.some.inj recorded)
      exact ⟨rfl, @Faults.spend_of_ne process.faults .malloc .realloc (by simp)⟩

theorem saveChunkToFile_answer {filename data : Bytes} {chunkId : Int32} {answer : Bool}
    {process next : Process StorageStateOuter} (nonempty : data ≠ [])
    (saved : saveChunkToFile (some filename) (some data) chunkId process = some (answer, next)) :
    (answer = true ↔ Sees process (chunkPath filename chunkId) ∨
        Storable process (chunkPath filename chunkId) data) ∧
      next.faults .malloc = process.faults .malloc := by
  obtain ⟨has, disk, faults, _, spared, ended⟩ :=
    @saveChunkToFile_calls filename data chunkId nonempty process
  rcases ended with ⟨seen, same⟩ | ⟨unseen, refused, same⟩ | ⟨_, storable, same⟩
  · obtain ⟨rfl, rfl⟩ := Prod.mk.inj (Option.some.inj (saved.symm.trans same))
    exact ⟨by simp [seen], spared _ (by simp)⟩
  · obtain ⟨rfl, rfl⟩ := Prod.mk.inj (Option.some.inj (saved.symm.trans same))
    exact ⟨by simp [unseen, refused], spared _ (by simp)⟩
  · obtain ⟨rfl, spent⟩ := recordChunk_answer (same.symm.trans saved)
    exact ⟨by simp [storable], spent.trans (spared _ (by simp))⟩

theorem handleNewChunk_page {data : Bytes} (nonempty : data ≠ []) (filename : Bytes)
    (chunkId : Int32) (process : Process StorageStateOuter) :
    (∀ ok response next, handleNewChunk { data := some data } noResponse filename chunkId process =
        some ((ok, response), next) → response.page.isSome) ↔
      ¬LeavesPageUnset process filename data chunkId := by
  cases saved : saveChunkToFile (some filename) (some data) chunkId process with
  | none =>
      obtain ⟨empty, beside⟩ := (saveChunkToFile_eq_none chunkId nonempty process).mp saved
      have storable := (writesBeside_iff.mp beside).2.2
      simp [handleNewChunk, bind_apply, saved, LeavesPageUnset, storable, empty, beside]
  | some ended =>
      obtain ⟨answer, next⟩ := ended
      obtain ⟨stores, spent⟩ := saveChunkToFile_answer nonempty saved
      have defined : ¬(process.memory.fileToChunkState = [] ∧
          WritesBeside process filename data chunkId) := by
        rw [← saveChunkToFile_eq_none chunkId nonempty, saved]
        simp
      have memory := Faults.next_of_eq spent
      cases answer with
      | false =>
          have fails : ¬(Sees process (chunkPath filename chunkId) ∨
              Storable process (chunkPath filename chunkId) data) := by
            rw [← stores]
            simp
          simp only [handleNewChunk, bind_apply, saved, LeavesPageUnset, fails]
          simp [pure_apply, noResponse]
      | true =>
          have succeeds := stores.mp rfl
          by_cases granted : process.faults.next .malloc = .done
          · simp [handleNewChunk, bind_apply, saved, pure_apply, LeavesPageUnset, succeeds,
              allocate, memory, granted]
          · simp [handleNewChunk, bind_apply, saved, pure_apply, LeavesPageUnset, succeeds,
              allocate, memory, granted, defined, noResponse]

def Answer.Paged (answer : Answer) : Prop := ∀ status page, answer = .json status page → page.isSome

def Answer.pageSet : Answer → Bool
  | .json _ page => page.isSome
  | _ => true

theorem Answer.pageSet_iff {answer : Answer} : answer.pageSet = true ↔ answer.Paged := by
  cases answer with
  | json status page => simp [Answer.pageSet, Answer.Paged]
  | no => simp [Answer.pageSet, Answer.Paged]
  | yes => simp [Answer.pageSet, Answer.Paged]
  | file node => simp [Answer.pageSet, Answer.Paged]

theorem notFound_paged : notFound.Paged := by
  intro status page same
  simp only [notFound, Answer.json.injEq] at same
  simp [← same.2]

theorem missingHeaders_paged : missingHeaders.Paged := by
  intro status page same
  simp only [missingHeaders, Answer.json.injEq] at same
  simp [← same.2]

theorem json_paged (status : Nat) (page : Bytes) : (Answer.json status (some page)).Paged := by
  intro _ _ same
  simp only [Answer.json.injEq] at same
  simp [← same.2]

theorem answerGet_paged (request : HttpRequest) : Ends (answerGet request) Answer.Paged := by
  unfold answerGet
  split
  · split
    · refine Ends.bind ?_
      intro opened
      cases opened with
      | none => exact Ends.pure notFound_paged
      | some node =>
          refine Ends.bind ?_
          intro statted
          split
          · exact Ends.pure (json_paged _ _)
          · refine Ends.bind ?_
            intro created
            split
            · exact Ends.pure nofun
            · exact Ends.pure nofun
    · exact Ends.pure missingHeaders_paged
  · exact Ends.pure notFound_paged

theorem answerDelete_paged (request : HttpRequest) : Ends (answerDelete request) Answer.Paged := by
  unfold answerDelete
  split
  · split
    · exact Ends.pure (json_paged _ _)
    · refine Ends.bind ?_
      intro removed
      split
      · exact Ends.pure (json_paged _ _)
      · exact Ends.pure (json_paged _ _)
  · exact Ends.pure notFound_paged

section Chunk

variable {request : HttpRequest} {filename chunkIdStr bytes : Bytes}

theorem carries_iff (post : request.method = ascii "POST") (chunkUrl : request.url = ascii "/new-chunk")
    (name : request.header (ascii "X-Filename") = some filename)
    (text : request.header (ascii "X-Chunk-ID") = some chunkIdStr) (nonempty : bytes ≠ [])
    {filename' data : Bytes} {chunkId : Int32} :
    Carries request [] (some { data := some bytes }) filename' data chunkId ↔
      filename = filename' ∧ bytes = data ∧ atoi chunkIdStr = chunkId := by
  simp only [Carries, post, chunkUrl, name, text, true_and, Option.map_some, Option.some.injEq,
    ConnectionInfo.mk.injEq]
  constructor
  · rintro ⟨sameName, sameId, sameData, _⟩
    exact ⟨sameName, sameData, sameId⟩
  · rintro ⟨rfl, rfl, rfl⟩
    exact ⟨rfl, rfl, rfl, nonempty⟩

/-- A chunk that is there to store is answered by what `handleNewChunk` leaves in `page`. -/
theorem answerPost_chunk_paged_iff (chunkUrl : request.url = ascii "/new-chunk")
    (name : request.header (ascii "X-Filename") = some filename)
    (text : request.header (ascii "X-Chunk-ID") = some chunkIdStr) (nonempty : bytes ≠ [])
    (process : Process StorageStateOuter) :
    (∀ answer next, answerPost request { data := some bytes } process = some (answer, next) →
      answer.Paged) ↔ ¬LeavesPageUnset process filename bytes (atoi chunkIdStr) := by
  have body : 0 < ((some bytes).getD []).length := List.length_pos_iff.mpr nonempty
  rw [← handleNewChunk_page nonempty]
  simp only [answerPost, answerPostWith, chunkUrl, name, text, body, if_true, bind_apply]
  constructor
  · intro paged ok response next handled
    exact paged _ next (by rw [handled]; rfl) _ _ rfl
  · intro set answer next answered
    obtain ⟨⟨⟨ok, response⟩, middle⟩, handled, ended⟩ := Option.bind_eq_some_iff.mp answered
    obtain ⟨rfl, _⟩ := Prod.mk.inj (Option.some.inj ended)
    intro status page same
    rw [← (Answer.json.inj same).2]
    exact set ok response middle handled

end Chunk

theorem answerPost_paged_iff {request : HttpRequest} (post : request.method = ascii "POST")
    (info : ConnectionInfo) (process : Process StorageStateOuter) :
    (∀ answer next, answerPost request info process = some (answer, next) → answer.Paged) ↔
      ¬∃ filename data chunkId, Carries request [] (some info) filename data chunkId ∧
        LeavesPageUnset process filename data chunkId := by
  -- everything short of a chunk to store is answered by a fixed page
  have other : Ends (answerPost request info) Answer.Paged →
      (¬∃ filename data chunkId, Carries request [] (some info) filename data chunkId) →
      ((∀ answer next, answerPost request info process = some (answer, next) → answer.Paged) ↔
        ¬∃ filename data chunkId, Carries request [] (some info) filename data chunkId ∧
          LeavesPageUnset process filename data chunkId) := by
    intro paged idle
    refine iff_of_true (paged process) ?_
    rintro ⟨filename, data, chunkId, carries, _⟩
    exact idle ⟨filename, data, chunkId, carries⟩
  by_cases chunkUrl : request.url = ascii "/new-chunk"
  · cases name : request.header (ascii "X-Filename") with
    | none =>
        apply other
        · simp only [answerPost, answerPostWith, chunkUrl, name, if_true]
          exact Ends.pure missingHeaders_paged
        · rintro ⟨_, _, _, _, _, _, same, _⟩
          simp [name] at same
    | some filename =>
        cases text : request.header (ascii "X-Chunk-ID") with
        | none =>
            apply other
            · simp only [answerPost, answerPostWith, chunkUrl, name, text, if_true]
              exact Ends.pure missingHeaders_paged
            · rintro ⟨_, _, _, _, _, _, _, same, _⟩
              simp [text] at same
        | some chunkIdStr =>
            obtain ⟨data⟩ := info
            by_cases body : 0 < (data.getD []).length
            · obtain ⟨bytes, rfl⟩ : ∃ bytes, data = some bytes := by
                cases data with
                | none => simp at body
                | some bytes => exact ⟨bytes, rfl⟩
              have nonempty : bytes ≠ [] := List.length_pos_iff.mp body
              rw [answerPost_chunk_paged_iff chunkUrl name text nonempty, not_iff_not]
              constructor
              · intro leaves
                exact ⟨_, _, _, (carries_iff post chunkUrl name text nonempty).mpr
                  ⟨rfl, rfl, rfl⟩, leaves⟩
              · rintro ⟨filename', data, chunkId, carries, leaves⟩
                obtain ⟨rfl, rfl, rfl⟩ := (carries_iff post chunkUrl name text nonempty).mp carries
                exact leaves
            · apply other
              · simp only [answerPost, answerPostWith, chunkUrl, name, text, body, if_true, if_false]
                exact Ends.pure (json_paged _ _)
              · rintro ⟨_, bytes, _, _, _, _, _, _, same, nonempty⟩
                simp only [Option.some.injEq, ConnectionInfo.mk.injEq] at same
                simp only [same, Option.getD_some] at body
                exact body (List.length_pos_iff.mpr nonempty)
  · apply other
    · rw [answerPost, answerPostWith, if_neg chunkUrl]
      exact Ends.pure notFound_paged
    · rintro ⟨_, _, _, _, _, same, _⟩
      exact chunkUrl same

theorem allocated_paged (call : Call) (info : ConnectionInfo) :
    Ends (do
      if ← allocate call then
        return (Answer.yes, some info)
      else
        return (Answer.no, none) : Sys StorageStateOuter (Answer × Option ConnectionInfo))
      fun ended => ended.1.Paged := by
  refine Ends.bind ?_
  intro granted
  split
  · exact Ends.pure nofun
  · exact Ends.pure nofun

/-- The page is set whenever the response is built, for exactly these requests. -/
theorem page_set_iff (request : HttpRequest) (uploadData : Bytes)
    (conInfo : Option ConnectionInfo) (process : Process StorageStateOuter) :
    (∀ status page kept next, answerToConnection request uploadData conInfo process =
        some ((.json status page, kept), next) → page.isSome) ↔
      ¬∃ filename data chunkId, Carries request uploadData conInfo filename data chunkId ∧
        LeavesPageUnset process filename data chunkId := by
  have idle : Ends (answerToConnection request uploadData conInfo) (fun ended => ended.1.Paged) →
      (¬∃ filename data chunkId, Carries request uploadData conInfo filename data chunkId) →
      ((∀ status page kept next, answerToConnection request uploadData conInfo process =
          some ((.json status page, kept), next) → page.isSome) ↔
        ¬∃ filename data chunkId, Carries request uploadData conInfo filename data chunkId ∧
          LeavesPageUnset process filename data chunkId) := by
    intro paged none
    refine iff_of_true ?_ ?_
    · intro status page kept next answered
      exact paged process _ next answered status page rfl
    · rintro ⟨filename, data, chunkId, carries, _⟩
      exact none ⟨filename, data, chunkId, carries⟩
  cases conInfo with
  | none =>
      apply idle
      · exact allocated_paged _ _
      · rintro ⟨_, _, _, _, _, _, _, _, same, _⟩
        simp at same
  | some info =>
      by_cases post : request.method = ascii "POST"
      · by_cases upload : uploadData = []
        · subst uploadData
          rw [← answerPost_paged_iff post info process]
          simp only [answerToConnection, answerToConnectionWith, post, ne_eq, not_true_eq_false, and_false, if_false,
            if_true, bind_apply]
          constructor
          · intro set answer next answered status page same
            subst same
            exact set status page _ next (by rw [answered]; rfl)
          · intro paged status page kept next answered
            obtain ⟨⟨answer, middle⟩, handled, ended⟩ := Option.bind_eq_some_iff.mp answered
            obtain ⟨same, _⟩ := Prod.mk.inj (Option.some.inj ended)
            exact paged answer middle handled status page (Prod.mk.inj same).1
        · apply idle
          · simp only [answerToConnection, answerToConnectionWith, post, upload, ne_eq, not_false_eq_true, and_self, if_true]
            exact allocated_paged _ _
          · rintro ⟨_, _, _, _, same, _⟩
            exact upload same
      · apply idle
        · simp only [answerToConnection, answerToConnectionWith, post, false_and, if_false]
          split
          · exact Ends.after (answerGet_paged request) fun _ paged => Ends.pure paged
          · split
            · exact Ends.after (answerDelete_paged request) fun _ paged => Ends.pure paged
            · exact Ends.pure (json_paged _ _)
        · rintro ⟨_, _, _, same, _⟩
          exact post same

def chunkUnderChunk : HttpRequest := {
  url := ascii "/new-chunk"
  method := ascii "POST"
  header := fun name =>
    if name = ascii "X-Filename" then some (ascii "a/0")
    else if name = ascii "X-Chunk-ID" then some (ascii "1")
    else none
}

theorem chunkUnderChunk_page_null : ¬∀ request uploadData conInfo process status page kept next,
    answerToConnection request uploadData conInfo process =
      some ((.json status page, kept), next) → page.isSome := by
  intro always
  let process : Process StorageStateOuter :=
    { disk := restarted, faults := fun _ => [], memory := ⟨[⟨ascii "a", [0]⟩]⟩ }
  have ended : (answerToConnection chunkUnderChunk [] (some { data := some (ascii "y") })
      process).map Prod.fst = some (.json httpInternalServerError none,
        some { data := some (ascii "y") }) := by decide +kernel
  obtain ⟨⟨answer, next⟩, answered, same⟩ := Option.map_eq_some_iff.mp ended
  simp only at same
  subst same
  have set := always _ _ _ _ _ _ _ next answered
  simp at set

end DistributedFileSystem.StorageLayer
