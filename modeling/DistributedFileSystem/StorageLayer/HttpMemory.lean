import DistributedFileSystem.StorageLayer.TableLife
import DistributedFileSystem.StorageLayer.UploadFragments

/-!
The memory of the HTTP server (`httpServer/httpMain.c`, `httpServer/handleNewChunk.c`): what
the callbacks of many requests allocate for each `*con_cls`, in any order of callbacks and
completions, and what is still allocated when every request is over.
-/

namespace DistributedFileSystem.StorageLayer

open ByteString HeapCells Posix Transition

inductive HttpBlock where
  | conInfo (data : Option Pointer) (size : Nat)
  | data (bytes : Bytes)
  | responseText (text : Bytes)
  deriving DecidableEq, Repr

/-- Where `malloc` and `realloc` put a block when they do not fail, and what the memory that
they add holds. A block that is resized stays where it is or goes to an unused address. -/
structure Placement where
  address : Option Pointer → (Pointer → Option HttpBlock) → Pointer
  unused : ∀ pointer heap, (∃ free, heap free = none) →
    pointer = some (address pointer heap) ∨ heap (address pointer heap) = none
  added : UInt8

open Classical in
instance : Nonempty Placement :=
  ⟨{ address := fun _ heap => if room : ∃ free, heap free = none then choose room else 0
     unused := fun _ heap room => by
       rw [dif_pos room]
       exact Or.inr (choose_spec room)
     added := 0 }⟩

structure OtherBlocks where
  heap : Pointer → Option HttpBlock
  room : {pointer | heap pointer = none}.Infinite

inductive Page where
  | constant (text : Bytes)
  | allocated (pointer : Pointer)

structure Filled where
  responseText : Option Pointer
  page : Option Page
  shouldFree : Bool

structure HttpMemory where
  process : Process StorageStateOuter
  heap : Pointer → Option HttpBlock

namespace HttpMemory

/-- `none` is a run that has left defined behaviour. -/
abbrev Run := StateT HttpMemory Option

def system {α : Type} (action : Sys StorageStateOuter α) : Run α := fun memory =>
  (action memory.process).map fun (value, process) => (value, { memory with process := process })

def put (pointer : Pointer) (block : Option HttpBlock) : Run Unit :=
  modify fun memory => { memory with heap := Function.update memory.heap pointer block }

def malloc (placement : Placement) (block : HttpBlock) : Run (Option Pointer) := do
  if ← system (allocate .malloc) then
    let pointer := placement.address none (← get).heap
    put pointer (some block)
    return some pointer
  else
    return none

def free : Option Pointer → Run Unit
  | none => pure ()
  | some pointer => fun memory =>
      if (memory.heap pointer).isSome then put pointer none memory else none

def readInfo (conInfo : Pointer) : Run (Option Pointer × Nat) := fun memory =>
  match memory.heap conInfo with
  | some (.conInfo data size) => some ((data, size), memory)
  | _ => none

def writeInfo (conInfo : Pointer) (data : Option Pointer) (size : Nat) : Run Unit := do
  let _ ← readInfo conInfo
  put conInfo (some (.conInfo data size))

def readData (data : Pointer) : Run Bytes := fun memory =>
  match memory.heap data with
  | some (.data bytes) => some (bytes, memory)
  | _ => none

def readHeld : Option Pointer → Run Bytes
  | none => pure []
  | some data => readData data

def realloc (placement : Placement) (data : Option Pointer) (size : Nat) :
    Run (Option Pointer) := do
  let held ← readHeld data
  if ← system (allocate .realloc) then
    let moved := placement.address data (← get).heap
    free data
    put moved (some (.data (TableMemory.resized held size placement.added)))
    return some moved
  else
    return none

def memcpy (data : Pointer) (size : Nat) (uploadData : Bytes) : Run Unit := do
  let bytes ← readData data
  if size + uploadData.length ≤ bytes.length then
    put data (some (.data
      (bytes.take size ++ uploadData ++ bytes.drop (size + uploadData.length))))
  else
    failure

def readBody (data : Option Pointer) (size : Nat) : Run (Option Bytes) := do
  match data with
  | none => return none
  | some pointer =>
      let bytes ← readData pointer
      if size ≤ bytes.length then
        return some (bytes.take size)
      else
        failure

def handleNewChunk (placement : Placement) (conInfo : Pointer) (filled : Filled)
    (filename : Bytes) (chunkId : Int32) : Run (Bool × Filled) := do
  let (data, size) ← readInfo conInfo
  let bytes ← readBody data size
  let writeResult ← system (saveChunkToFile (some filename) bytes chunkId)
  if !writeResult then
    return (false, filled)
  let text := snprintf 200 (ascii "\x7b\"success\": true, \"chunkId\": " ++ decimal chunkId ++
    ascii ", \"bytes\": " ++ digits size ++ ascii "\x7d")
  match ← malloc placement (.responseText text) with
  | some pointer =>
      return (true,
        { responseText := some pointer
          page := some (.allocated pointer)
          shouldFree := true })
  | none => return (true, { filled with responseText := none })

def readPage : Option Page → Run Bytes
  | none => failure
  | some (.constant text) => return text
  | some (.allocated pointer) => fun memory =>
      match memory.heap pointer with
      | some (.responseText text) => some (text, memory)
      | _ => none

def respond (status : Nat) (filled : Filled) : Run Answer := do
  let page ← readPage filled.page
  if filled.shouldFree then
    free filled.responseText
  return .json status (some page)

def respondWith (status : Nat) (page : Bytes) : Run Answer :=
  respond status { responseText := none, page := some (.constant page), shouldFree := false }

def answerPost (placement : Placement) (request : HttpRequest) (conInfo : Pointer) :
    Run Answer := do
  if request.url = ascii "/new-chunk" then
    match request.header (ascii "X-Filename"), request.header (ascii "X-Chunk-ID") with
    | some filename, some chunkIdStr =>
        let chunkId := atoi chunkIdStr
        let (data, size) ← readInfo conInfo
        if data.isSome ∧ 0 < size then
          let (ok, filled) ← handleNewChunk placement conInfo
            { responseText := none, page := none, shouldFree := false } filename chunkId
          respond (if ok then httpOk else httpInternalServerError) filled
        else
          respondWith httpBadRequest (errorPage "No request body")
    | _, _ => respondWith httpBadRequest (errorPage "Missing X-Filename or X-Chunk-ID")
  else
    respondWith httpNotFound (errorPage "404 Not Found")

/-- One callback: `conCls` is `*con_cls`. What a `GET` and a `DELETE` answer with is a file
or a string constant. -/
def answerToConnection (placement : Placement) (request : HttpRequest) (uploadData : Bytes)
    (conCls : Option Pointer) : Run (Answer × Option Pointer) := do
  match conCls with
  | none =>
      match ← malloc placement (.conInfo none 0) with
      | none => return (.no, none)
      | some conInfo => return (.yes, some conInfo)
  | some conInfo =>
      if request.method = ascii "POST" ∧ uploadData ≠ [] then
        let (data, size) ← readInfo conInfo
        match ← realloc placement data (size + uploadData.length) with
        | none =>
            free (some conInfo)
            return (.no, none)
        | some newData =>
            writeInfo conInfo (some newData) size
            memcpy newData size uploadData
            writeInfo conInfo (some newData) (size + uploadData.length)
            return (.yes, some conInfo)
      else if request.method = ascii "POST" then
        return (← answerPost placement request conInfo, some conInfo)
      else if request.method = ascii "GET" then
        return (← system (answerGet request), some conInfo)
      else if request.method = ascii "DELETE" then
        return (← system (answerDelete request), some conInfo)
      else
        return (← respondWith httpMethodNotAllowed (errorPage "Method Not Allowed"), some conInfo)

def requestCompleted (conCls : Option Pointer) : Run Unit := do
  match conCls with
  | none => return
  | some conInfo =>
      let (data, _) ← readInfo conInfo
      if data.isSome then
        free data
      free (some conInfo)

end HttpMemory

structure HttpDaemon (RequestId : Type*) where
  storage : Storage
  heap : Pointer → Option HttpBlock
  conCls : RequestId → Option Pointer

def HttpDaemon.start {RequestId : Type*} (others : OtherBlocks) (storage : Storage) :
    HttpDaemon RequestId where
  storage := storage
  heap := others.heap
  conCls _ := none

def HttpDaemon.memory {RequestId : Type*} (daemon : HttpDaemon RequestId) (faults : Faults) :
    HttpMemory where
  process := daemon.storage.process faults
  heap := daemon.heap

section Daemon

variable {RequestId : Type*} [DecidableEq RequestId] (placement : Placement)
  (requests : RequestId → HttpRequest)

def occur (daemon : HttpDaemon RequestId) (event : HttpEvent RequestId) :
    Option (Option Answer × HttpDaemon RequestId) :=
  match event.happening with
  | .callback uploadData faults =>
      (HttpMemory.answerToConnection placement (requests event.id) uploadData
        (daemon.conCls event.id) (daemon.memory faults)).map fun ((answer, conCls), memory) =>
          (some answer,
            { storage := { disk := memory.process.disk, table := memory.process.memory }
              heap := memory.heap
              conCls := Function.update daemon.conCls event.id conCls })
  | .completed =>
      (HttpMemory.requestCompleted (daemon.conCls event.id) (daemon.memory fun _ => [])).map
        fun (_, memory) =>
          (none,
            { daemon with
              heap := memory.heap
              conCls := Function.update daemon.conCls event.id none })

def lostAt (request : HttpRequest) (conInfo : Option ConnectionInfo) : Happening → List Bytes
  | .completed => []
  | .callback uploadData faults =>
      if request.method = ascii "POST" ∧ uploadData ≠ [] ∧ faults.next .realloc ≠ .done then
        (conInfo.bind ConnectionInfo.data).toList
      else []

def lostBodies (conCls : RequestId → Option ConnectionInfo) :
    List (HttpEvent RequestId) → List Bytes
  | [] => []
  | event :: rest =>
      lostAt (requests event.id) (conCls event.id) event.happening ++
        lostBodies (Function.update conCls event.id
          (nextInfo (requests event.id) (conCls event.id) event.happening)) rest

end Daemon

/-- The blocks that `*con_cls` leads to, and what they say of the request. -/
inductive Reaches : Option Pointer → Option ConnectionInfo → List (Pointer × HttpBlock) → Prop
  | null : Reaches none none []
  | empty (conInfo : Pointer) :
      Reaches (some conInfo) (some { data := none }) [(conInfo, .conInfo none 0)]
  | held (conInfo data : Pointer) (body : Bytes) :
      Reaches (some conInfo) (some { data := some body })
        [(conInfo, .conInfo (some data) body.length), (data, .data body)]

namespace HttpMemory

variable {others : OtherBlocks} {placement : Placement} {memory : HttpMemory}
  {cells rest : List (Pointer × HttpBlock)} {request : HttpRequest}

theorem system_apply {α : Type} (action : Sys StorageStateOuter α) (memory : HttpMemory) :
    system action memory = (action memory.process).map fun (value, process) =>
      (value, { memory with process := process }) := rfl

theorem malloc_run (ledger : Ledger others.heap memory.heap cells) (block : HttpBlock) :
    ∃ pointer, memory.heap pointer = none ∧ malloc placement block memory =
      if memory.process.faults.next .malloc = .done then
        some (some pointer,
          { process := memory.process.spend .malloc
            heap := Function.update memory.heap pointer (some block) })
      else some (none, { memory with process := memory.process.spend .malloc }) := by
  have unused := (placement.unused none memory.heap (ledger.exists_free others.room)).resolve_left
    (by simp)
  refine ⟨_, unused, ?_⟩
  rw [malloc, bind_of_some (by rw [system_apply]; rfl)]
  by_cases granted : memory.process.faults.next .malloc = .done
  · simp only [granted, decide_true, if_true]
    rfl
  · simp only [granted, decide_false, Bool.false_eq_true, if_false]
    rfl

section Blocks

variable {process : Process StorageStateOuter} {heap : Pointer → Option HttpBlock}

theorem free_run {pointer : Pointer} {block : HttpBlock} (holds : heap pointer = some block) :
    free (some pointer) ⟨process, heap⟩ =
      some ((), ⟨process, Function.update heap pointer none⟩) := by
  simp only [free, holds, Option.isSome_some, if_true]
  rfl

theorem readInfo_run {conInfo : Pointer} {data : Option Pointer} {size : Nat}
    (holds : heap conInfo = some (.conInfo data size)) :
    readInfo conInfo ⟨process, heap⟩ = some ((data, size), ⟨process, heap⟩) := by
  simp only [readInfo, holds]

theorem writeInfo_run {conInfo : Pointer} {held data : Option Pointer} {was size : Nat}
    (holds : heap conInfo = some (.conInfo held was)) :
    writeInfo conInfo data size ⟨process, heap⟩ = some ((),
      ⟨process, Function.update heap conInfo (some (.conInfo data size))⟩) := by
  rw [writeInfo, bind_of_some (readInfo_run holds)]
  rfl

theorem readData_run {data : Pointer} {bytes : Bytes} (holds : heap data = some (.data bytes)) :
    readData data ⟨process, heap⟩ = some (bytes, ⟨process, heap⟩) := by
  simp only [readData, holds]

theorem memcpy_run {data : Pointer} {body uploadData added : Bytes}
    (holds : heap data = some (.data (body ++ added)))
    (fits : added.length = uploadData.length) :
    memcpy data body.length uploadData ⟨process, heap⟩ = some ((),
      ⟨process, Function.update heap data (some (.data (body ++ uploadData)))⟩) := by
  rw [memcpy, bind_of_some (readData_run holds), if_pos (by simp [fits])]
  have filled : (body ++ added).take body.length ++ uploadData ++
      (body ++ added).drop (body.length + uploadData.length) = body ++ uploadData := by
    simp [← fits]
  rw [filled]
  rfl

theorem respond_run (status : Nat) {pointer : Pointer} {text : Bytes}
    (holds : heap pointer = some (.responseText text)) :
    respond status
        { responseText := some pointer, page := some (.allocated pointer), shouldFree := true }
        ⟨process, heap⟩ =
      some (.json status (some text), ⟨process, Function.update heap pointer none⟩) := by
  have read : readPage (some (.allocated pointer)) ⟨process, heap⟩ =
      some (text, ⟨process, heap⟩) := by
    simp only [readPage, holds]
  rw [respond, bind_of_some read, if_pos rfl, bind_of_some (free_run holds)]
  rfl

end Blocks

theorem resized_length {α : Type} (old : List α) (count : Nat) (new : α) :
    TableMemory.resized old (old.length + count) new = old ++ List.replicate count new := by
  rw [TableMemory.resized, List.take_append, List.take_of_length_le (by omega),
    Nat.add_sub_cancel_left, List.take_replicate, Nat.min_eq_left (by omega)]

theorem realloc_run {conInfo : Pointer} {info : HttpBlock} {data : Option Pointer} {body : Bytes}
    (ledger : Ledger others.heap memory.heap
      ((conInfo, info) :: (data.toList.map fun pointer => (pointer, .data body)) ++ rest))
    (null : data = none → body = []) (count : Nat) :
    if memory.process.faults.next .realloc = .done then
      ∃ moved heap, realloc placement data (body.length + count) memory =
          some (some moved, { process := memory.process.spend .realloc, heap := heap }) ∧
        Ledger others.heap heap ((conInfo, info) ::
          (moved, .data (body ++ List.replicate count placement.added)) :: rest)
    else realloc placement data (body.length + count) memory =
      some (none, { memory with process := memory.process.spend .realloc }) := by
  have stays := placement.unused data memory.heap (ledger.exists_free others.room)
  have read : readHeld data memory = some (body, memory) := by
    cases data with
    | none =>
        rw [null rfl]
        rfl
    | some pointer =>
        exact readData_run (ledger.holds (pointer, .data body) (by simp))
  by_cases granted : memory.process.faults.next .realloc = .done
  · rw [if_pos granted]
    have asked : system (allocate .realloc) memory =
        some (true, { memory with process := memory.process.spend .realloc }) := by
      rw [system_apply, allocate, granted]
      rfl
    cases data with
    | none =>
        have allocated := ledger.allocate (stays.resolve_left (by simp))
          (.data (TableMemory.resized body (body.length + count) placement.added))
        rw [← resized_length]
        refine ⟨_, _, ?_, allocated.perm (List.Perm.swap ..)⟩
        rw [realloc, bind_of_some read, bind_of_some asked]
        rfl
    | some pointer =>
        have swapped : Ledger others.heap memory.heap
            ((pointer, .data body) :: (conInfo, info) :: rest) :=
          ledger.perm (List.Perm.swap ..)
        have moved := swapped.move (stays.imp_left Option.some.inj)
          (.data (TableMemory.resized body (body.length + count) placement.added))
        rw [← resized_length]
        refine ⟨_, _, ?_, moved.perm (List.Perm.swap ..)⟩
        rw [realloc, bind_of_some read, bind_of_some asked]
        simp only [if_true]
        rw [bind_of_some (by rfl), bind_of_some (free_run swapped.head)]
        rfl
  · rw [if_neg granted, realloc, bind_of_some read, bind_of_some (by rw [system_apply]; rfl)]
    simp only [granted, decide_false, Bool.false_eq_true, if_false]
    rfl

theorem reads {conInfo : Pointer} {info : ConnectionInfo}
    (reaches : Reaches (some conInfo) (some info) cells)
    (holds : ∀ cell ∈ cells, memory.heap cell.1 = some cell.2) :
    ∃ data, readInfo conInfo memory = some ((data, (info.data.getD []).length), memory) ∧
      readBody data (info.data.getD []).length memory = some (info.data, memory) ∧
      (data = none ↔ info.data = none) := by
  cases reaches with
  | empty => exact ⟨none, readInfo_run (holds _ List.mem_cons_self), rfl, by simp⟩
  | held _ data body =>
      simp only [List.forall_mem_cons] at holds
      refine ⟨some data, readInfo_run holds.1, ?_, by simp⟩
      rw [readBody, bind_of_some (readData_run holds.2.1), if_pos (by simp)]
      simp only [Option.getD_some, List.take_length]
      rfl

/-- The text of a response is freed again; a response without a page is not defined. -/
theorem handleNewChunk_respond {conInfo : Pointer} {info : ConnectionInfo}
    (reaches : Reaches (some conInfo) (some info) cells)
    (ledger : Ledger others.heap memory.heap (cells ++ rest)) (filename : Bytes)
    (chunkId : Int32) :
    (handleNewChunk placement conInfo
        { responseText := none, page := none, shouldFree := false } filename chunkId >>=
      fun (ok, filled) => respond (if ok then httpOk else httpInternalServerError) filled) memory =
    (StorageLayer.handleNewChunk info noResponse filename chunkId memory.process).bind
      fun ((ok, response), process) =>
        if response.page.isSome then
          some (.json (if ok then httpOk else httpInternalServerError) response.page,
            { memory with process := process })
        else none := by
  obtain ⟨data, readInfo, readBody, _⟩ := reads reaches fun cell member =>
    ledger.holds cell (List.mem_append_left rest member)
  unfold handleNewChunk StorageLayer.handleNewChunk
  rw [bind_assoc, bind_of_some readInfo]
  simp only [bind_assoc]
  rw [bind_of_some readBody]
  cases saved : saveChunkToFile (some filename) info.data chunkId memory.process with
  | none =>
      rw [Posix.bind_apply, saved]
      change (system _ memory).bind _ = none
      rw [system_apply, saved, Option.map_none, Option.bind_none]
  | some ended =>
      obtain ⟨answer, process⟩ := ended
      have done : system (saveChunkToFile (some filename) info.data chunkId) memory =
          some (answer, { memory with process := process }) := by
        rw [system_apply, saved, Option.map_some]
      rw [bind_of_some done, bind_of_some saved]
      cases answer with
      | false => rfl
      | true =>
          simp only [Bool.not_true, Bool.false_eq_true, if_false]
          obtain ⟨pointer, unused, allocated⟩ := @malloc_run others placement
            { memory with process := process } _ ledger (.responseText (snprintf 200
              (ascii "\x7b\"success\": true, \"chunkId\": " ++ decimal chunkId ++
                ascii ", \"bytes\": " ++ digits (info.data.getD []).length ++ ascii "\x7d")))
          generalize snprintf 200 _ = text at allocated ⊢
          by_cases granted : process.faults.next .malloc = .done
          · rw [if_pos granted] at allocated
            have permitted : allocate .malloc process = some (true, process.spend .malloc) := by
              rw [allocate, granted]
              rfl
            rw [bind_assoc, bind_of_some allocated, bind_of_some permitted]
            refine (respond_run httpOk (Function.update_self ..)).trans ?_
            have same : Function.update memory.heap pointer none = memory.heap :=
              Function.update_eq_self_iff.mpr unused.symm
            rw [Function.update_idem, same]
            rfl
          · rw [if_neg granted] at allocated
            have refused : allocate .malloc process = some (false, process.spend .malloc) := by
              rw [allocate]
              simp only [granted, decide_false]
            rw [bind_assoc, bind_of_some allocated, bind_of_some refused]
            rfl

theorem answerPost_run {conInfo : Pointer} {info : ConnectionInfo}
    (reaches : Reaches (some conInfo) (some info) cells)
    (ledger : Ledger others.heap memory.heap (cells ++ rest)) :
    answerPost placement request conInfo memory =
      (StorageLayer.answerPost request info memory.process).bind fun (answer, process) =>
        if answer.pageSet then some (answer, { memory with process := process }) else none := by
  obtain ⟨data, readInfo, _, null⟩ := reads reaches fun cell member =>
    ledger.holds cell (List.mem_append_left rest member)
  unfold answerPost StorageLayer.answerPost answerPostWith
  by_cases chunkUrl : request.url = ascii "/new-chunk"
  · simp only [if_pos chunkUrl]
    cases request.header (ascii "X-Filename") with
    | none => rfl
    | some filename =>
        cases request.header (ascii "X-Chunk-ID") with
        | none => rfl
        | some chunkIdStr =>
            simp only
            rw [bind_of_some readInfo]
            by_cases body : 0 < (info.data.getD []).length
            · have present : data.isSome := by
                rw [Option.isSome_iff_ne_none, ne_eq, null]
                intro missing
                simp [missing] at body
              simp only [present, body, and_self, if_true]
              refine (handleNewChunk_respond reaches ledger filename (atoi chunkIdStr)).trans ?_
              rw [Posix.bind_apply, Option.bind_assoc]
              rfl
            · simp only [body, and_false, if_false]
              rfl
  · simp only [if_neg chunkUrl]
    rfl

def Leaves (others : OtherBlocks) (rest : List (Pointer × HttpBlock)) (bodies : List Bytes)
    (kept : Option ConnectionInfo) (conCls : Option Pointer)
    (heap : Pointer → Option HttpBlock) : Prop :=
  ∃ cells lost, Reaches conCls kept cells ∧
    Ledger others.heap heap (cells ++ (lost ++ rest)) ∧
    lost.map Prod.snd = bodies.map HttpBlock.data

theorem Leaves.same {conCls : Option Pointer} {info : Option ConnectionInfo}
    (reaches : Reaches conCls info cells) (ledger : Ledger others.heap memory.heap (cells ++ rest)) :
    Leaves others rest [] info conCls memory.heap :=
  ⟨cells, [], reaches, ledger, rfl⟩

theorem Reaches.cells_eq {conInfo : Pointer} {info : ConnectionInfo}
    (reaches : Reaches (some conInfo) (some info) cells) :
    ∃ data : Option Pointer, (data = none ↔ info.data = none) ∧
      cells = (conInfo, .conInfo data (info.data.getD []).length) ::
        data.toList.map fun pointer => (pointer, .data (info.data.getD [])) := by
  cases reaches with
  | empty => exact ⟨none, by simp, rfl⟩
  | held _ data body => exact ⟨some data, by simp, rfl⟩

theorem answerToConnection_fragment {conInfo : Pointer} {info : ConnectionInfo}
    (reaches : Reaches (some conInfo) (some info) cells)
    (ledger : Ledger others.heap memory.heap (cells ++ rest))
    {uploadData : Bytes} (fragment : request.method = ascii "POST" ∧ uploadData ≠ []) :
    ∃ conCls heap,
      Leaves others rest (lostAt request (some info) (.callback uploadData memory.process.faults))
        (nextInfo request (some info) (.callback uploadData memory.process.faults)) conCls heap ∧
      answerToConnection placement request uploadData (some conInfo) memory =
        (StorageLayer.answerToConnection request uploadData (some info) memory.process).bind
          fun ((answer, _), process) =>
            if answer.pageSet then
              some ((answer, conCls), { process := process, heap := heap })
            else none := by
  obtain ⟨data, null, rfl⟩ := Reaches.cells_eq reaches
  have read := @readInfo_run memory.process _ _ _ _ ledger.head
  have resized := @realloc_run others placement memory rest _ _ _ _ ledger (fun missing => by rw [null.mp missing]; rfl) uploadData.length
  unfold answerToConnection StorageLayer.answerToConnection answerToConnectionWith
  simp only [nextInfo, lostAt, fragment.1, fragment.2, ne_eq, not_false_eq_true, true_and,
    and_self, if_true]
  rw [bind_of_some read]
  by_cases granted : memory.process.faults.next .realloc = .done
  · rw [if_pos granted] at resized
    obtain ⟨moved, heap, ran, grown⟩ := resized
    have permitted : allocate .realloc memory.process =
        some (true, memory.process.spend .realloc) := by
      rw [allocate, granted]
      rfl
    have pointed := (grown.store (.conInfo (some moved) (info.data.getD []).length)).perm
      (List.Perm.swap ..)
    have filled := (pointed.store (.data (info.data.getD [] ++ uploadData))).perm
      (List.Perm.swap ..)
    have counted := filled.store
      (.conInfo (some moved) ((info.data.getD []).length + uploadData.length))
    rw [← List.length_append] at counted
    simp only [granted, if_true, not_true_eq_false, if_false]
    refine ⟨some conInfo, _, ⟨_, [], Reaches.held conInfo moved _, counted, rfl⟩, ?_⟩
    rw [bind_of_some ran, bind_of_some permitted]
    simp only
    rw [bind_of_some (writeInfo_run grown.head),
      bind_of_some (memcpy_run pointed.head (List.length_replicate ..)),
      bind_of_some (writeInfo_run filled.head), ← List.length_append]
    rfl
  · rw [if_neg granted] at resized
    have refused : allocate .realloc memory.process =
        some (false, memory.process.spend .realloc) := by
      rw [allocate]
      simp only [granted, decide_false]
    simp only [granted, if_false, not_false_eq_true, if_true]
    refine ⟨none, _, ⟨[], _, Reaches.null, ledger.free, ?_⟩, ?_⟩
    · cases data with
      | none => simp [null.mp rfl]
      | some pointer =>
          obtain ⟨bytes, found⟩ := Option.ne_none_iff_exists'.mp (null.not.mp (by simp))
          simp [found]
    · rw [bind_of_some resized, bind_of_some refused]
      simp only
      rw [bind_of_some (free_run ledger.head)]
      rfl

theorem system_paged {plain : Sys StorageStateOuter Answer} (paged : Ends plain Answer.Paged)
    (memory : HttpMemory) :
    system plain memory = (plain memory.process).bind fun (answer, process) =>
      if answer.pageSet then some (answer, { memory with process := process }) else none := by
  rw [system_apply]
  cases ran : plain memory.process with
  | none => rfl
  | some ended =>
      obtain ⟨answer, process⟩ := ended
      have set := Answer.pageSet_iff.mpr (paged _ _ _ ran)
      simp [set]

theorem answered {answer : Run Answer} {plain : Sys StorageStateOuter Answer} {conInfo : Pointer}
    {info : Option ConnectionInfo}
    (same : answer memory = (plain memory.process).bind fun (answer, process) =>
      if answer.pageSet then some (answer, { memory with process := process }) else none) :
    (do return (← answer, some conInfo) : Run (Answer × Option Pointer)) memory =
      ((do return (← plain, info) : Sys StorageStateOuter (Answer × Option ConnectionInfo))
        memory.process).bind fun ((answer, _), process) =>
          if answer.pageSet then
            some ((answer, some conInfo), { memory with process := process })
          else none := by
  change (answer memory).bind _ = _
  rw [same, Posix.bind_apply, Option.bind_assoc, Option.bind_assoc]
  refine congrArg _ (funext fun ended => ?_)
  obtain ⟨answer, process⟩ := ended
  simp only [Posix.pure_apply, Option.bind_some]
  split
  · rfl
  · rfl

/-- What one callback comes to: what it comes to without addresses, when that sets the page. -/
theorem answerToConnection_run {conCls : Option Pointer} {info : Option ConnectionInfo}
    (reaches : Reaches conCls info cells)
    (ledger : Ledger others.heap memory.heap (cells ++ rest)) (uploadData : Bytes) :
    ∃ next heap,
      Leaves others rest (lostAt request info (.callback uploadData memory.process.faults))
        (nextInfo request info (.callback uploadData memory.process.faults)) next heap ∧
      answerToConnection placement request uploadData conCls memory =
        (StorageLayer.answerToConnection request uploadData info memory.process).bind
          fun ((answer, _), process) =>
            if answer.pageSet then
              some ((answer, next), { process := process, heap := heap })
            else none := by
  cases conCls with
  | none =>
      obtain ⟨rfl, rfl⟩ : info = none ∧ cells = [] := by
        cases reaches
        exact ⟨rfl, rfl⟩
      obtain ⟨pointer, unused, allocated⟩ := @malloc_run others placement memory rest ledger
        (.conInfo none 0)
      have drops : lostAt request none (.callback uploadData memory.process.faults) = [] := by
        simp [lostAt]
      rw [drops]
      unfold answerToConnection StorageLayer.answerToConnection answerToConnectionWith
      by_cases granted : memory.process.faults.next .malloc = .done
      · rw [if_pos granted] at allocated
        have permitted : Posix.allocate .malloc memory.process =
            some (true, memory.process.spend .malloc) := by
          rw [Posix.allocate, granted]
          rfl
        refine ⟨some pointer, _, ⟨[(pointer, .conInfo none 0)], [], ?_,
          ledger.allocate unused _, rfl⟩, ?_⟩
        · rw [nextInfo, if_pos granted]
          exact Reaches.empty pointer
        · simp only
          rw [bind_of_some allocated, bind_of_some permitted]
          rfl
      · rw [if_neg granted] at allocated
        have refused : Posix.allocate .malloc memory.process =
            some (false, memory.process.spend .malloc) := by
          rw [Posix.allocate]
          simp only [granted, decide_false]
        refine ⟨none, _, ⟨[], [], ?_, ledger, rfl⟩, ?_⟩
        · rw [nextInfo, if_neg granted]
          exact Reaches.null
        · simp only
          rw [bind_of_some allocated, bind_of_some refused]
          rfl
  | some conInfo =>
      obtain ⟨body, rfl⟩ : ∃ body, info = some body := by
        cases reaches
        · exact ⟨_, rfl⟩
        · exact ⟨_, rfl⟩
      by_cases fragment : request.method = ascii "POST" ∧ uploadData ≠ []
      · exact answerToConnection_fragment reaches ledger fragment
      · have drops : lostAt request (some body) (.callback uploadData memory.process.faults) =
            [] := by
          rw [lostAt, if_neg]
          exact fun all => fragment ⟨all.1, all.2.1⟩
        rw [drops, nextInfo, if_neg fragment]
        refine ⟨some conInfo, memory.heap, Leaves.same reaches ledger, ?_⟩
        unfold answerToConnection StorageLayer.answerToConnection answerToConnectionWith
        simp only [if_neg fragment]
        by_cases post : request.method = ascii "POST"
        · simp only [if_pos post]
          exact answered (answerPost_run reaches ledger)
        · simp only [if_neg post]
          split
          · exact answered (system_paged (answerGet_paged request) memory)
          · split
            · exact answered (system_paged (answerDelete_paged request) memory)
            · rfl

theorem requestCompleted_run {conCls : Option Pointer} {info : Option ConnectionInfo}
    (reaches : Reaches conCls info cells)
    (ledger : Ledger others.heap memory.heap (cells ++ rest)) :
    ∃ heap, requestCompleted conCls memory = some ((), { memory with heap := heap }) ∧
      Ledger others.heap heap rest := by
  cases reaches with
  | null => exact ⟨_, rfl, ledger⟩
  | empty conInfo =>
      refine ⟨_, ?_, ledger.free⟩
      rw [requestCompleted, bind_of_some (@readInfo_run memory.process _ _ _ _ ledger.head)]
      exact free_run ledger.head
  | held conInfo data body =>
      have alone := (ledger.perm (List.Perm.swap ..)).free
      refine ⟨_, ?_, alone.free⟩
      rw [requestCompleted, bind_of_some (@readInfo_run memory.process _ _ _ _ ledger.head)]
      simp only [Option.isSome_some, if_true]
      rw [bind_of_some (@free_run memory.process _ _ _ (ledger.perm (List.Perm.swap ..)).head)]
      exact free_run alone.head

end HttpMemory

section Daemon

variable {RequestId : Type*} [DecidableEq RequestId] {others : OtherBlocks}
  {placement : Placement} {requests : RequestId → HttpRequest}

structure Accounted (others : OtherBlocks) (daemon : HttpDaemon RequestId)
    (server : HttpServer RequestId) (dropped : List Bytes) : Prop where
  storage : daemon.storage = server.storage
  blocks : ∃ (ids : List RequestId) (cells : RequestId → List (Pointer × HttpBlock))
    (lost : List (Pointer × HttpBlock)), ids.Nodup ∧
      (∀ id, Reaches (daemon.conCls id) (server.conCls id) (cells id)) ∧
      (∀ id, id ∉ ids → cells id = []) ∧
      Ledger others.heap daemon.heap (ids.flatMap cells ++ lost) ∧
      lost.map Prod.snd = dropped.map HttpBlock.data

omit [DecidableEq RequestId] in
theorem start_accounted (others : OtherBlocks) (storage : Storage) :
    Accounted others (HttpDaemon.start others storage : HttpDaemon RequestId)
      (HttpServer.start storage) [] :=
  ⟨rfl, [], fun _ => [], [], List.nodup_nil, fun _ => Reaches.null, fun _ _ => rfl,
    Ledger.empty others.heap, rfl⟩

/-- One request at a time: what it leaves, with what the others reach, is accounted for. -/
theorem Accounted.focus {daemon : HttpDaemon RequestId} {server : HttpServer RequestId}
    {dropped : List Bytes} (accounted : Accounted others daemon server dropped) (id : RequestId) :
    ∃ mine rest, Reaches (daemon.conCls id) (server.conCls id) mine ∧
      Ledger others.heap daemon.heap (mine ++ rest) ∧
      ∀ bodies kept next heap storage, HttpMemory.Leaves others rest bodies kept next heap →
        Accounted others ⟨storage, heap, Function.update daemon.conCls id next⟩
          ⟨storage, Function.update server.conCls id kept⟩ (dropped ++ bodies) := by
  obtain ⟨ids, cells, lost, nodup, reaches, beyond, ledger, gone⟩ := accounted.blocks
  have elsewhere : id ∉ ids.erase id := nodup.not_mem_erase
  have first : (id :: ids.erase id).flatMap cells = cells id ++ (ids.erase id).flatMap cells :=
    List.flatMap_cons
  have same : (ids.flatMap cells).Perm ((id :: ids.erase id).flatMap cells) := by
    by_cases member : id ∈ ids
    · exact (List.perm_cons_erase member).flatMap_right cells
    · rw [List.erase_of_not_mem member, List.flatMap_cons, beyond id member, List.nil_append]
  refine ⟨cells id, (ids.erase id).flatMap cells ++ lost, reaches id, ?_, ?_⟩
  · rw [← List.append_assoc, ← first]
    exact ledger.perm (same.append_right lost)
  · rintro bodies kept next heap storage ⟨after, fresh, leads, left, held⟩
    refine ⟨rfl, id :: ids.erase id, Function.update cells id after, lost ++ fresh,
      List.nodup_cons.mpr ⟨elsewhere, nodup.erase id⟩, ?_, ?_, ?_, ?_⟩
    · intro other
      by_cases own : other = id
      · subst own
        simpa using leads
      · simpa [own] using reaches other
    · intro other absent
      rw [List.mem_cons, not_or] at absent
      rw [Function.update_of_ne absent.1]
      exact beyond other fun member => absent.2 ((List.mem_erase_of_ne absent.1).mpr member)
    · have others_same : (ids.erase id).flatMap (Function.update cells id after) =
          (ids.erase id).flatMap cells := by
        refine List.flatMap_congr fun other member => ?_
        have different : other ≠ id := fun own => elsewhere (own ▸ member)
        exact Function.update_of_ne different ..
      rw [List.flatMap_cons, Function.update_self, others_same]
      refine left.perm ?_
      rw [List.append_assoc, ← List.append_assoc _ lost fresh]
      exact List.Perm.append_left after List.perm_append_comm
    · rw [List.map_append, List.map_append, gone, held]

theorem happen_conCls {server after : HttpServer RequestId}
    {event : HttpEvent RequestId} {output : Option Answer × List NewChunk}
    (happened : happen handleNewChunk requests server event = some (output, after)) :
    after.conCls = Function.update server.conCls event.id
      (nextInfo (requests event.id) (server.conCls event.id) event.happening) := by
  funext id
  by_cases own : id = event.id
  · subst own
    rw [Function.update_self]
    exact (happen_separate requests).own happened
  · rw [Function.update_of_ne own]
    exact (happen_separate requests).others happened id own

theorem occur_step {daemon : HttpDaemon RequestId} {server : HttpServer RequestId}
    {dropped : List Bytes} (accounted : Accounted others daemon server dropped)
    (event : HttpEvent RequestId) :
    ∃ next heap,
      (∀ storage, Accounted others ⟨storage, heap, next⟩
        ⟨storage, Function.update server.conCls event.id
          (nextInfo (requests event.id) (server.conCls event.id) event.happening)⟩
        (dropped ++ lostAt (requests event.id) (server.conCls event.id) event.happening)) ∧
      occur placement requests daemon event =
        (happen handleNewChunk requests server event).bind fun ((answer, _), after) =>
          if answer.all Answer.pageSet then
            some (answer, ⟨after.storage, heap, next⟩)
          else none := by
  obtain ⟨mine, rest, reaches, ledger, goesOn⟩ := accounted.focus event.id
  obtain ⟨id, happening⟩ := event
  cases happening with
  | completed =>
      obtain ⟨heap, ran, left⟩ := @HttpMemory.requestCompleted_run others
        (daemon.memory fun _ => []) mine rest _ _ reaches ledger
      refine ⟨_, heap, fun storage => goesOn [] none none heap storage
        ⟨[], [], Reaches.null, left, rfl⟩, ?_⟩
      simp only [occur, happen]
      rw [ran, accounted.storage.symm]
      rfl
  | callback uploadData faults =>
      obtain ⟨next, heap, leaves, ran⟩ := @HttpMemory.answerToConnection_run others placement
        (daemon.memory faults) mine rest (requests id) _ _ reaches ledger uploadData
      refine ⟨_, heap, fun storage => goesOn _ _ next heap storage leaves, ?_⟩
      simp only [occur, happen, recordedAnswer_handleNewChunk]
      rw [ran, HttpDaemon.memory, accounted.storage]
      cases StorageLayer.answerToConnection (requests id) uploadData (server.conCls id)
          (server.storage.process faults) with
      | none => rfl
      | some ended =>
          obtain ⟨⟨answer, kept⟩, process⟩ := ended
          simp only [Option.map_some, Option.bind_some, Option.all_some]
          split
          · rfl
          · rfl

theorem pageSet_iff_forall {output : Option Answer} :
    output.all Answer.pageSet = true ↔ ∀ answer ∈ output, answer.Paged := by
  cases output with
  | none => simp
  | some answer => simp [Answer.pageSet_iff]

section Step

variable {daemon : HttpDaemon RequestId} {server : HttpServer RequestId} {dropped : List Bytes}
  {event : HttpEvent RequestId} {answer : Option Answer}

theorem occur_happens {next : HttpDaemon RequestId}
    (accounted : Accounted others daemon server dropped)
    (occurred : occur placement requests daemon event = some (answer, next)) :
    ∃ calls after, happen handleNewChunk requests server event = some ((answer, calls), after) ∧
      (∀ given ∈ answer, given.Paged) ∧
      Accounted others next after
        (dropped ++ lostAt (requests event.id) (server.conCls event.id) event.happening) := by
  obtain ⟨_, _, still, same⟩ := @occur_step _ _ _ placement requests _ _ _ accounted event
  rw [same] at occurred
  obtain ⟨⟨⟨given, calls⟩, after⟩, happened, ended⟩ := Option.bind_eq_some_iff.mp occurred
  simp only [Option.ite_none_right_eq_some, Option.some.injEq, Prod.mk.injEq] at ended
  obtain ⟨set, rfl, rfl⟩ := ended
  refine ⟨calls, after, happened, pageSet_iff_forall.mp set, ?_⟩
  have kept := still after.storage
  rw [← happen_conCls happened] at kept
  exact kept

theorem happen_occurs {calls : List NewChunk} {after : HttpServer RequestId}
    (accounted : Accounted others daemon server dropped)
    (happened : happen handleNewChunk requests server event = some ((answer, calls), after))
    (paged : ∀ given ∈ answer, given.Paged) :
    ∃ next, occur placement requests daemon event = some (answer, next) := by
  obtain ⟨_, _, _, same⟩ := @occur_step _ _ _ placement requests _ _ _ accounted event
  rw [same, happened, Option.bind_some]
  exact ⟨_, if_pos (pageSet_iff_forall.mpr paged)⟩

end Step

section Run

variable {daemon final : HttpDaemon RequestId} {server last : HttpServer RequestId}
  {dropped : List Bytes} {events : List (HttpEvent RequestId)}
  {shown : List (HttpEvent RequestId × (Option Answer × List NewChunk))}

theorem run_occur_happens {trace : List (HttpEvent RequestId × Option Answer)}
    (accounted : Accounted others daemon server dropped)
    (ran : run (occur placement requests) daemon events = some (trace, final)) :
    ∃ shown last, run (happen handleNewChunk requests) server events = some (shown, last) ∧
      trace = shown.map (fun entry => (entry.1, entry.2.1)) ∧
      (∀ entry ∈ shown, ∀ given ∈ entry.2.1, given.Paged) ∧
      Accounted others final last (dropped ++ lostBodies requests server.conCls events) := by
  induction events generalizing daemon server dropped trace with
  | nil =>
      obtain ⟨rfl, rfl⟩ := Prod.mk.inj (Option.some.inj ran)
      exact ⟨[], server, rfl, rfl, by simp, by simpa [lostBodies] using accounted⟩
  | cons event rest ih =>
      obtain ⟨answer, next, tail, occurred, finished, rfl⟩ := run_cons ran
      obtain ⟨calls, after, happened, set, kept⟩ := occur_happens accounted occurred
      obtain ⟨shown, last, followed, rfl, paged, accounts⟩ := ih kept finished
      refine ⟨_, last, run_cons_of_step happened followed, rfl, ?_, ?_⟩
      · rw [List.forall_mem_cons]
        exact ⟨set, paged⟩
      · rw [happen_conCls happened, List.append_assoc] at accounts
        exact accounts

theorem run_happen_occurs (accounted : Accounted others daemon server dropped)
    (ran : run (happen handleNewChunk requests) server events = some (shown, last))
    (paged : ∀ entry ∈ shown, ∀ given ∈ entry.2.1, given.Paged) :
    (run (occur placement requests) daemon events).isSome := by
  induction events generalizing daemon server dropped shown with
  | nil => rfl
  | cons event rest ih =>
      obtain ⟨⟨answer, calls⟩, after, tail, happened, finished, rfl⟩ := run_cons ran
      rw [List.forall_mem_cons] at paged
      obtain ⟨next, occurred⟩ := @happen_occurs _ _ _ placement _ _ _ _ _ _ _ _ accounted happened
        paged.1
      obtain ⟨_, _, same, _, kept⟩ := occur_happens accounted occurred
      obtain ⟨_, rfl⟩ := Prod.mk.inj (Option.some.inj (happened.symm.trans same))
      obtain ⟨⟨trace, final⟩, finishes⟩ := Option.isSome_iff_exists.mp (ih kept finished paged.2)
      rw [run_cons_of_step occurred finishes]
      rfl

end Run

omit [DecidableEq RequestId] in
theorem Accounted.left {daemon : HttpDaemon RequestId} {server : HttpServer RequestId}
    {dropped : List Bytes} (accounted : Accounted others daemon server dropped)
    (closed : ∀ id, daemon.conCls id = none) :
    ∃ left, Ledger others.heap daemon.heap left ∧
      left.map Prod.snd = dropped.map HttpBlock.data := by
  obtain ⟨ids, cells, lost, _, reaches, _, ledger, gone⟩ := accounted.blocks
  have nothing : ∀ id, cells id = [] := by
    intro id
    have mine := reaches id
    rw [closed id] at mine
    generalize server.conCls id = info at mine
    generalize cells id = blocks at mine ⊢
    cases mine
    rfl
  have empty : ids.flatMap cells = [] := List.flatMap_eq_nil_iff.mpr fun id _ => nothing id
  rw [empty, List.nil_append] at ledger
  exact ⟨lost, ledger, gone⟩

/-- Whatever the order of the callbacks and completions: the run with pointers is the run
without them, as long as every answer sets its page, so no block is used after it is freed and
none is freed twice; and when all requests are over, what is still allocated are the bodies
whose `realloc` failed. -/
theorem callbacks_accounted (placement : Placement) (others : OtherBlocks)
    (requests : RequestId → HttpRequest) (storage : Storage)
    (events : List (HttpEvent RequestId)) :
    ((run (occur placement requests) (HttpDaemon.start others storage) events).isSome ↔
      ∃ shown last, run (happen handleNewChunk requests) (HttpServer.start storage) events =
          some (shown, last) ∧ ∀ entry ∈ shown, ∀ given ∈ entry.2.1, given.Paged) ∧
    ∀ trace final,
      run (occur placement requests) (HttpDaemon.start others storage) events =
        some (trace, final) →
      (∃ shown last, run (happen handleNewChunk requests) (HttpServer.start storage) events =
          some (shown, last) ∧ trace = shown.map (fun entry => (entry.1, entry.2.1)) ∧
          final.storage = last.storage) ∧
      ((∀ id, final.conCls id = none) →
        (∃ left, Ledger others.heap final.heap left ∧
          left.map Prod.snd = (lostBodies requests (fun _ => none) events).map HttpBlock.data) ∧
        (final.heap = others.heap ↔ lostBodies requests (fun _ => none) events = [])) := by
  have started : Accounted others (HttpDaemon.start others storage : HttpDaemon RequestId)
      (HttpServer.start storage) [] := start_accounted others storage
  refine ⟨⟨?_, ?_⟩, ?_⟩
  · intro defined
    obtain ⟨⟨trace, final⟩, ran⟩ := Option.isSome_iff_exists.mp defined
    obtain ⟨shown, last, followed, _, paged, _⟩ := run_occur_happens started ran
    exact ⟨shown, last, followed, paged⟩
  · rintro ⟨shown, last, ran, paged⟩
    exact run_happen_occurs started ran paged
  · intro trace final ran
    obtain ⟨shown, last, followed, seen, _, accounted⟩ := run_occur_happens started ran
    refine ⟨⟨shown, last, followed, seen, accounted.storage⟩, fun closed => ?_⟩
    obtain ⟨left, ledger, gone⟩ := accounted.left closed
    refine ⟨⟨left, ledger, gone⟩, ?_⟩
    rw [ledger.eq_base_iff, ← List.map_eq_nil_iff (f := Prod.snd), gone, List.map_eq_nil_iff]
    rfl

end Daemon

/-- The second `realloc` of an upload fails. -/
example : lostBodies (fun _ => newChunkRequest (ascii "f") (ascii "0")) (fun _ => none)
    [⟨(), .callback [] fun _ => []⟩, ⟨(), .callback (ascii "ab") fun _ => []⟩,
      ⟨(), .callback (ascii "c") fun _ => [.refused]⟩, ⟨(), .completed⟩] = [ascii "ab"] := by
  decide +kernel

end DistributedFileSystem.StorageLayer
