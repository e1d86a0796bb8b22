import DistributedFileSystem.Library.Folds
import DistributedFileSystem.Master.ReplicaPlacement

/-!
The upload of the client (`client/insertFile.ts`,
`master/getChunkServerToInsertTo.ts`): a file goes chunk by chunk to the
addresses that the master answers with.
-/

namespace DistributedFileSystem.Client

open ByteString Folds Master

def CHUNK_SIZE : Nat := 8 * 1024

def totalChunks (fileBuffer : Bytes) : Nat := (fileBuffer.length + (CHUNK_SIZE - 1)) / CHUNK_SIZE

def chunkOf (fileBuffer : Bytes) (chunkId : Nat) : Bytes :=
  let start := chunkId * CHUNK_SIZE
  let stop := min (start + CHUNK_SIZE) fileBuffer.length
  (fileBuffer.drop start).take (stop - start)

/-- What the request for the addresses of a chunk meets: the registry, and the order
in which the set of addresses is walked. -/
structure WriteRequest (replicationCount : Int) where
  storage : TcpStorage
  reachable : storage.Reachable replicationCount
  resolved : Bool
  order : List IpAddr → List IpAddr
  reorders : ∀ addresses, (order addresses).Perm addresses

/-- `none` where the source has `null`: the request is rejected, or the handler panics. -/
def getChunkServerToAddChunkTo {replicationCount : Int} (request : WriteRequest replicationCount) :
    Option (List IpAddr) :=
  if request.resolved then
    (returnServerToWriteChunk replicationCount request.storage).map
      fun (addresses, _) => request.order addresses
  else none

structure Post where
  location : IpAddr
  fileName : Bytes
  chunkId : Bytes
  chunk : Bytes
  deriving DecidableEq, Repr

/-- `error` covers every rejection, a status outside 200 to 299 among them. -/
inductive Response where
  | error
  | status (code : Nat)
  deriving DecidableEq, Repr

structure Session where
  responses : List Response
  log : List (Post × Response)
  deriving DecidableEq, Repr

inductive Halt where
  | threw
  | pending
  deriving DecidableEq, Repr

def untilUploaded (post : Post) (log : List (Post × Response)) :
    List Response → Except Halt Session
  | [] => .error .pending
  | .error :: responses => untilUploaded post (log ++ [(post, .error)]) responses
  | .status code :: responses =>
      if code = 200 then .ok ⟨responses, log ++ [(post, .status code)]⟩
      else untilUploaded post (log ++ [(post, .status code)]) responses

def postOf (fileName fileBuffer : Bytes) (chunkId : Nat) (location : IpAddr) : Post :=
  ⟨location, fileName, digits chunkId, chunkOf fileBuffer chunkId⟩

section Upload

variable {replicationCount : Int} (fileName fileBuffer : Bytes)
  (requests : Nat → WriteRequest replicationCount)

def uploadTo (chunkId : Nat) (session : Session) (location : IpAddr) : Except Halt Session :=
  untilUploaded (postOf fileName fileBuffer chunkId location) session.log session.responses

def insertChunk (session : Session) (chunkId : Nat) : Except Halt Session :=
  match getChunkServerToAddChunkTo (requests chunkId) with
  | none => .error .threw
  | some locations => locations.foldlM (uploadTo fileName fileBuffer chunkId) session

end Upload

/-- `file` is what `readFileSync` yields; it throws on `none`. -/
def insertFile {replicationCount : Int} (file : Option Bytes) (fileName : Bytes)
    (requests : Nat → WriteRequest replicationCount) (session : Session) :
    Except Halt (Bool × Session) :=
  match file with
  | none => .error .threw
  | some fileBuffer =>
      ((List.range (totalChunks fileBuffer)).foldlM
        (insertChunk fileName fileBuffer requests) session).map fun session => (true, session)

def Acknowledged (fileName fileBuffer : Bytes) (session : Session) (chunkId : Nat) : Prop :=
  ∃ location, (postOf fileName fileBuffer chunkId location, Response.status 200) ∈ session.log

def WriteRequest.Fails {replicationCount : Int} (request : WriteRequest replicationCount) : Prop :=
  request.resolved = false ∨ returnServerToWriteChunk replicationCount request.storage = none

theorem getChunkServer_eq_none_iff {replicationCount : Int}
    {request : WriteRequest replicationCount} :
    getChunkServerToAddChunkTo request = none ↔ request.Fails := by
  unfold getChunkServerToAddChunkTo WriteRequest.Fails
  cases request.resolved <;> simp

theorem getChunkServer_eq_nil_iff {replicationCount : Int}
    {request : WriteRequest replicationCount} {locations : List IpAddr}
    (answered : getChunkServerToAddChunkTo request = some locations) :
    locations = [] ↔ replicationCount ≤ 0 ∨ request.storage.connections = [] := by
  unfold getChunkServerToAddChunkTo at answered
  split at answered
  · obtain ⟨⟨addresses, next⟩, returned, rfl⟩ := Option.map_eq_some_iff.mp answered
    rw [← returned_eq_nil_iff returned]
    constructor
    · intro empty
      exact ((request.reorders addresses).symm.trans (List.Perm.of_eq empty)).eq_nil
    · intro empty
      exact ((request.reorders addresses).trans (List.Perm.of_eq empty)).eq_nil
  · contradiction

structure Uploaded (post : Post) (log : List (Post × Response)) (session : Session) : Prop where
  keeps : log ⊆ session.log
  acknowledged : (post, .status 200) ∈ session.log
  only : ∀ entry ∈ session.log, entry ∈ log ∨ entry.1 = post

theorem Uploaded.retried {post : Post} {response : Response} {log : List (Post × Response)}
    {session : Session} (uploaded : Uploaded post (log ++ [(post, response)]) session) :
    Uploaded post log session := by
  refine ⟨fun entry member => uploaded.keeps (List.mem_append_left _ member),
    uploaded.acknowledged, ?_⟩
  intro entry member
  rcases uploaded.only entry member with earlier | own
  · rw [List.mem_append, List.mem_singleton] at earlier
    exact earlier.imp_right fun same => by rw [same]
  · exact Or.inr own

theorem untilUploaded_uploaded {post : Post} {log : List (Post × Response)}
    {responses : List Response} {session : Session}
    (ran : untilUploaded post log responses = .ok session) : Uploaded post log session := by
  induction responses generalizing log with
  | nil => contradiction
  | cons response responses ih =>
      cases response with
      | error => exact (ih ran).retried
      | status code =>
          rw [untilUploaded] at ran
          split at ran
          · rename_i same
            subst same
            obtain rfl := Except.ok.inj ran
            refine ⟨List.subset_append_left _ _, by simp, ?_⟩
            intro entry member
            rw [List.mem_append, List.mem_singleton] at member
            exact member.imp_right fun same => by rw [same]
          · exact (ih ran).retried

section Log

variable {replicationCount : Int} {fileName fileBuffer : Bytes}
  {requests : Nat → WriteRequest replicationCount} {session next : Session}

theorem Acknowledged.mono {chunkId : Nat}
    (acknowledged : Acknowledged fileName fileBuffer session chunkId)
    (keeps : session.log ⊆ next.log) : Acknowledged fileName fileBuffer next chunkId := by
  obtain ⟨location, member⟩ := acknowledged
  exact ⟨location, keeps member⟩

theorem insertChunk_locations {chunkId : Nat}
    (ran : insertChunk fileName fileBuffer requests session chunkId = .ok next) :
    ∃ locations, getChunkServerToAddChunkTo (requests chunkId) = some locations ∧
      locations.foldlM (uploadTo fileName fileBuffer chunkId) session = .ok next := by
  unfold insertChunk at ran
  split at ran
  · contradiction
  · exact ⟨_, ‹_›, ran⟩

theorem insertChunk_keeps {chunkId : Nat}
    (ran : insertChunk fileName fileBuffer requests session chunkId = .ok next) :
    session.log ⊆ next.log := by
  obtain ⟨locations, _, uploads⟩ := insertChunk_locations ran
  refine @foldlM_keeps _ _ _ (uploadTo fileName fileBuffer chunkId)
    (fun now => session.log ⊆ now.log) locations session next ?_ uploads (List.Subset.refl _)
  intro before location after _ turn earlier
  exact List.Subset.trans earlier (untilUploaded_uploaded turn).keeps

theorem insertChunk_acknowledged {chunkId : Nat} {locations : List IpAddr}
    (answered : getChunkServerToAddChunkTo (requests chunkId) = some locations)
    (nonempty : locations ≠ [])
    (ran : insertChunk fileName fileBuffer requests session chunkId = .ok next) :
    Acknowledged fileName fileBuffer next chunkId := by
  obtain ⟨_, again, uploads⟩ := insertChunk_locations ran
  rw [answered, Option.some.injEq] at again
  subst again
  obtain ⟨location, member⟩ := List.exists_mem_of_ne_nil locations nonempty
  refine ⟨location, ?_⟩
  refine @foldlM_forall _ _ _ (uploadTo fileName fileBuffer chunkId) (fun session location =>
    (postOf fileName fileBuffer chunkId location, Response.status 200) ∈ session.log)
    locations session next ?_ ?_ uploads location member
  · intro before location after _ turn
    exact (untilUploaded_uploaded turn).acknowledged
  · intro before location after other turn earlier
    exact (untilUploaded_uploaded turn).keeps earlier

def FromAnswers (fileName fileBuffer : Bytes) (requests : Nat → WriteRequest replicationCount)
    (session : Session) : Prop :=
  ∀ entry ∈ session.log, ∃ chunkId locations, ∃ location ∈ locations,
    getChunkServerToAddChunkTo (requests chunkId) = some locations ∧
      entry.1 = postOf fileName fileBuffer chunkId location

theorem insertChunk_fromAnswers {chunkId : Nat}
    (ran : insertChunk fileName fileBuffer requests session chunkId = .ok next)
    (initial : FromAnswers fileName fileBuffer requests session) :
    FromAnswers fileName fileBuffer requests next := by
  obtain ⟨locations, answered, uploads⟩ := insertChunk_locations ran
  refine foldlM_keeps ?_ uploads initial
  intro before location after member turn earlier entry logged
  rcases (untilUploaded_uploaded turn).only entry logged with old | own
  · exact earlier entry old
  · exact ⟨chunkId, locations, location, member, answered, own⟩

end Log

def Completes (step : Session → Except Halt Session) : Prop :=
  ∃ responses, ∀ rest log, ∃ after, step ⟨responses ++ rest, log⟩ = .ok ⟨rest, after⟩

theorem foldlM_completes {Item : Type} {step : Session → Item → Except Halt Session}
    {items : List Item} (completes : ∀ item ∈ items, Completes fun session => step session item) :
    Completes fun session => items.foldlM step session := by
  induction items with
  | nil => exact ⟨[], fun rest log => ⟨log, rfl⟩⟩
  | cons item items ih =>
      rw [List.forall_mem_cons] at completes
      obtain ⟨first, turn⟩ := completes.1
      obtain ⟨others, turns⟩ := ih completes.2
      refine ⟨first ++ others, ?_⟩
      intro rest log
      obtain ⟨between, one⟩ := turn (others ++ rest) log
      obtain ⟨after, all⟩ := turns rest between
      refine ⟨after, ?_⟩
      simp only [List.append_assoc, List.foldlM_cons] at one ⊢
      rw [one]
      exact all

theorem insertChunk_completes {replicationCount : Int} (fileName fileBuffer : Bytes)
    {requests : Nat → WriteRequest replicationCount} {chunkId : Nat}
    (works : ¬(requests chunkId).Fails) :
    Completes fun session => insertChunk fileName fileBuffer requests session chunkId := by
  rw [← getChunkServer_eq_none_iff, ← ne_eq, Option.ne_none_iff_exists'] at works
  obtain ⟨locations, answered⟩ := works
  simp only [insertChunk, answered]
  apply foldlM_completes
  intro location _
  exact ⟨[.status 200], fun rest log => ⟨_, rfl⟩⟩

theorem insertChunks_answered {replicationCount : Int} {fileName content : Bytes}
    {requests : Nat → WriteRequest replicationCount} {start session : Session}
    (ran : (List.range (totalChunks content)).foldlM (insertChunk fileName content requests) start =
      .ok session) :
    ∀ chunkId < totalChunks content, ∃ locations,
      getChunkServerToAddChunkTo (requests chunkId) = some locations := by
  intro chunkId bound
  refine @foldlM_forall _ _ _ (insertChunk fileName content requests) (fun _ chunkId =>
    ∃ locations, getChunkServerToAddChunkTo (requests chunkId) = some locations)
    _ start session ?_ (fun _ _ _ _ _ => id) ran chunkId (List.mem_range.mpr bound)
  intro before chunkId after _ turn
  obtain ⟨locations, answered, _⟩ := insertChunk_locations turn
  exact ⟨locations, answered⟩

theorem insertFile_eq_ok {replicationCount : Int} {fileName content : Bytes}
    {requests : Nat → WriteRequest replicationCount} {start session : Session} {result : Bool} :
    insertFile (some content) fileName requests start = .ok (result, session) ↔
      result = true ∧ (List.range (totalChunks content)).foldlM
        (insertChunk fileName content requests) start = .ok session := by
  rw [insertFile]
  cases (List.range (totalChunks content)).foldlM (insertChunk fileName content requests) start with
  | error halt => simp [Except.map]
  | ok final => simp [Except.map, eq_comm]

/-- Whatever the storage nodes answer: an upload that is reported has every chunk
acknowledged, exactly when a request for addresses fails, or each of them finds a
connected node and asks for one. -/
theorem reported_upload_stored_iff {replicationCount : Int} (fileName content : Bytes)
    (requests : Nat → WriteRequest replicationCount) :
    (∀ responses session,
      insertFile (some content) fileName requests ⟨responses, []⟩ = .ok (true, session) →
      ∀ chunkId < totalChunks content, Acknowledged fileName content session chunkId) ↔
    (∃ chunkId < totalChunks content, (requests chunkId).Fails) ∨
      ∀ chunkId < totalChunks content,
        0 < replicationCount ∧ (requests chunkId).storage.connections ≠ [] := by
  constructor
  · intro stored
    by_contra neither
    simp only [not_or, not_exists, not_and, not_forall] at neither
    obtain ⟨works, chunkId, bound, vacant⟩ := neither
    obtain ⟨responses, completes⟩ := @foldlM_completes _ (insertChunk fileName content requests)
      (List.range (totalChunks content)) fun chunkId member =>
        insertChunk_completes fileName content (works chunkId (List.mem_range.mp member))
    obtain ⟨log, ran⟩ := completes [] []
    have origins : FromAnswers fileName content requests ⟨[], log⟩ := by
      refine foldlM_keeps ?_ ran (by simp [FromAnswers])
      intro before chunkId after _ turn
      exact insertChunk_fromAnswers turn
    obtain ⟨location, member⟩ := stored _ _ (insertFile_eq_ok.mpr ⟨rfl, ran⟩) chunkId bound
    obtain ⟨other, locations, _, somewhere, answered, same⟩ := origins _ member
    have own : chunkId = other := digits_injective (congrArg Post.chunkId same)
    subst own
    have empty := (getChunkServer_eq_nil_iff answered).mpr (by
      by_contra both
      simp only [not_or, not_le] at both
      exact vacant both.1 both.2)
    rw [empty] at somewhere
    contradiction
  · intro condition responses session returned chunkId bound
    obtain ⟨_, ran⟩ := insertFile_eq_ok.mp returned
    have answers := insertChunks_answered ran
    rcases condition with ⟨failing, inFile, fails⟩ | served
    · obtain ⟨locations, answered⟩ := answers failing inFile
      rw [getChunkServer_eq_none_iff.mpr fails] at answered
      contradiction
    refine foldlM_forall ?_ ?_ ran chunkId (List.mem_range.mpr bound)
    · intro before chunkId after member turn
      rw [List.mem_range] at member
      obtain ⟨locations, answered⟩ := answers chunkId member
      obtain ⟨positive, somebody⟩ := served chunkId member
      apply insertChunk_acknowledged answered _ turn
      rw [ne_eq, getChunkServer_eq_nil_iff answered, not_or, not_le]
      exact ⟨positive, somebody⟩
    · intro before chunkId after other turn earlier
      exact earlier.mono (insertChunk_keeps turn)

def nobodyConnected : WriteRequest 1 :=
  ⟨TcpStorage.new 1, .new, true, id, List.Perm.refl⟩

theorem nobodyConnected_unstored : ¬∀ (replicationCount : Int) (fileName content : Bytes)
    (requests : Nat → WriteRequest replicationCount) (responses : List Response)
    (session : Session),
    insertFile (some content) fileName requests ⟨responses, []⟩ = .ok (true, session) →
    ∀ chunkId < totalChunks content, Acknowledged fileName content session chunkId := by
  intro always
  obtain ⟨location, member⟩ := always 1 [97] [1] (fun _ => nobodyConnected) [] ⟨[], []⟩ rfl 0
    (by decide)
  simp at member

end DistributedFileSystem.Client
