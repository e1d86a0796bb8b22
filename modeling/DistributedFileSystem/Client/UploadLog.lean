import DistributedFileSystem.Client.InsertFile

/-! The posts of an upload, in order, when every one of them is taken at once. -/

namespace DistributedFileSystem.Client

open ByteString Folds Master

def locationsOf {replicationCount : Int} (request : WriteRequest replicationCount) : List IpAddr :=
  (getChunkServerToAddChunkTo request).getD []

section Posts

variable {replicationCount : Int} {fileName content : Bytes}
  {requests : Nat → WriteRequest replicationCount} {session next : Session}

def posts (fileName content : Bytes) (requests : Nat → WriteRequest replicationCount) :
    List Post :=
  (List.range (totalChunks content)).flatMap fun chunkId =>
    (locationsOf (requests chunkId)).map (postOf fileName content chunkId)

def Taken (session : Session) : Prop := ∀ entry ∈ session.log, entry.2 = .status 200

theorem Taken.mono (taken : Taken next) (keeps : session.log ⊆ next.log) : Taken session :=
  fun entry member => taken entry (keeps member)

theorem locationsOf_connected {request : WriteRequest replicationCount} {location : IpAddr}
    (member : location ∈ locationsOf request) :
    ∃ connection ∈ request.storage.connections, connection.ip = location := by
  unfold locationsOf getChunkServerToAddChunkTo at member
  split at member
  · cases returned : returnServerToWriteChunk replicationCount request.storage with
    | none => simp [returned] at member
    | some result =>
        obtain ⟨addresses, _⟩ := result
        rw [returned, Option.map_some, Option.getD_some,
          (request.reorders addresses).mem_iff] at member
        exact returned_connected returned member
  · simp at member

theorem untilUploaded_taken {post : Post} {log : List (Post × Response)}
    {responses : List Response} (ran : untilUploaded post log responses = .ok session)
    (taken : Taken session) : session.log = log ++ [(post, .status 200)] := by
  cases responses with
  | nil => contradiction
  | cons response responses =>
      have first : response = .status 200 ∨
          untilUploaded post (log ++ [(post, response)]) responses = .ok session := by
        cases response with
        | error => exact Or.inr ran
        | status code =>
            rw [untilUploaded] at ran
            split at ran
            · exact Or.inl (by simp [*])
            · exact Or.inr ran
      have accepted : response = .status 200 := by
        rcases first with accepted | again
        · exact accepted
        · exact taken (post, response) ((untilUploaded_uploaded again).keeps (by simp))
      subst accepted
      obtain rfl := Except.ok.inj ran
      rfl

theorem insertChunk_taken {chunkId : Nat}
    (ran : insertChunk fileName content requests session chunkId = .ok next) (taken : Taken next) :
    Taken session ∧ next.log.map Prod.fst = session.log.map Prod.fst ++
      (locationsOf (requests chunkId)).map (postOf fileName content chunkId) := by
  refine ⟨taken.mono (insertChunk_keeps ran), ?_⟩
  obtain ⟨locations, answered, uploads⟩ := insertChunk_locations ran
  have collected := @foldlM_collects _ _ _ (uploadTo fileName content chunkId) _
    (fun session => session.log.map Prod.fst)
    (fun location => [postOf fileName content chunkId location]) Taken locations session next
    (by
      intro before location after _ turn taken
      have logged := untilUploaded_taken turn taken
      refine ⟨taken.mono (untilUploaded_uploaded turn).keeps, ?_⟩
      rw [logged, List.map_append]
      rfl) uploads taken
  rw [collected.2, locationsOf, answered, Option.getD_some,
    ← @List.map_eq_flatMap _ _ (postOf fileName content chunkId)]

theorem insertFile_posts {responses : List Response}
    (returned : insertFile (some content) fileName requests ⟨responses, []⟩ = .ok (true, session))
    (taken : Taken session) : session.log.map Prod.fst = posts fileName content requests := by
  have collected := @foldlM_collects _ _ _ (insertChunk fileName content requests) _
    (fun session => session.log.map Prod.fst) _ Taken _ _ _
    (fun before chunkId after _ => insertChunk_taken) (insertFile_eq_ok.mp returned).2 taken
  simpa [posts] using collected.2

def OwnPosts (fileName content : Bytes) (requests : Nat → WriteRequest replicationCount)
    (session : Session) : Prop :=
  ∀ entry ∈ session.log, ∃ chunkId < totalChunks content,
    ∃ location ∈ locationsOf (requests chunkId),
      entry.1 = postOf fileName content chunkId location

theorem insertFile_ownPosts {responses : List Response}
    (returned : insertFile (some content) fileName requests ⟨responses, []⟩ = .ok (true, session)) :
    OwnPosts fileName content requests session := by
  have initial : OwnPosts fileName content requests ⟨responses, []⟩ := by simp [OwnPosts]
  refine foldlM_keeps ?_ (insertFile_eq_ok.mp returned).2 initial
  intro before chunkId after member turn earlier
  obtain ⟨locations, answered, uploads⟩ := insertChunk_locations turn
  refine foldlM_keeps ?_ uploads earlier
  intro between location later asked posted known entry logged
  rcases (untilUploaded_uploaded posted).only entry logged with old | own
  · exact known entry old
  · exact ⟨chunkId, List.mem_range.mp member, location, by rwa [locationsOf, answered], own⟩

theorem locationsOf_ne_nil {responses : List Response} (positive : 0 < replicationCount)
    (returned : insertFile (some content) fileName requests ⟨responses, []⟩ = .ok (true, session))
    {chunkId : Nat} (bound : chunkId < totalChunks content)
    (connected : (requests chunkId).storage.connections ≠ []) :
    locationsOf (requests chunkId) ≠ [] := by
  obtain ⟨locations, answered⟩ := insertChunks_answered (insertFile_eq_ok.mp returned).2 chunkId bound
  rw [locationsOf, answered, Option.getD_some, ne_eq, getChunkServer_eq_nil_iff answered]
  rintro (few | nobody)
  · omega
  · exact connected nobody

end Posts

end DistributedFileSystem.Client
