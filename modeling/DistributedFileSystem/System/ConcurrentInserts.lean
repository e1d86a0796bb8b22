import DistributedFileSystem.StorageLayer.FirstKept
import DistributedFileSystem.System.InsertThenRead

/-!
Many clients that upload at the same time, and what can be read afterwards: each node is a
store that keeps what came first, as long as the chunks of one file do not come to it in
between those of another.
-/

namespace DistributedFileSystem.System

open ByteString Posix Transition Master StorageLayer Client

def afterPost (held : IpAddr → Chunks) (post : Post) : IpAddr → Chunks :=
  Function.update held post.location
    (PutOnce.put (held post.location) post.fileName (atoi post.chunkId) post.chunk)

def postsOf (fileName : Bytes) (posts : List Post) : List Post :=
  posts.filter fun post => post.fileName = fileName

def postsTo (location : IpAddr) (posts : List Post) : List Post :=
  posts.filter fun post => post.location = location

theorem foldl_afterPost (posts : List Post) (held : IpAddr → Chunks) (location : IpAddr)
    (fileName : Bytes) (id : Int32) :
    posts.foldl afterPost held location fileName id =
      (held location fileName id).or
        ((uploadsAt location (postsOf fileName posts)).lookup id) := by
  induction posts generalizing held with
  | nil => simp [uploadsAt, postsOf]
  | cons post rest ih =>
      rw [List.foldl_cons, ih]
      by_cases here : post.location = location
      · subst here
        rw [afterPost, Function.update_self, PutOnce.put]
        by_cases named : post.fileName = fileName
        · subst named
          by_cases same : id = atoi post.chunkId
          · subst same
            cases held post.location post.fileName (atoi post.chunkId) <;>
              simp [uploadsAt, postsOf]
          · simp [uploadsAt, postsOf, List.lookup_cons, beq_eq_false_iff_ne.mpr same, same]
        · simp [uploadsAt, postsOf, named, Ne.symm named]
      · rw [afterPost, Function.update_of_ne (Ne.symm here)]
        by_cases named : post.fileName = fileName
        · simp [uploadsAt, postsOf, named, here]
        · simp [uploadsAt, postsOf, named]

/-- The node has been sent nothing of the file yet, or the file is the one it was last sent. -/
def InTurn (earlier : List Post) (post : Post) : Prop :=
  (∀ other ∈ postsTo post.location earlier, other.fileName ≠ post.fileName) ∨
    (postsTo post.location earlier).getLast?.map Post.fileName = some post.fileName

instance (earlier : List Post) (post : Post) : Decidable (InTurn earlier post) :=
  inferInstanceAs (Decidable (_ ∨ _))

def TakeTurns : List Post → List Post → Prop
  | _, [] => True
  | earlier, post :: later => InTurn earlier post ∧ TakeTurns (earlier ++ [post]) later

def takeTurnsDecidable : ∀ earlier posts, Decidable (TakeTurns earlier posts)
  | _, [] => inferInstanceAs (Decidable True)
  | earlier, post :: later =>
      @instDecidableAnd _ _ (inferInstanceAs (Decidable (InTurn earlier post)))
        (takeTurnsDecidable (earlier ++ [post]) later)

instance (earlier posts : List Post) : Decidable (TakeTurns earlier posts) :=
  takeTurnsDecidable earlier posts

structure Stocked (start : IpAddr → Chunks) (nodes : Nodes) (history : List Post) : Prop where
  keeps : ∀ location, Keeps (nodes location) (history.foldl afterPost start location)
  last : ∀ location post, (postsTo location history).getLast? = some post →
    EndsWith post.fileName (nodes location)

def postLog (trace : List (Delivery × Client.Response)) : List (Post × Client.Response) :=
  trace.map fun event => (event.1.post, event.2)

theorem postLog_cons (event : Delivery × Client.Response)
    (trace : List (Delivery × Client.Response)) :
    postLog (event :: trace) = (event.1.post, event.2) :: postLog trace := rfl

section Deliver

variable {sent : Bytes → Option Bytes} {start : IpAddr → Chunks} {nodes next final : Nodes}
  {history : List Post}

theorem Stocked.begin (keeps : ∀ location, Keeps (nodes location) (start location)) :
    Stocked start nodes [] :=
  ⟨keeps, by simp [postsTo]⟩

theorem Stocked.endsWith (stocked : Stocked start nodes history) {post : Post}
    (new : ∀ id, start post.location post.fileName id = none) (inTurn : InTurn history post) :
    EndsWith post.fileName (nodes post.location) := by
  rcases inTurn with never | named
  · rintro ⟨id, present⟩
    rw [(stocked.keeps post.location).held, foldl_afterPost, new, Option.none_or,
      List.lookup_isSome_iff] at present
    obtain ⟨_, member, _⟩ := present
    obtain ⟨other, posted, _⟩ := List.mem_map.mp member
    simp only [postsOf, List.mem_filter, decide_eq_true_eq] at posted
    exact absurd posted.1.2 (never other (by simp [postsTo, posted]))
  · obtain ⟨last, found, same⟩ := Option.map_eq_some_iff.mp named
    rw [← same]
    exact stocked.last post.location last found

theorem Stocked.deliver (stocked : Stocked start nodes history) {delivery : Delivery}
    (valid : ValidName delivery.post.fileName)
    (carried : sent delivery.post.fileName = some delivery.post.fileName)
    (nonempty : delivery.post.chunk ≠ [])
    (new : ∀ id, start delivery.post.location delivery.post.fileName id = none)
    (inTurn : InTurn history delivery.post)
    {response : Client.Response}
    (delivered : System.deliver sent nodes delivery = some (response, next)) :
    response = .status 200 ∧ Stocked start next (history ++ [delivery.post]) := by
  obtain ⟨storage, stepped, keeps, ends⟩ := @Keeps.extend _ _ _ (atoi delivery.post.chunkId)
    (stocked.keeps delivery.post.location) valid _ nonempty (stocked.endsWith new inTurn)
  rw [deliver_saved carried nonempty stepped, Option.some.injEq, Prod.mk.injEq] at delivered
  obtain ⟨rfl, rfl⟩ := delivered
  refine ⟨rfl, ?_, ?_⟩
  · intro location
    rw [List.foldl_concat, afterPost]
    by_cases here : location = delivery.post.location
    · subst here
      rw [Function.update_self, Function.update_self]
      exact keeps
    · rw [Function.update_of_ne here, Function.update_of_ne here]
      exact stocked.keeps location
  · intro location post found
    by_cases here : location = delivery.post.location
    · subst here
      have added : postsTo delivery.post.location (history ++ [delivery.post]) =
          postsTo delivery.post.location history ++ [delivery.post] := by simp [postsTo]
      rw [added, List.getLast?_concat, Option.some.injEq] at found
      subst found
      rw [Function.update_self]
      exact ends
    · rw [Function.update_of_ne here]
      refine stocked.last location post ?_
      simpa [postsTo, Ne.symm here] using found

theorem Stocked.run {deliveries : List Delivery} {trace : List (Delivery × Client.Response)}
    (stocked : Stocked start nodes history)
    (ran : Transition.run (System.deliver sent) nodes deliveries = some (trace, final))
    (sound : ∀ entry ∈ postLog trace, ValidName entry.1.fileName ∧
      sent entry.1.fileName = some entry.1.fileName ∧ entry.1.chunk ≠ [] ∧
      ∀ location id, start location entry.1.fileName id = none)
    (turns : TakeTurns history ((postLog trace).map Prod.fst)) :
    (∀ entry ∈ postLog trace, entry.2 = .status 200) ∧
      Stocked start final (history ++ (postLog trace).map Prod.fst) := by
  induction deliveries generalizing nodes history trace with
  | nil =>
      obtain ⟨rfl, rfl⟩ := Prod.mk.inj (Option.some.inj ran)
      exact ⟨by simp [postLog], by simpa [postLog] using stocked⟩
  | cons delivery rest ih =>
      obtain ⟨response, next, tail, stepped, finished, rfl⟩ := run_cons ran
      rw [postLog_cons, List.forall_mem_cons] at sound
      obtain ⟨⟨valid, carried, nonempty, new⟩, later⟩ := sound
      obtain ⟨first, others⟩ := turns
      obtain ⟨accepted, after⟩ := stocked.deliver valid carried nonempty (new _) first stepped
      obtain ⟨all, ends⟩ := ih after finished later others
      rw [postLog_cons, List.forall_mem_cons, List.map_cons, List.append_cons]
      exact ⟨⟨accepted, all⟩, ends⟩

end Deliver

section Read

variable {sent : Bytes → Option Bytes} {fileName : Bytes} {nodes : Nodes}
  {held : IpAddr → Chunks} {registry : TcpStorage} {connection : ConnectionData} {id : Int32}
  {random : Nat → Nat} (keeps : ∀ location, Keeps (nodes location) (held location))
  (reported : Reported nodes registry)

include keeps reported

theorem advertised_held :
    Advertised fileName registry fun location => held location fileName := by
  refine ⟨?_, ?_⟩
  · intro connection member id
    rw [← (keeps connection.ip).held, ← (keeps connection.ip).indexed.lists_iff,
      reported.filesToChunks member]
    constructor
    · rintro ⟨mapping, within, named, listed⟩
      obtain ⟨file, inTable, rfl⟩ := List.mem_map.mp within
      exact ⟨file, inTable, named, listed⟩
    · rintro ⟨file, inTable, named, listed⟩
      exact ⟨mappingOf file, List.mem_map_of_mem inTable, named, listed⟩
  · intro connection member first within second also named same
    have names : (connection.filesToChunks.map FileMappings.filename).Nodup := by
      rw [reported.filesToChunks member, List.map_map]
      exact (keeps connection.ip).indexed.names
    exact List.inj_on_of_nodup_map names within also (named.trans same.symm)

omit reported in
theorem fetches_held (valid : ValidName fileName) (carried : sent fileName = some fileName)
    (connection : ConnectionData) (_ : connection ∈ registry.connections) (id : Int32)
    (bytes : Bytes) (present : held connection.ip fileName id = some bytes) :
    fetchFrom sent nodes connection.ip fileName id = some bytes := by
  have opened := @Keeps.read _ _ fileName id _ (keeps connection.ip) valid fileSystemClean_nothing
  rw [present] at opened
  exact fetchFrom_opened carried opened

/-- A file of which the nodes hold every chunk, and nothing else under its name, is read back. -/
theorem readFile_whole (valid : ValidName fileName) (carried : sent fileName = some fileName)
    {content : Bytes} (small : content.length ≤ 2 ^ 31 * CHUNK_SIZE)
    (own : ∀ location id bytes, held location fileName id = some bytes →
      ∃ chunkId < totalChunks content, Int32.ofNat chunkId = id ∧ chunkOf content chunkId = bytes)
    (all : ∀ chunkId < totalChunks content, ∃ connection ∈ registry.connections,
      (held connection.ip fileName (Int32.ofNat chunkId)).isSome) :
    readFile registry registry fileName (readingFrom sent nodes random) =
      (decide (content ≠ []), content) := by
  have few : totalChunks content ≤ 2 ^ 31 := by
    simp only [totalChunks, CHUNK_SIZE] at small ⊢
    omega
  have increasing : ((List.range (totalChunks content)).map Int32.ofNat).Pairwise (· < ·) := by
    have ordered := @inIdOrder_increasing (totalChunks content) (by omega)
    rwa [inIdOrder, Nat.sub_eq_zero_of_le few, List.range'_zero, List.nil_append,
      Nat.min_eq_left few] at ordered
  have ids : registry.getChunksForFile fileName =
      (List.range (totalChunks content)).map Int32.ofNat := by
    apply increasing_unique (getChunksForFile_increasing registry fileName) increasing
    intro id
    rw [mem_getChunksForFile, (advertised_held keeps reported).lists_iff, List.mem_map]
    constructor
    · rintro ⟨connection, _, present⟩
      obtain ⟨bytes, found⟩ := Option.isSome_iff_exists.mp present
      obtain ⟨chunkId, bound, same, _⟩ := own connection.ip id bytes found
      exact ⟨chunkId, List.mem_range.mpr bound, same⟩
    · rintro ⟨chunkId, inside, rfl⟩
      exact all chunkId (List.mem_range.mp inside)
  by_cases empty : content = []
  · rw [readFile_unlisted ⟨rfl, rfl, rfl, fun _ => rfl⟩ (by rw [ids, empty]; rfl), empty]
    rfl
  · have some : totalChunks content ≠ 0 := by
      have length := List.length_pos_iff.mpr empty
      simp only [totalChunks, CHUNK_SIZE]
      omega
    rw [(advertised_held keeps reported).read_eq (fetches_held keeps valid carried)
      (by simpa [ids] using some) fun id => chunkOf content (chunkIndex id)]
    · have inOrder : (List.range (totalChunks content)).flatMap
          (fun chunkId => chunkOf content (chunkIndex (Int32.ofNat chunkId))) =
            (List.range (totalChunks content)).flatMap (chunkOf content) := by
        apply List.flatMap_congr
        intro chunkId inside
        have bound := List.mem_range.mp inside
        rw [chunkIndex_ofNat (by omega)]
      rw [ids, List.flatMap_map, inOrder, flatMap_chunkOf_all, decide_eq_true empty]
    · intro connection _ id bytes present
      obtain ⟨chunkId, bound, rfl, same⟩ := own connection.ip id bytes present
      rw [chunkIndex_ofNat (by omega), same]

end Read

structure Uploader (replicationCount : Int) where
  fileName : Bytes
  content : Bytes
  requests : Nat → WriteRequest replicationCount
  connected : ∀ chunkId < totalChunks content, (requests chunkId).storage.connections ≠ []
  responses : List Client.Response
  session : Session
  returned : insertFile (some content) fileName requests ⟨responses, []⟩ = .ok (true, session)

def Uploader.StillConnected {replicationCount : Int} (uploader : Uploader replicationCount)
    (registry : TcpStorage) : Prop :=
  ∀ chunkId < totalChunks uploader.content,
    ∀ connection ∈ (uploader.requests chunkId).storage.connections,
      ∃ other ∈ registry.connections, other.ip = connection.ip

/-- The posts of all the clients, in the order in which the nodes answered them. -/
structure Interleaved (sent : Bytes → Option Bytes) {replicationCount : Int}
    (uploaders : List (Uploader replicationCount)) (nodes final : Nodes) where
  deliveries : List Delivery
  trace : List (Delivery × Client.Response)
  delivered : run (deliver sent) nodes deliveries = some (trace, final)
  theirs : ∀ entry ∈ postLog trace, ∃ uploader ∈ uploaders, uploader.fileName = entry.1.fileName
  logged : ∀ uploader ∈ uploaders, uploader.session.log =
    (postLog trace).filter fun entry => entry.1.fileName = uploader.fileName
  turns : TakeTurns [] ((postLog trace).map Prod.fst)

namespace Interleaved

variable {sent : Bytes → Option Bytes} {replicationCount : Int}
  {uploaders : List (Uploader replicationCount)} {nodes final : Nodes} {start : IpAddr → Chunks}
  (uploads : Interleaved sent uploaders nodes final)
  (keeps : ∀ location, Keeps (nodes location) (start location))
  (valid : ∀ uploader ∈ uploaders, ValidName uploader.fileName)
  (carried : ∀ uploader ∈ uploaders, sent uploader.fileName = some uploader.fileName)
  (new : ∀ uploader ∈ uploaders, ∀ location id, start location uploader.fileName id = none)
  {uploader : Uploader replicationCount} (member : uploader ∈ uploaders)

include uploads

def held (start : IpAddr → Chunks) : IpAddr → Chunks :=
  ((postLog uploads.trace).map Prod.fst).foldl afterPost start

theorem held_other {fileName : Bytes}
    (other : ∀ uploader ∈ uploaders, uploader.fileName ≠ fileName) (location : IpAddr) (id : Int32) :
    uploads.held start location fileName id = start location fileName id := by
  have none : postsOf fileName ((postLog uploads.trace).map Prod.fst) = [] := by
    rw [postsOf, List.filter_eq_nil_iff]
    intro post posted named
    obtain ⟨entry, listed, rfl⟩ := List.mem_map.mp posted
    obtain ⟨uploader, member, same⟩ := uploads.theirs entry listed
    exact other uploader member (same.trans (by simpa using named))
  rw [held, foldl_afterPost, none, uploadsAt, List.filter_nil, List.map_nil, List.lookup_nil,
    Option.or_none]

include keeps valid carried new

theorem stocked : (∀ entry ∈ postLog uploads.trace, entry.2 = .status 200) ∧
    ∀ location, Keeps (final location) (uploads.held start location) := by
  obtain ⟨accepted, ended⟩ := (Stocked.begin keeps).run uploads.delivered (by
    intro entry posted
    obtain ⟨uploader, member, named⟩ := uploads.theirs entry posted
    obtain ⟨chunkId, bound, location, _, same⟩ := insertFile_ownPosts uploader.returned entry (by
      rw [uploads.logged uploader member, List.mem_filter]
      exact ⟨posted, by simpa using named.symm⟩)
    rw [← named]
    refine ⟨valid uploader member, carried uploader member, ?_, new uploader member⟩
    rw [same, postOf]
    exact chunkOf_ne_nil bound) uploads.turns
  exact ⟨accepted, ended.keeps⟩

include member

theorem held_eq (location : IpAddr) (id : Int32) :
    uploads.held start location uploader.fileName id =
      (uploadsAt location
        (posts uploader.fileName uploader.content uploader.requests)).lookup id := by
  have accepted : Taken uploader.session := by
    intro entry listed
    rw [uploads.logged uploader member] at listed
    exact (uploads.stocked keeps valid carried new).1 entry (List.mem_filter.mp listed).1
  have posted := insertFile_posts uploader.returned accepted
  rw [uploads.logged uploader member] at posted
  rw [held, foldl_afterPost, new uploader member, Option.none_or, postsOf, List.filter_map,
    ← posted]
  rfl

/-- The nodes that were asked hold the chunks of the file, and no node holds anything else. -/
theorem held_iff {location : IpAddr} {id : Int32} {bytes : Bytes}
    (small : uploader.content.length ≤ 2 ^ 31 * CHUNK_SIZE) :
    uploads.held start location uploader.fileName id = some bytes ↔
      ∃ chunkId < totalChunks uploader.content,
        location ∈ locationsOf (uploader.requests chunkId) ∧
        Int32.ofNat chunkId = id ∧ chunkOf uploader.content chunkId = bytes := by
  have fits : ∀ chunkId < totalChunks uploader.content,
      chunkId < 2 ^ 31 ∧ atoi (digits chunkId) = Int32.ofNat chunkId := by
    intro chunkId bound
    simp only [totalChunks, CHUNK_SIZE] at small bound
    have few : chunkId < 2 ^ 31 := by omega
    exact ⟨few, atoi_digits (by omega)⟩
  rw [uploads.held_eq keeps valid carried new member]
  constructor
  · intro present
    obtain ⟨chunkId, bound, asked, same, whole⟩ := mem_uploadsAt.mp (mem_of_lookup present)
    exact ⟨chunkId, bound, asked, (fits chunkId bound).2.symm.trans same, whole⟩
  · rintro ⟨chunkId, bound, asked, rfl, rfl⟩
    have listed : (Int32.ofNat chunkId, chunkOf uploader.content chunkId) ∈ uploadsAt location
        (posts uploader.fileName uploader.content uploader.requests) :=
      mem_uploadsAt.mpr ⟨chunkId, bound, asked, (fits chunkId bound).2, rfl⟩
    have some : ((uploadsAt location (posts uploader.fileName uploader.content
        uploader.requests)).lookup (Int32.ofNat chunkId)).isSome := by
      rw [List.lookup_isSome_iff]
      exact ⟨_, listed, by simp⟩
    obtain ⟨bytes, found⟩ := Option.isSome_iff_exists.mp some
    obtain ⟨other, within, _, same, whole⟩ := mem_uploadsAt.mp (mem_of_lookup found)
    rw [(fits other within).2] at same
    have equal := congrArg chunkIndex same
    rw [chunkIndex_ofNat (by have := (fits other within).1; omega),
      chunkIndex_ofNat (by have := (fits chunkId bound).1; omega)] at equal
    rw [found, ← whole, equal]

end Interleaved

def nodePair : TcpStorage := ((TcpStorage.new 2).insert "a" (.v4 1)).insert "b" (.v4 2)

def bothNodes (order : List IpAddr → List IpAddr)
    (reorders : ∀ addresses, (order addresses).Perm addresses) : WriteRequest 2 :=
  ⟨nodePair, ((TcpStorage.Reachable.new).insert "a" (.v4 1)).insert "b" (.v4 2), true, order,
    reorders⟩

def oneByteUploader (fileName : Bytes) (byte : UInt8) (request : WriteRequest 2)
    (connected : request.storage.connections ≠ []) (first second : IpAddr)
    (asked : getChunkServerToAddChunkTo request = some [first, second]) : Uploader 2 where
  fileName := fileName
  content := [byte]
  requests := fun _ => request
  connected := fun _ _ => connected
  responses := [.status 200, .status 200]
  session := ⟨[], [(postOf fileName [byte] 0 first, .status 200),
    (postOf fileName [byte] 0 second, .status 200)]⟩
  returned := by
    rw [insertFile_eq_ok]
    have one : totalChunks [byte] = 1 := by simp [totalChunks, CHUNK_SIZE]
    rw [one, List.range_one, List.foldlM_cons, insertChunk, asked]
    exact ⟨rfl, rfl⟩

def firstUploader : Uploader 2 :=
  oneByteUploader (ascii "a") 120 (bothNodes id List.Perm.refl) (by decide) (.v4 2) (.v4 1)
    (by decide)

def secondUploader : Uploader 2 :=
  oneByteUploader (ascii "b") 121 (bothNodes List.reverse List.reverse_perm) (by decide) (.v4 1)
    (.v4 2) (by decide)

theorem singlePiece_ne_nil (byte : UInt8) : ∀ piece ∈ [[byte]], piece ≠ [] := by
  intro piece member
  rw [List.mem_singleton.mp member]
  exact List.cons_ne_nil byte []

theorem singlePiece_flatten (name : Bytes) (byte : UInt8) (location : IpAddr) :
    [[byte]].flatten = (postOf name [byte] 0 location).chunk := rfl

def singleChunk (name : Bytes) (byte : UInt8) (location : IpAddr) : Delivery where
  post := postOf name [byte] 0 location
  pieces := [[byte]]
  nonempty := singlePiece_ne_nil byte
  whole := singlePiece_flatten name byte location

def crossing : List Delivery :=
  [singleChunk (ascii "a") 120 (.v4 2), singleChunk (ascii "b") 121 (.v4 1),
    singleChunk (ascii "a") 120 (.v4 1), singleChunk (ascii "b") 121 (.v4 2)]

def nodePairReported (nodes : Nodes) : TcpStorage :=
  { nodePair with
    connections := [⟨"a", .v4 1, (nodes (.v4 1)).table.fileToChunkState.map mappingOf⟩,
      ⟨"b", .v4 2, (nodes (.v4 2)).table.fileToChunkState.map mappingOf⟩] }

end DistributedFileSystem.System
