import DistributedFileSystem.Client.ReadFile
import DistributedFileSystem.Client.UploadLog
import DistributedFileSystem.StorageLayer.HttpExchange
import DistributedFileSystem.StorageLayer.UploadedFile

/-!
The client, the storage nodes it posts to and fetches from, and the registry that their
reports have filled.
-/

namespace DistributedFileSystem.System

open ByteString Posix Transition Master StorageLayer Client

abbrev Nodes := IpAddr → Storage

structure Delivery where
  post : Post
  pieces : List Bytes
  nonempty : ∀ piece ∈ pieces, piece ≠ []
  whole : pieces.flatten = post.chunk

/-- What the client makes of an answer; no page is a node that crashed. -/
def responseOf : Answer → Client.Response
  | .file _ => .status 200
  | .json status (some _) => if 200 ≤ status ∧ status < 300 then .status status else .error
  | _ => .error

/-- `sent` is what comes out of the header for a name, unless the client cannot send it. -/
def deliver (sent : Bytes → Option Bytes) (nodes : Nodes) (delivery : Delivery) :
    Option (Client.Response × Nodes) :=
  match sent delivery.post.fileName with
  | none => some (.error, nodes)
  | some name =>
      (exchange (newChunkRequest name delivery.post.chunkId) (nodes delivery.post.location)
        delivery.pieces).map fun (answer, storage) =>
          (responseOf answer, Function.update nodes delivery.post.location storage)

def fetchFrom (sent : Bytes → Option Bytes) (nodes : Nodes) (nodeHost : IpAddr) (filepath : Bytes)
    (chunk : Int32) : Option Bytes :=
  (sent filepath).bind fun name =>
    (exchange (chunkRequest name (decimal chunk)) (nodes nodeHost) []).bind fun (answer, _) =>
      match answer with
      | .file (.file bytes) => some bytes
      | _ => none

def readingFrom (sent : Bytes → Option Bytes) (nodes : Nodes) (random : Nat → Nat) :
    ReadEnvironment where
  prepared := true
  chunksResolved := true
  locationsResolved := true
  random := random
  fetch := fetchFrom sent nodes
  appended := fun _ => true

structure Insertion (sent : Bytes → Option Bytes) (replicationCount : Int)
    (fileName content : Bytes) (nodes final : Nodes) where
  requests : Nat → WriteRequest replicationCount
  connected : ∀ chunkId < totalChunks content, (requests chunkId).storage.connections ≠ []
  responses : List Client.Response
  session : Session
  returned : insertFile (some content) fileName requests ⟨responses, []⟩ = .ok (true, session)
  deliveries : List Delivery
  trace : List (Delivery × Client.Response)
  delivered : run (deliver sent) nodes deliveries = some (trace, final)
  logged : session.log = trace.map fun event => (event.1.post, event.2)

def Reported (nodes : Nodes) (registry : TcpStorage) : Prop :=
  ∀ connection ∈ registry.connections,
    returnCurrentState (nodes connection.ip).table = .health connection.filesToChunks

def uploadsAt (location : IpAddr) (posts : List Post) : List (Int32 × Bytes) :=
  (posts.filter fun post => post.location = location).map fun post =>
    (atoi post.chunkId, post.chunk)

section Names

variable {sent : Bytes → Option Bytes}

theorem deliver_names {nodes next : Nodes} {delivery : Delivery} {response : Client.Response}
    (delivered : deliver sent nodes delivery = some (response, next)) (location : IpAddr) :
    Names (sent delivery.post.fileName) (nodes location).table (next location).table := by
  unfold deliver at delivered
  split at delivered
  · obtain ⟨_, rfl⟩ := Prod.mk.inj (Option.some.inj delivered)
    exact Names.same rfl
  · rename_i name carried
    obtain ⟨⟨_, storage⟩, exchanged, same⟩ := Option.map_eq_some_iff.mp delivered
    obtain ⟨_, rfl⟩ := Prod.mk.inj same
    by_cases here : location = delivery.post.location
    · subst here
      rw [Function.update_self, carried]
      exact callBacks_names exchanged
    · rw [Function.update_of_ne here]
      exact Names.same rfl

theorem run_deliver_names {fileName : Bytes} {nodes final : Nodes} {deliveries : List Delivery}
    {trace : List (Delivery × Client.Response)}
    (ran : run (deliver sent) nodes deliveries = some (trace, final))
    (named : ∀ event ∈ trace, event.1.post.fileName = fileName) (location : IpAddr) :
    Names (sent fileName) (nodes location).table (final location).table := by
  induction deliveries generalizing nodes trace with
  | nil =>
      obtain ⟨_, rfl⟩ := Prod.mk.inj (Option.some.inj ran)
      exact Names.same rfl
  | cons delivery rest ih =>
      obtain ⟨response, next, tail, stepped, finished, rfl⟩ := run_cons ran
      rw [List.forall_mem_cons] at named
      have first := deliver_names stepped location
      rw [named.1] at first
      exact first.trans (ih finished named.2)

end Names

section Keep

variable {sent : Bytes → Option Bytes} {others : IpAddr → List FileStateCurrentInner}
  {fileName name : Bytes} {nodes next final : Nodes} {cluster : IpAddr → Prop}

theorem uploadsAt_append (location : IpAddr) (first second : List Post) :
    uploadsAt location (first ++ second) = uploadsAt location first ++ uploadsAt location second := by
  simp [uploadsAt]

structure Kept (cluster : IpAddr → Prop) (others : IpAddr → List FileStateCurrentInner)
    (name : Bytes) (nodes final : Nodes) (posts : List Post) : Prop where
  uploading : ∀ location, cluster location → Uploading (others location) name (final location)
  held : ∀ location, cluster location → ∀ id, stored (final location).disk name id =
    (stored (nodes location).disk name id).or ((uploadsAt location posts).lookup id)

theorem Kept.nothing
    (uploading : ∀ location, cluster location → Uploading (others location) name (nodes location)) :
    Kept cluster others name nodes nodes [] :=
  ⟨uploading, by simp [uploadsAt]⟩

theorem Kept.trans {early late : List Post} (first : Kept cluster others name nodes next early)
    (second : Kept cluster others name next final late) :
    Kept cluster others name nodes final (early ++ late) := by
  refine ⟨second.uploading, ?_⟩
  intro location belongs id
  rw [second.held location belongs, first.held location belongs, uploadsAt_append,
    List.lookup_append, Option.or_assoc]

theorem deliver_saved {delivery : Delivery} {storage : Storage}
    (carried : sent delivery.post.fileName = some name) (nonempty : delivery.post.chunk ≠ [])
    (stepped : step (nodes delivery.post.location)
      ⟨.save (some name) (some delivery.post.chunk) (atoi delivery.post.chunkId), fun _ => []⟩ =
        some (.saved true, storage)) :
    deliver sent nodes delivery =
      some (.status 200, Function.update nodes delivery.post.location storage) := by
  have body : delivery.pieces.flatten ≠ [] := by
    rw [delivery.whole]
    exact nonempty
  rw [← delivery.whole] at stepped
  obtain ⟨page, exchanged, set⟩ := exchange_newChunk delivery.nonempty body stepped
  obtain ⟨text, rfl⟩ := Option.isSome_iff_exists.mp set
  simp [deliver, carried, exchanged, responseOf, httpOk]

theorem deliver_kept (valid : ValidName name) (carried : sent fileName = some name)
    (uploading : ∀ location, cluster location → Uploading (others location) name (nodes location))
    {delivery : Delivery} (belongs : cluster delivery.post.location)
    (named : delivery.post.fileName = fileName) (nonempty : delivery.post.chunk ≠ [])
    {response : Client.Response}
    (delivered : deliver sent nodes delivery = some (response, next)) :
    response = .status 200 ∧ Kept cluster others name nodes next [delivery.post] := by
  obtain ⟨storage, stepped, after, held⟩ := (uploading _ belongs).save valid nonempty
    (atoi delivery.post.chunkId)
  rw [deliver_saved (by rw [named, carried]) nonempty stepped, Option.some.injEq,
    Prod.mk.injEq] at delivered
  obtain ⟨rfl, rfl⟩ := delivered
  refine ⟨rfl, ?_, ?_⟩
  · intro location inside
    by_cases here : location = delivery.post.location
    · subst here
      rwa [Function.update_self]
    · rw [Function.update_of_ne here]
      exact uploading location inside
  · intro location _ id
    by_cases here : location = delivery.post.location
    · subst here
      have single : (uploadsAt delivery.post.location [delivery.post]).lookup id =
          if id = atoi delivery.post.chunkId then some delivery.post.chunk else none := by
        by_cases same : id = atoi delivery.post.chunkId
        · simp [uploadsAt, same]
        · simp [uploadsAt, List.lookup_cons, beq_eq_false_iff_ne.mpr same, same]
      rw [Function.update_self, held, single]
    · rw [Function.update_of_ne here]
      simp [uploadsAt, Ne.symm here]

theorem run_deliver_kept (valid : ValidName name) (carried : sent fileName = some name)
    {deliveries : List Delivery} {trace : List (Delivery × Client.Response)}
    (uploading : ∀ location, cluster location → Uploading (others location) name (nodes location))
    (ran : run (deliver sent) nodes deliveries = some (trace, final))
    (ours : ∀ event ∈ trace, cluster event.1.post.location ∧ event.1.post.fileName = fileName ∧
      event.1.post.chunk ≠ []) :
    (∀ event ∈ trace, event.2 = .status 200) ∧
      Kept cluster others name nodes final (trace.map fun event => event.1.post) := by
  induction deliveries generalizing nodes trace with
  | nil =>
      obtain ⟨rfl, rfl⟩ := Prod.mk.inj (Option.some.inj ran)
      exact ⟨by simp, Kept.nothing uploading⟩
  | cons delivery rest ih =>
      obtain ⟨response, next, tail, stepped, finished, rfl⟩ := run_cons ran
      rw [List.forall_mem_cons] at ours
      obtain ⟨⟨belongs, named, nonempty⟩, later⟩ := ours
      obtain ⟨accepted, kept⟩ := deliver_kept valid carried uploading belongs named nonempty stepped
      obtain ⟨all, rest⟩ := ih kept.uploading finished later
      refine ⟨?_, kept.trans rest⟩
      rw [List.forall_mem_cons]
      exact ⟨accepted, all⟩

namespace Insertion

variable {replicationCount : Int} {content : Bytes}

theorem trace_own (insertion : Insertion sent replicationCount fileName content nodes final) :
    ∀ event ∈ insertion.trace, ∃ chunkId < totalChunks content,
      ∃ location ∈ locationsOf (insertion.requests chunkId),
        event.1.post = postOf fileName content chunkId location := by
  intro event member
  exact insertFile_ownPosts insertion.returned (event.1.post, event.2) (by
    rw [insertion.logged]
    exact List.mem_map_of_mem member)

theorem names (insertion : Insertion sent replicationCount fileName content nodes final)
    (location : IpAddr) : Names (sent fileName) (nodes location).table (final location).table := by
  apply run_deliver_names insertion.delivered
  intro event member
  obtain ⟨chunkId, _, _, _, same⟩ := insertion.trace_own event member
  rw [same, postOf]

theorem kept (insertion : Insertion sent replicationCount fileName content nodes final)
    (valid : ValidName name) (carried : sent fileName = some name)
    (uploading : ∀ location, cluster location → Uploading (others location) name (nodes location))
    (inside : ∀ event ∈ insertion.trace, cluster event.1.post.location) :
    Kept cluster others name nodes final (posts fileName content insertion.requests) := by
  obtain ⟨accepted, kept⟩ := run_deliver_kept valid carried uploading insertion.delivered (by
    intro event member
    obtain ⟨chunkId, bound, _, _, same⟩ := insertion.trace_own event member
    refine ⟨inside event member, ?_, ?_⟩
    · rw [same, postOf]
    · rw [same, postOf]
      exact chunkOf_ne_nil bound)
  have taken : Taken insertion.session := by
    intro entry member
    rw [insertion.logged] at member
    obtain ⟨event, happened, rfl⟩ := List.mem_map.mp member
    exact accepted event happened
  have posted := insertFile_posts insertion.returned taken
  rw [insertion.logged, List.map_map] at posted
  rwa [← posted]

end Insertion

end Keep

theorem Reported.filesToChunks {nodes : Nodes} {registry : TcpStorage}
    {connection : ConnectionData} (reported : Reported nodes registry)
    (member : connection ∈ registry.connections) :
    connection.filesToChunks = (nodes connection.ip).table.fileToChunkState.map mappingOf := by
  have same := reported connection member
  rw [returnCurrentState_eq, MsgType.health.injEq] at same
  exact same.symm

structure Advertised (name : Bytes) (registry : TcpStorage)
    (held : IpAddr → Int32 → Option Bytes) : Prop where
  mapping_iff : ∀ connection ∈ registry.connections, ∀ id,
    (∃ mapping ∈ connection.filesToChunks, mapping.filename = name ∧ id ∈ mapping.chunkIds) ↔
      (held connection.ip id).isSome
  single : ∀ connection ∈ registry.connections, ∀ first ∈ connection.filesToChunks,
    ∀ second ∈ connection.filesToChunks, first.filename = name → second.filename = name →
      first = second

namespace Advertised

variable {sent : Bytes → Option Bytes} {name : Bytes} {nodes : Nodes} {registry : TcpStorage}
  {held : IpAddr → Int32 → Option Bytes} {id : Int32} {random : Nat → Nat}

theorem lists_iff (advertised : Advertised name registry held) : registry.Lists name id ↔
    ∃ connection ∈ registry.connections, (held connection.ip id).isSome := by
  constructor
  · rintro ⟨connection, member, mapping, found, listed⟩
    refine ⟨connection, member, (advertised.mapping_iff connection member id).mp
      ⟨mapping, List.mem_of_find?_eq_some found, ?_, listed⟩⟩
    simpa using List.find?_some found
  · rintro ⟨connection, member, present⟩
    obtain ⟨mapping, within, named, listed⟩ :=
      (advertised.mapping_iff connection member id).mpr present
    obtain ⟨first, found⟩ := Option.isSome_iff_exists.mp (List.find?_isSome.mpr
      ⟨mapping, within, by simpa using named⟩ : (connection.filesToChunks.find?
        fun mapping => mapping.filename = name).isSome)
    obtain rfl := advertised.single connection member first (List.mem_of_find?_eq_some found)
      mapping within (by simpa using List.find?_some found) named
    exact ⟨connection, member, first, found, listed⟩

variable (advertised : Advertised name registry held)
  (fetches : ∀ connection ∈ registry.connections, ∀ id bytes,
    held connection.ip id = some bytes → fetchFrom sent nodes connection.ip name id = some bytes)
  (listed : registry.getChunksForFile name ≠ [])

include advertised fetches listed

/-- A read appends, for every chunk, what some connected node holds. -/
theorem read : ∃ bufs, readFile registry registry name (readingFrom sent nodes random) =
      (true, bufs.flatten) ∧
    List.Forall₂ (fun id buf => ∃ connection ∈ registry.connections,
      held connection.ip id = some buf) (registry.getChunksForFile name) bufs := by
  apply readFile_fetches ⟨rfl, rfl, rfl, fun _ => rfl⟩ listed
  intro id member
  refine ⟨getLocation_ne_nil (mem_getChunksForFile.mp member), ?_⟩
  intro nodeHost here
  obtain ⟨connection, belongs, rfl, mapping⟩ := mem_getLocation.mp here
  obtain ⟨bytes, present⟩ :=
    Option.isSome_iff_exists.mp ((advertised.mapping_iff connection belongs id).mp mapping)
  exact ⟨bytes, fetches connection belongs id bytes present, connection, belongs, present⟩

theorem read_eq (value : Int32 → Bytes) (agreed : ∀ connection ∈ registry.connections,
      ∀ id bytes, held connection.ip id = some bytes → value id = bytes) :
    readFile registry registry name (readingFrom sent nodes random) =
      (true, (registry.getChunksForFile name).flatMap value) := by
  obtain ⟨bufs, read, all⟩ := @read _ _ _ _ _ random advertised fetches listed
  have own : List.Forall₂ (fun id buf => value id = buf) (registry.getChunksForFile name) bufs := by
    apply all.imp
    rintro id buf ⟨connection, belongs, present⟩
    exact agreed connection belongs id buf present
  rw [← List.forall₂_map_left_iff, List.forall₂_eq_eq_eq] at own
  rw [read, ← own, List.flatMap_def]

end Advertised

section Serve

variable {sent : Bytes → Option Bytes} {others : IpAddr → List FileStateCurrentInner}
  {fileName name : Bytes} {nodes : Nodes} {registry : TcpStorage} {random : Nat → Nat}

theorem fetchFrom_opened {nodeHost : IpAddr} {chunk : Int32} {bytes : Bytes} {next : Storage}
    (carried : sent fileName = some name)
    (opened : step (nodes nodeHost) ⟨.read name chunk, fun _ => []⟩ =
      some (.opened (some (.file bytes)), next)) :
    fetchFrom sent nodes nodeHost fileName chunk = some bytes := by
  rw [← atoi_decimal chunk] at opened
  simp [fetchFrom, carried, exchange_chunk opened]

theorem read_unnamed (reported : Reported nodes registry)
    (unnamed : ∀ connection ∈ registry.connections,
      ∀ file ∈ (nodes connection.ip).table.fileToChunkState, file.filePath ≠ fileName) :
    readFile registry registry fileName (readingFrom sent nodes random) = (false, []) := by
  apply readFile_unlisted ⟨rfl, rfl, rfl, fun _ => rfl⟩
  rw [List.eq_nil_iff_forall_not_mem]
  intro id member
  obtain ⟨connection, belongs, mapping, found, _⟩ := mem_getChunksForFile.mp member
  have listed := List.mem_of_find?_eq_some found
  have named := List.find?_some found
  rw [reported.filesToChunks belongs] at listed
  obtain ⟨file, inTable, rfl⟩ := List.mem_map.mp listed
  rw [decide_eq_true_eq] at named
  exact unnamed connection belongs file inTable named

structure Serving (others : IpAddr → List FileStateCurrentInner) (name : Bytes) (nodes : Nodes)
    (registry : TcpStorage) : Prop where
  reported : Reported nodes registry
  uploading : ∀ connection ∈ registry.connections,
    Uploading (others connection.ip) name (nodes connection.ip)
  apart : ∀ connection ∈ registry.connections, ∀ file ∈ others connection.ip,
    file.filePath ≠ name

namespace Serving

variable {connection : ConnectionData} {id : Int32}

theorem reports (serving : Serving others name nodes registry)
    (member : connection ∈ registry.connections) :
    ∃ ids, connection.filesToChunks = (others connection.ip).map mappingOf ++
        (if ids = [] then [] else [{ filename := name, chunkIds := ids }]) ∧
      ∀ id, id ∈ ids ↔ (stored (nodes connection.ip).disk name id).isSome := by
  obtain ⟨ids, entries, known⟩ := (serving.uploading connection member).entry
  refine ⟨ids, ?_, known⟩
  rw [serving.reported.filesToChunks member, entries, List.map_append]
  split
  · rfl
  · rfl

theorem own_mapping (serving : Serving others name nodes registry)
    (member : connection ∈ registry.connections) {ids : List Int32} {mapping : FileMappings}
    (reported : connection.filesToChunks = (others connection.ip).map mappingOf ++
      (if ids = [] then [] else [{ filename := name, chunkIds := ids }])) :
    mapping ∈ connection.filesToChunks ∧ mapping.filename = name ↔
      ids ≠ [] ∧ mapping = { filename := name, chunkIds := ids } := by
  rw [reported]
  constructor
  · rintro ⟨within, named⟩
    rcases List.mem_append.mp within with other | own
    · obtain ⟨file, belongs, rfl⟩ := List.mem_map.mp other
      exact absurd named (serving.apart connection member file belongs)
    · split at own
      · simp at own
      · exact ⟨‹_›, List.mem_singleton.mp own⟩
  · rintro ⟨some, rfl⟩
    simp [some]

theorem advertised (serving : Serving others name nodes registry) :
    Advertised name registry fun location => stored (nodes location).disk name := by
  refine ⟨?_, ?_⟩
  · intro connection member id
    obtain ⟨ids, reported, known⟩ := serving.reports member
    rw [← known]
    constructor
    · rintro ⟨mapping, within, named, listed⟩
      obtain ⟨_, rfl⟩ := (serving.own_mapping member reported).mp ⟨within, named⟩
      exact listed
    · intro listed
      obtain ⟨within, named⟩ :=
        (serving.own_mapping member reported).mpr ⟨List.ne_nil_of_mem listed, rfl⟩
      exact ⟨_, within, named, listed⟩
  · intro connection member first within second also named same
    obtain ⟨ids, reported, _⟩ := serving.reports member
    rw [((serving.own_mapping member reported).mp ⟨within, named⟩).2,
      ((serving.own_mapping member reported).mp ⟨also, same⟩).2]

theorem fetches (serving : Serving others name nodes registry) (valid : ValidName name)
    (carried : sent name = some name) (connection : ConnectionData)
    (member : connection ∈ registry.connections) (id : Int32) (bytes : Bytes)
    (held : stored (nodes connection.ip).disk name id = some bytes) :
    fetchFrom sent nodes connection.ip name id = some bytes :=
  fetchFrom_opened carried ((serving.uploading connection member).read valid held)

end Serving

end Serve

end DistributedFileSystem.System
