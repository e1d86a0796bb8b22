import DistributedFileSystem.Client.RemoveFile
import DistributedFileSystem.StorageLayer.HttpStore
import DistributedFileSystem.System.ConcurrentInserts

/-!
The system as its clients know it: a map from names to contents, in which a file that is not
there is an empty one.
-/

namespace DistributedFileSystem.System

open ByteString Posix Transition Master StorageLayer Client

/-- What the request of a removal does; `host` is the node that the text in a URL names. -/
def remove (sent : Bytes → Option Bytes) (host : Bytes → Option IpAddr) (nodes : Nodes)
    (removal : Client.Removal) : Option (Client.Response × Nodes) :=
  match host removal.locationOfFile, sent removal.fileName with
  | some location, some name =>
      (exchange (removeFileRequest name) (nodes location) []).map fun (answer, storage) =>
        (responseOf answer, Function.update nodes location storage)
  | _, _ => some (.error, nodes)

structure Deletion (sent : Bytes → Option Bytes) (host : Bytes → Option IpAddr)
    (registry : TcpStorage) (fileName : Bytes) (nodes final : Nodes) where
  respond : List Client.Removal → Client.Response
  result : Bool
  trace : List (Client.Removal × Client.Response)
  returned : deleteFile respond fileName (some (registry.getFileLocations fileName)) =
    (trace.map Prod.fst, result)
  delivered : run (remove sent host) nodes (trace.map Prod.fst) = some (trace, final)
  answered : Throughout (fun earlier event => respond ((earlier ++ [event]).map Prod.fst) = event.2)
    trace

/-- The indices in the URLs name the nodes that report the file, each once, as `0` does for one
node on the machine of the client. -/
structure Contacted (host : Bytes → Option IpAddr) (registry : TcpStorage) (fileName : Bytes) :
    Prop where
  hosts : (keys (registry.getFileLocations fileName)).map host =
    (reporters registry fileName).map fun connection => some connection.ip
  once : ((reporters registry fileName).map ConnectionData.ip).Nodup

section Remove

variable {sent : Bytes → Option Bytes} {host : Bytes → Option IpAddr} {fileName : Bytes}
  {nodes next final : Nodes} {held : IpAddr → Chunks}

def dropAt (locations : List IpAddr) (fileName : Bytes) (held : IpAddr → Chunks) :
    IpAddr → Chunks := fun location =>
  if location ∈ locations then PutOnce.drop (held location) fileName else held location

theorem remove_keeps (keeps : ∀ location, Keeps (nodes location) (held location))
    (valid : ValidName fileName) (carried : sent fileName = some fileName)
    {text : Bytes} {location : IpAddr} (names : host text = some location)
    (present : ∃ id, (held location fileName id).isSome) {response : Client.Response}
    (removed : remove sent host nodes ⟨text, fileName⟩ = some (response, next)) :
    response = .status 200 ∧
      ∀ other, Keeps (next other) (dropAt [location] fileName held other) := by
  obtain ⟨storage, ok, stepped, told, after⟩ :=
    (keeps location).delete valid fileSystemClean_nothing
  obtain rfl := told.mpr present
  simp only [remove, names, carried, exchange_removeFile stepped, if_true, Option.map_some,
    Option.some.injEq, Prod.mk.injEq] at removed
  obtain ⟨rfl, rfl⟩ := removed
  refine ⟨rfl, ?_⟩
  intro other
  by_cases here : other = location
  · subst here
    rwa [Function.update_self, dropAt, if_pos (List.mem_singleton_self other)]
  · rw [Function.update_of_ne here, dropAt, if_neg (by simpa using here)]
    exact keeps other

theorem run_remove_keeps {locations : List IpAddr} {trace : List (Client.Removal × Client.Response)}
    (keeps : ∀ location, Keeps (nodes location) (held location)) (valid : ValidName fileName)
    (carried : sent fileName = some fileName) {removals : List Client.Removal}
    (named : ∀ removal ∈ removals, removal.fileName = fileName)
    (hosts : (removals.map fun removal => host removal.locationOfFile) = locations.map some)
    (once : locations.Nodup)
    (present : ∀ location ∈ locations, ∃ id, (held location fileName id).isSome)
    (ran : run (remove sent host) nodes removals = some (trace, final)) :
    (∀ event ∈ trace, event.2 = .status 200) ∧
      ∀ location, Keeps (final location) (dropAt locations fileName held location) := by
  induction removals generalizing nodes held locations trace with
  | nil =>
      obtain ⟨rfl, rfl⟩ := Prod.mk.inj (Option.some.inj ran)
      obtain rfl := List.map_eq_nil_iff.mp hosts.symm
      exact ⟨by simp, fun location => by simpa [dropAt] using keeps location⟩
  | cons removal rest ih =>
      obtain ⟨location, others, rfl⟩ : ∃ location others, locations = location :: others := by
        cases locations with
        | nil => simp at hosts
        | cons location others => exact ⟨location, others, rfl⟩
      simp only [List.map_cons, List.cons.injEq] at hosts
      obtain ⟨text, name⟩ := removal
      obtain ⟨own, later⟩ := List.forall_mem_cons.mp named
      obtain rfl : fileName = name := own.symm
      obtain ⟨distinct, once⟩ := List.nodup_cons.mp once
      obtain ⟨first, there⟩ := List.forall_mem_cons.mp present
      obtain ⟨response, next, tail, stepped, finished, rfl⟩ := run_cons ran
      obtain ⟨accepted, after⟩ := remove_keeps keeps valid carried hosts.1 first stepped
      obtain ⟨all, ends⟩ := ih after later hosts.2 once (by
        intro other member
        have apart : other ≠ location := by
          rintro rfl
          exact distinct member
        simpa [dropAt, apart] using there other member) finished
      refine ⟨List.forall_mem_cons.mpr ⟨accepted, all⟩, ?_⟩
      intro other
      have same : dropAt others fileName (dropAt [location] fileName held) other =
          dropAt (location :: others) fileName held other := by
        by_cases here : other = location
        · subst here
          simp [dropAt, distinct]
        · simp [dropAt, here]
      rw [← same]
      exact ends other

theorem reports_iff_held {registry : TcpStorage} {connection : ConnectionData}
    (keeps : ∀ location, Keeps (nodes location) (held location))
    (reported : Reported nodes registry) (member : connection ∈ registry.connections) :
    Reports fileName connection ↔ ∃ id, (held connection.ip fileName id).isSome := by
  have same := reported.filesToChunks member
  constructor
  · rintro ⟨mapping, within, named⟩
    rw [same] at within
    obtain ⟨file, inTable, rfl⟩ := List.mem_map.mp within
    obtain ⟨id, listed⟩ := List.exists_mem_of_ne_nil _
      ((keeps connection.ip).indexed.nonempty file inTable)
    exact ⟨id, ((advertised_held keeps reported).mapping_iff connection member id).mp
      ⟨mappingOf file, by rwa [same], named, listed⟩⟩
  · rintro ⟨id, present⟩
    obtain ⟨mapping, within, named, _⟩ :=
      ((advertised_held keeps reported).mapping_iff connection member id).mpr present
    exact ⟨mapping, within, named⟩

theorem drop_unheld {chunks : Chunks} (unheld : ¬∃ id, (chunks fileName id).isSome) :
    PutOnce.drop chunks fileName = chunks := by
  funext name id
  rw [PutOnce.drop]
  split
  · rename_i own
    subst own
    exact (Option.not_isSome_iff_eq_none.mp fun there => unheld ⟨id, there⟩).symm
  · rfl

/-- With the nodes that report the file, every connected node has dropped it. -/
theorem dropAt_reporters {registry : TcpStorage}
    (keeps : ∀ location, Keeps (nodes location) (held location))
    (reported : Reported nodes registry) :
    dropAt ((reporters registry fileName).map ConnectionData.ip) fileName held =
      dropAt (registry.connections.map ConnectionData.ip) fileName held := by
  funext location
  by_cases connected : location ∈ registry.connections.map ConnectionData.ip
  · obtain ⟨connection, member, rfl⟩ := List.mem_map.mp connected
    by_cases reports : Reports fileName connection
    · have holder : connection.ip ∈ (reporters registry fileName).map ConnectionData.ip :=
        List.mem_map_of_mem (List.mem_filter.mpr ⟨member, by simpa using reports⟩)
      rw [dropAt, dropAt, if_pos holder, if_pos connected]
    · rw [reports_iff_held keeps reported member] at reports
      rw [dropAt, dropAt, if_pos connected, drop_unheld reports, ite_self]
  · have other : location ∉ (reporters registry fileName).map ConnectionData.ip := by
      intro holder
      obtain ⟨connection, reports, rfl⟩ := List.mem_map.mp holder
      exact connected (List.mem_map_of_mem (List.mem_filter.mp reports).1)
    rw [dropAt, dropAt, if_neg other, if_neg connected]

theorem Deletion.succeedsAt {registry : TcpStorage}
    (deletion : Deletion sent host registry fileName nodes final)
    (accepted : ∀ event ∈ deletion.trace, event.2 = .status 200) {i : Nat}
    (bound : i < deletion.trace.length) :
    FirstFailure.SucceedsAt (Succeeded deletion.respond) (deletion.trace.map Prod.fst) i := by
  have split : deletion.trace = deletion.trace.take i ++ deletion.trace[i] ::
      deletion.trace.drop (i + 1) := by
    rw [List.getElem_cons_drop, List.take_append_drop]
  have answer : deletion.respond ((deletion.trace.take i ++ [deletion.trace[i]]).map Prod.fst) =
      deletion.trace[i].2 := deletion.answered _ _ _ split
  rw [List.take_append_getElem] at answer
  rw [FirstFailure.SucceedsAt, Succeeded, ← List.map_take, answer]
  exact accepted _ (List.getElem_mem bound)

/-- A removal that reaches the nodes that report the file succeeds, and no connected node has
anything of the file afterwards. -/
theorem Deletion.removes {registry : TcpStorage}
    (deletion : Deletion sent host registry fileName nodes final)
    (keeps : ∀ location, Keeps (nodes location) (held location)) (valid : ValidName fileName)
    (carried : sent fileName = some fileName) (reported : Reported nodes registry)
    (contacted : Contacted host registry fileName) :
    deletion.result = true ∧ ∀ location, Keeps (final location)
      (dropAt (registry.connections.map ConnectionData.ip) fileName held location) := by
  have ended := deleteFile_ended deletion.respond fileName (registry.getFileLocations fileName)
  rw [deletion.returned] at ended
  dsimp only at ended
  let holders := (reporters registry fileName).map ConnectionData.ip
  set requests := removals fileName (keys (registry.getFileLocations fileName))
    with requestsAre
  have hosts : (requests.map fun removal => host removal.locationOfFile) = holders.map some := by
    simpa [requestsAre, holders, removals, Function.comp_def] using contacted.hosts
  have count : requests.length = holders.length := by
    simpa using congrArg List.length hosts
  have made := List.prefix_iff_eq_take.mp ended.inOrder
  obtain ⟨accepted, after⟩ := @run_remove_keeps _ _ _ _ _ _
    (holders.take (deletion.trace.map Prod.fst).length) _ keeps valid carried _ (by
      intro removal asked
      obtain ⟨text, _, rfl⟩ := List.mem_map.mp (ended.inOrder.subset asked)
      rfl) (by
      have front := congrArg (List.take (deletion.trace.map Prod.fst).length) hosts
      rwa [← List.map_take, ← List.map_take, ← made] at front)
    (contacted.once.sublist (List.take_sublist _ _)) (by
      intro location member
      obtain ⟨connection, reports, rfl⟩ := List.mem_map.mp (List.mem_of_mem_take member)
      obtain ⟨belongs, names⟩ := List.mem_filter.mp reports
      exact (reports_iff_held keeps reported belongs).mp (by simpa using names)) deletion.delivered
  have all : (deletion.trace.map Prod.fst).length = requests.length := by
    apply Nat.le_antisymm ended.inOrder.length_le
    by_contra short
    obtain ⟨last, length, failed⟩ := ended.stops (by omega)
    exact failed (deletion.succeedsAt accepted (by
      rw [List.length_map] at length
      omega))
  refine ⟨ended.result_iff.mpr ⟨all, ?_⟩, ?_⟩
  · intro i bound
    exact deletion.succeedsAt accepted (by simpa using bound)
  · rw [all, count, List.take_length, dropAt_reporters keeps reported] at after
    exact after

end Remove

inductive FileCall where
  | insert (uploads : List (Bytes × Bytes))
  | read (fileName : Bytes)
  | delete (fileName : Bytes)
  deriving DecidableEq, Repr

inductive FileReturn where
  | inserted
  | read (result : Bool × Bytes)
  | deleted (result : Bool)
  deriving DecidableEq, Repr

def fileMap (files : Bytes → Bytes) : FileCall → Option (FileReturn × (Bytes → Bytes))
  | .insert uploads =>
      some (.inserted, fun fileName => (uploads.lookup fileName).getD (files fileName))
  | .read fileName => some (.read (decide (files fileName ≠ []), files fileName), files)
  | .delete fileName => some (.deleted true, Function.update files fileName [])

/-- The names are carried as they are, and only files that are not there are inserted. -/
def Allowed (sent : Bytes → Option Bytes) (files : Bytes → Bytes) : FileCall → Prop
  | .insert uploads => (uploads.map Prod.fst).Nodup ∧ ∀ upload ∈ uploads,
      ValidName upload.1 ∧ sent upload.1 = some upload.1 ∧ files upload.1 = [] ∧
        upload.2.length ≤ 2 ^ 31 * CHUNK_SIZE
  | .read fileName => ValidName fileName ∧ sent fileName = some fileName
  | .delete fileName => ValidName fileName ∧ sent fileName = some fileName

/-- Every node of the cluster, and no other, is registered and has reported its table. -/
structure View (cluster : IpAddr → Prop) (nodes : Nodes) (registry : TcpStorage) : Prop where
  reported : Reported nodes registry
  connected : ∀ location, location ∈ registry.connections.map ConnectionData.ip ↔ cluster location

inductive Served (sent : Bytes → Option Bytes) (host : Bytes → Option IpAddr)
    (cluster : IpAddr → Prop) (replicationCount : Int) :
    Nodes → List (FileCall × FileReturn) → Nodes → Prop
  | done (nodes : Nodes) : Served sent host cluster replicationCount nodes [] nodes
  | insert {nodes middle final : Nodes} {served : List (FileCall × FileReturn)}
      {uploaders : List (Uploader replicationCount)}
      (uploads : Interleaved sent uploaders nodes middle)
      (inside : ∀ uploader ∈ uploaders, ∀ chunkId < totalChunks uploader.content,
        ∀ connection ∈ (uploader.requests chunkId).storage.connections, cluster connection.ip)
      (rest : Served sent host cluster replicationCount middle served final) :
      Served sent host cluster replicationCount nodes
        ((.insert (uploaders.map fun uploader => (uploader.fileName, uploader.content)),
          .inserted) :: served) final
  | read {nodes final : Nodes} {served : List (FileCall × FileReturn)} {registry : TcpStorage}
      (view : View cluster nodes registry) (fileName : Bytes) (random : Nat → Nat)
      (rest : Served sent host cluster replicationCount nodes served final) :
      Served sent host cluster replicationCount nodes
        ((.read fileName, .read (readFile registry registry fileName
          (readingFrom sent nodes random))) :: served) final
  | delete {nodes middle final : Nodes} {served : List (FileCall × FileReturn)}
      {registry : TcpStorage} {fileName : Bytes} (view : View cluster nodes registry)
      (contacted : Contacted host registry fileName)
      (deletion : Deletion sent host registry fileName nodes middle)
      (rest : Served sent host cluster replicationCount middle served final) :
      Served sent host cluster replicationCount nodes
        ((.delete fileName, .deleted deletion.result) :: served) final

structure HoldsFiles (cluster : IpAddr → Prop) (held : IpAddr → Chunks) (files : Bytes → Bytes) :
    Prop where
  own : ∀ location fileName id bytes, held location fileName id = some bytes →
    cluster location ∧ ∃ chunkId < totalChunks (files fileName),
      Int32.ofNat chunkId = id ∧ chunkOf (files fileName) chunkId = bytes
  all : ∀ fileName, ∀ chunkId < totalChunks (files fileName), ∃ location, cluster location ∧
    (held location fileName (Int32.ofNat chunkId)).isSome
  small : ∀ fileName, (files fileName).length ≤ 2 ^ 31 * CHUNK_SIZE

theorem Interleaved.named_or_unchanged {sent : Bytes → Option Bytes} {replicationCount : Int}
    {uploaders : List (Uploader replicationCount)} {nodes final : Nodes}
    (uploads : Interleaved sent uploaders nodes final) (held : IpAddr → Chunks)
    {given : List (Bytes × Bytes)}
    (are : given = uploaders.map fun uploader => (uploader.fileName, uploader.content))
    (fileName : Bytes) :
    (∃ uploader ∈ uploaders, uploader.fileName = fileName) ∨
      (given.lookup fileName = none ∧
        ∀ location id, uploads.held held location fileName id = held location fileName id) := by
  by_cases named : ∃ uploader ∈ uploaders, uploader.fileName = fileName
  · exact Or.inl named
  · push Not at named
    refine Or.inr ⟨?_, uploads.held_other named⟩
    rw [List.lookup_eq_none_iff, are]
    intro upload member
    obtain ⟨uploader, belongs, rfl⟩ := List.mem_map.mp member
    exact bne_iff_ne.mpr (Ne.symm (named uploader belongs))

namespace HoldsFiles

variable {sent : Bytes → Option Bytes} {cluster : IpAddr → Prop} {replicationCount : Int}
  {held : IpAddr → Chunks} {files : Bytes → Bytes} {nodes final : Nodes} {fileName : Bytes}

theorem unheld (holds : HoldsFiles cluster held files) (absent : files fileName = [])
    (location : IpAddr) (id : Int32) : held location fileName id = none := by
  by_contra present
  obtain ⟨bytes, found⟩ := Option.ne_none_iff_exists'.mp present
  obtain ⟨_, chunkId, bound, _⟩ := holds.own location fileName id bytes found
  rw [absent] at bound
  simp [totalChunks, CHUNK_SIZE] at bound

theorem read (holds : HoldsFiles cluster held files)
    (keeps : ∀ location, Keeps (nodes location) (held location)) {registry : TcpStorage}
    (view : View cluster nodes registry) (valid : ValidName fileName)
    (carried : sent fileName = some fileName) (random : Nat → Nat) :
    readFile registry registry fileName (readingFrom sent nodes random) =
      (decide (files fileName ≠ []), files fileName) := by
  apply readFile_whole keeps view.reported valid carried (holds.small fileName)
  · exact fun location id bytes present => (holds.own location fileName id bytes present).2
  · intro chunkId bound
    obtain ⟨location, inside, present⟩ := holds.all fileName chunkId bound
    obtain ⟨connection, member, rfl⟩ := List.mem_map.mp ((view.connected location).mpr inside)
    exact ⟨connection, member, present⟩

theorem delete (holds : HoldsFiles cluster held files) {locations : List IpAddr}
    (whole : ∀ location, location ∈ locations ↔ cluster location) :
    HoldsFiles cluster (dropAt locations fileName held) (Function.update files fileName []) := by
  have dropped : ∀ location id, dropAt locations fileName held location fileName id = none := by
    intro location id
    rw [dropAt]
    split
    · rw [PutOnce.drop, if_pos rfl]
    · rename_i outside
      by_contra present
      obtain ⟨bytes, found⟩ := Option.ne_none_iff_exists'.mp present
      exact outside ((whole location).mpr (holds.own location fileName id bytes found).1)
  have others : ∀ location other id, other ≠ fileName →
      dropAt locations fileName held location other id = held location other id := by
    intro location other id different
    rw [dropAt]
    split
    · rw [PutOnce.drop, if_neg different]
    · rfl
  refine ⟨?_, ?_, ?_⟩
  · intro location other id bytes present
    by_cases same : other = fileName
    · rw [same, dropped] at present
      contradiction
    · rw [others location other id same] at present
      rw [Function.update_of_ne same]
      exact holds.own location other id bytes present
  · intro other chunkId bound
    by_cases same : other = fileName
    · rw [same, Function.update_self] at bound
      simp [totalChunks, CHUNK_SIZE] at bound
    · rw [Function.update_of_ne same] at bound
      obtain ⟨location, inside, present⟩ := holds.all other chunkId bound
      exact ⟨location, inside, by rwa [others location other _ same]⟩
  · intro other
    by_cases same : other = fileName
    · rw [same, Function.update_self]
      simp
    · rw [Function.update_of_ne same]
      exact holds.small other

theorem lookup_of_mem {uploads : List (Bytes × Bytes)} (distinct : (uploads.map Prod.fst).Nodup)
    {content : Bytes} (member : (fileName, content) ∈ uploads) :
    uploads.lookup fileName = some content := by
  obtain ⟨front, back, rfl⟩ := List.append_of_mem member
  rw [List.map_append, List.map_cons, List.nodup_middle, List.nodup_cons] at distinct
  refine List.lookup_eq_some_iff.mpr ⟨front, back, rfl, ?_⟩
  intro other before
  rw [bne_iff_ne]
  intro same
  exact distinct.1 (List.mem_append_left _ (List.mem_map.mpr ⟨other, before, same.symm⟩))

theorem insert (holds : HoldsFiles cluster held files)
    (keeps : ∀ location, Keeps (nodes location) (held location)) (positive : 0 < replicationCount)
    {uploaders : List (Uploader replicationCount)} (uploads : Interleaved sent uploaders nodes final)
    (inside : ∀ uploader ∈ uploaders, ∀ chunkId < totalChunks uploader.content,
      ∀ connection ∈ (uploader.requests chunkId).storage.connections, cluster connection.ip)
    {given : List (Bytes × Bytes)}
    (are : given = uploaders.map fun uploader => (uploader.fileName, uploader.content))
    (allowed : Allowed sent files (.insert given)) :
    (∀ location, Keeps (final location) (uploads.held held location)) ∧
      HoldsFiles cluster (uploads.held held)
        fun fileName => (given.lookup fileName).getD (files fileName) := by
  obtain ⟨distinct, each⟩ := allowed
  have listed : ∀ uploader ∈ uploaders, (uploader.fileName, uploader.content) ∈ given := by
    intro uploader member
    rw [are]
    exact List.mem_map_of_mem member
  have valid : ∀ uploader ∈ uploaders, ValidName uploader.fileName :=
    fun uploader member => (each _ (listed uploader member)).1
  have carried : ∀ uploader ∈ uploaders, sent uploader.fileName = some uploader.fileName :=
    fun uploader member => (each _ (listed uploader member)).2.1
  have new : ∀ uploader ∈ uploaders, ∀ location id, held location uploader.fileName id = none :=
    fun uploader member => holds.unheld (each _ (listed uploader member)).2.2.1
  have small : ∀ uploader ∈ uploaders, uploader.content.length ≤ 2 ^ 31 * CHUNK_SIZE :=
    fun uploader member => (each _ (listed uploader member)).2.2.2
  refine ⟨(uploads.stocked keeps valid carried new).2, ?_⟩
  have own : ∀ uploader ∈ uploaders, given.lookup uploader.fileName = some uploader.content :=
    fun uploader member => lookup_of_mem distinct (listed uploader member)
  refine ⟨?_, ?_, ?_⟩
  · intro location fileName id bytes present
    rcases uploads.named_or_unchanged held are fileName with ⟨uploader, member, rfl⟩ | ⟨none, same⟩
    · obtain ⟨chunkId, bound, asked, whole⟩ :=
        (uploads.held_iff keeps valid carried new member (small uploader member)).mp present
      obtain ⟨connection, registered, rfl⟩ := locationsOf_connected asked
      refine ⟨inside uploader member chunkId bound connection registered, ?_⟩
      rw [own uploader member]
      exact ⟨chunkId, bound, whole⟩
    · rw [same] at present
      rw [none]
      exact holds.own location fileName id bytes present
  · intro fileName chunkId bound
    rcases uploads.named_or_unchanged held are fileName with ⟨uploader, member, rfl⟩ | ⟨none, same⟩
    · rw [own uploader member] at bound
      obtain ⟨location, asked⟩ := List.exists_mem_of_ne_nil _
        (locationsOf_ne_nil positive uploader.returned bound (uploader.connected chunkId bound))
      obtain ⟨connection, registered, rfl⟩ := locationsOf_connected asked
      refine ⟨connection.ip, inside uploader member chunkId bound connection registered, ?_⟩
      rw [(uploads.held_iff keeps valid carried new member (small uploader member)).mpr
        ⟨chunkId, bound, asked, rfl, rfl⟩]
      rfl
    · rw [none] at bound
      obtain ⟨location, within, present⟩ := holds.all fileName chunkId bound
      exact ⟨location, within, by rwa [same]⟩
  · intro fileName
    rcases uploads.named_or_unchanged held are fileName with ⟨uploader, member, rfl⟩ | ⟨none, _⟩
    · rw [own uploader member]
      exact small uploader member
    · rw [none]
      exact holds.small fileName

end HoldsFiles

section Serve

theorem contacted_alone {host : Bytes → Option IpAddr} {registry : TcpStorage}
    {connection : ConnectionData} (alone : registry.connections = [connection])
    (named : host (digits 0) = some connection.ip) (fileName : Bytes) :
    Contacted host registry fileName := by
  have located := getFileLocations_eq registry fileName
  by_cases reports : Reports fileName connection
  · have one : reporters registry fileName = [connection] := by simp [reporters, alone, reports]
    refine ⟨?_, by simp [one]⟩
    rw [located, one]
    simp [showUntil, keys, named]
  · have none : reporters registry fileName = [] := by simp [reporters, alone, reports]
    refine ⟨?_, by simp [none]⟩
    rw [located, none]
    rfl

variable {sent : Bytes → Option Bytes} {host : Bytes → Option IpAddr} {cluster : IpAddr → Prop}
  {replicationCount : Int} {nodes final : Nodes} {calls : List (FileCall × FileReturn)}

theorem Served.follows (positive : 0 < replicationCount)
    (served : Served sent host cluster replicationCount nodes calls final)
    {held : IpAddr → Chunks} {files : Bytes → Bytes}
    (keeps : ∀ location, Keeps (nodes location) (held location))
    (holds : HoldsFiles cluster held files)
    (allowed : Guarded fileMap (Allowed sent) files (calls.map Prod.fst)) :
    ∃ last, run fileMap files (calls.map Prod.fst) = some (calls, last) := by
  induction served generalizing held files with
  | done nodes => exact ⟨files, rfl⟩
  | insert uploads inside _ ih =>
      obtain ⟨after, still⟩ := holds.insert keeps positive uploads inside rfl allowed.1
      obtain ⟨last, ran⟩ := ih after still (allowed.2 _ _ rfl)
      exact ⟨last, run_cons_of_step rfl ran⟩
  | read view fileName random _ ih =>
      obtain ⟨valid, carried⟩ := allowed.1
      obtain ⟨last, ran⟩ := ih keeps holds (allowed.2 _ _ rfl)
      rw [holds.read keeps view valid carried random]
      exact ⟨last, run_cons_of_step rfl ran⟩
  | delete view contacted deletion _ ih =>
      obtain ⟨valid, carried⟩ := allowed.1
      obtain ⟨succeeded, after⟩ := deletion.removes keeps valid carried view.reported contacted
      obtain ⟨last, ran⟩ := ih after (holds.delete view.connected) (allowed.2 _ _ rfl)
      rw [succeeded]
      exact ⟨last, run_cons_of_step rfl ran⟩

end Serve

/-- Whatever clients insert, read and delete, one call after the other and each on the last
reports, they are returned what the map returns. -/
theorem served_as_map {sent : Bytes → Option Bytes} {host : Bytes → Option IpAddr}
    {cluster : IpAddr → Prop} {replicationCount : Int} {nodes final : Nodes}
    {calls : List (FileCall × FileReturn)} (positive : 0 < replicationCount)
    (fresh : ∀ location, (nodes location).Fresh)
    (served : Served sent host cluster replicationCount nodes calls final)
    (allowed : Guarded fileMap (Allowed sent) (fun _ => []) (calls.map Prod.fst)) :
    ∃ files, run fileMap (fun _ => []) (calls.map Prod.fst) = some (calls, files) := by
  apply served.follows positive (fun location => (fresh location).keeps) _ allowed
  refine ⟨?_, ?_, ?_⟩
  · intro location fileName id bytes present
    contradiction
  · intro fileName chunkId bound
    simp [totalChunks, CHUNK_SIZE] at bound
  · intro fileName
    simp

def localHost (text : Bytes) : Option IpAddr := if text = ascii "0" then some (.v4 1) else none

def localUploader : Uploader 1 where
  fileName := ascii "a"
  content := [120]
  requests := fun _ => oneNodeConnected
  connected := by
    intro chunkId _
    simp [oneNodeConnected, oneNode, TcpStorage.insert]
  responses := [.status 200]
  session := ⟨[], [((oneByte 120).post, .status 200)]⟩
  returned := by
    rw [insertFile_eq_ok]
    have one : totalChunks [120] = 1 := by simp [totalChunks, CHUNK_SIZE]
    have asked : getChunkServerToAddChunkTo oneNodeConnected = some [.v4 1] := by decide
    rw [one, List.range_one, List.foldlM_cons, insertChunk, asked]
    exact ⟨rfl, rfl⟩

theorem localView (nodes : Nodes) :
    View (fun location => location = .v4 1) nodes (oneNodeReported nodes) :=
  ⟨oneNodeReported_reported nodes, fun location => by simp [oneNodeReported]⟩

theorem served_as_map_local :
    ∃ final, Served some localHost (fun location => location = .v4 1) 1 (fun _ => emptyStorage) [
      (.insert [(ascii "a", [120])], .inserted), (.read (ascii "a"), .read (true, [120])),
      (.delete (ascii "a"), .deleted true), (.read (ascii "a"), .read (false, []))] final := by
  have worked : ((deliver some (fun _ => emptyStorage) (oneByte 120)).bind fun inserted =>
      (remove some localHost inserted.2 ⟨ascii "0", ascii "a"⟩).map fun removed =>
        (inserted.1, removed.1, (oneNodeReported inserted.2).getFileLocations (ascii "a"))) =
      some (.status 200, .status 200, [ascii "0.0.0.1"]) := by decide +kernel
  simp only [Option.bind_eq_some_iff, Option.map_eq_some_iff, Prod.mk.injEq] at worked
  obtain ⟨⟨_, middle⟩, delivered, ⟨_, final⟩, removed, rfl, rfl, located⟩ := worked
  let uploads : Interleaved some [localUploader] (fun _ => emptyStorage) middle := {
    deliveries := [oneByte 120]
    trace := [(oneByte 120, .status 200)]
    delivered := run_cons_of_step delivered rfl
    theirs := by decide
    logged := by decide
    turns := by decide
  }
  let deletion : Deletion some localHost (oneNodeReported middle) (ascii "a") middle final := {
    respond := fun _ => .status 200
    result := true
    trace := [(⟨ascii "0", ascii "a"⟩, .status 200)]
    returned := by
      rw [located]
      decide
    delivered := run_cons_of_step removed rfl
    answered := by
      intro earlier event later split
      have member : event ∈ [((⟨ascii "0", ascii "a"⟩ : Client.Removal),
          Client.Response.status 200)] := by simp [split]
      rw [List.mem_singleton.mp member]
  }
  have contacted : Contacted localHost (oneNodeReported middle) (ascii "a") :=
    contacted_alone rfl rfl (ascii "a")
  have inside : ∀ uploader ∈ [localUploader], ∀ chunkId < totalChunks uploader.content,
      ∀ connection ∈ (uploader.requests chunkId).storage.connections, connection.ip = .v4 1 := by
    intro uploader member chunkId _ connection asked
    rw [List.mem_singleton.mp member] at asked
    exact oneNode_ip asked
  have served := Served.insert uploads inside <| .read (localView middle) (ascii "a") (fun _ => 0) <|
    .delete (localView middle) contacted deletion <|
      .read (localView final) (ascii "a") (fun _ => 0) (.done final)
  have valid : ValidName (ascii "a") ∧ some (ascii "a") = some (ascii "a") := ⟨by decide, rfl⟩
  obtain ⟨files, ran⟩ := served_as_map (by omega) (fun _ => emptyStorage_fresh) served
    ⟨⟨by decide, by
      intro upload member
      rw [List.mem_singleton.mp member]
      exact ⟨valid.1, valid.2, rfl, by decide⟩⟩,
      fun _ _ _ => ⟨valid, fun _ _ _ => ⟨valid, fun _ _ _ => ⟨valid, fun _ _ _ => trivial⟩⟩⟩⟩
  have same := (Prod.mk.inj (Option.some.inj ran)).1
  rw [← same] at served
  exact ⟨final, served⟩

end DistributedFileSystem.System
