import DistributedFileSystem.Library.LockOrder
import DistributedFileSystem.Master.ConnectionEntries
import DistributedFileSystem.Master.FileLocations
import DistributedFileSystem.Master.RoundRobin

/-!
The locks of the master: `tcp_storage`, which all tasks share, and the `shared_conn_state` of
each connection, which its reader and its `health_check_send` share. The tasks are the readers
of `accept_connections`, the senders of the probes and the handlers of `http_handlers`.
-/

namespace DistributedFileSystem.Master

open ByteString LockOrder TcpStorage Transition

inductive MasterLock where
  | tcpStorage
  | sharedConnState (connectionId : ConnectionId)
  deriving DecidableEq, Repr

/-- The lock of a connection is never taken while `tcp_storage` is held. -/
def MasterLock.rank : MasterLock → Bool
  | .sharedConnState _ => false
  | .tcpStorage => true

inductive Reply where
  | addresses (ips : List IpAddr)
  | locations (res : List (List IpAddr))
  | chunks (ids : List Int32)
  | texts (res : List Bytes)
  deriving DecidableEq, Repr

inductive Query where
  | serverToWriteChunk
  | chunkLocation (fileName : Bytes) (chunkId : Int32)
  | chunkLocationMultiple (fileName : Bytes) (chunkIds : List Int32)
  | listChunks (fileName : Bytes)
  | availableFiles
  | fileLocation (fileName : Bytes)
  deriving DecidableEq, Repr

inductive MasterTask (RequestId : Type*) where
  | reader (connectionId : ConnectionId)
  | sender (connectionId : ConnectionId)
  | request (requestId : RequestId)
  deriving DecidableEq

structure Shared (RequestId : Type*) where
  tcpStorage : TcpStorage
  sharedConnState : ConnectionId → Bool
  probes : ConnectionId → Nat
  indexsToWrite : RequestId → List (Option IpAddr)
  replies : RequestId → Option Reply
  poisoned : Bool

variable {RequestId : Type*}

namespace Shared

def start (replicationFactor : Int) : Shared RequestId where
  tcpStorage := TcpStorage.new replicationFactor
  sharedConnState := fun _ => true
  probes := fun _ => 0
  indexsToWrite := fun _ => []
  replies := fun _ => none
  poisoned := false

def onStorage (change : TcpStorage → TcpStorage) (shared : Shared RequestId) : Shared RequestId :=
  { shared with tcpStorage := change shared.tcpStorage }

def setConnState (connectionId : ConnectionId) (connected : Bool) (shared : Shared RequestId) :
    Shared RequestId :=
  { shared with
    sharedConnState := Function.update shared.sharedConnState connectionId connected }

def probe (connectionId : ConnectionId) (shared : Shared RequestId) : Shared RequestId :=
  { shared with
    probes := Function.update shared.probes connectionId (shared.probes connectionId + 1) }

variable [DecidableEq RequestId]

/-- A turn of the handler's loop; when the arithmetic panics, the lock is poisoned. -/
def addIndex (requestId : RequestId) (shared : Shared RequestId) : Shared RequestId :=
  match shared.tcpStorage.incrementIndexAndReturnAddr with
  | none => { shared with poisoned := true }
  | some (index, storage) =>
      { shared with
        tcpStorage := storage
        indexsToWrite := Function.update shared.indexsToWrite requestId
          (shared.indexsToWrite requestId ++ [index]) }

def reply (requestId : RequestId) (answerFrom : Shared RequestId → Reply)
    (shared : Shared RequestId) : Shared RequestId :=
  { shared with replies := Function.update shared.replies requestId (some (answerFrom shared)) }

end Shared

abbrev MasterProgram (RequestId : Type*) := Program MasterLock (Shared RequestId)

def locked (lock : MasterLock) (change : Shared RequestId → Shared RequestId)
    (next : MasterProgram RequestId) : MasterProgram RequestId :=
  .acquire lock (.update change (.release lock next))

def received (connectionId : ConnectionId) (ip : IpAddr) (decoded : Option (Option MsgType))
    (next : MasterProgram RequestId) : MasterProgram RequestId :=
  match decoded with
  | some (some .join) =>
      locked .tcpStorage (Shared.onStorage fun storage => storage.insert connectionId ip)
        (locked (.sharedConnState connectionId) (Shared.setConnState connectionId true) next)
  | some (some (.health fileState)) =>
      locked .tcpStorage
        (Shared.onStorage fun storage => storage.updateState connectionId fileState) next
  | _ => next

/-- After the loop: `update_shared_state` lives to the end of the task. -/
def ended (connectionId : ConnectionId) : MasterProgram RequestId :=
  .acquire (.sharedConnState connectionId) <|
    .update (Shared.setConnState connectionId false) <|
      locked .tcpStorage (Shared.onStorage fun storage => storage.remove connectionId) <|
        .release (.sharedConnState connectionId) .done

def readerLoop (connectionId : ConnectionId) (ip : IpAddr) (frames : List (Option (Option MsgType)))
    (closes : Bool) : MasterProgram RequestId :=
  frames.foldr (received connectionId ip) (if closes then ended connectionId else .done)

def probeLoop (connectionId : ConnectionId) : Nat → MasterProgram RequestId
  | 0 => .done
  | ticks + 1 =>
      .acquire (.sharedConnState connectionId) <|
        .branch (fun shared => shared.sharedConnState connectionId)
          (.release (.sharedConnState connectionId)
            (.update (Shared.probe connectionId) (probeLoop connectionId ticks)))
          (.release (.sharedConnState connectionId) .done)

section Requests

variable [DecidableEq RequestId]

def collectIndexs (requestId : RequestId) : Nat → MasterProgram RequestId
  | 0 => .update
      (Shared.reply requestId fun shared => .addresses (answer (shared.indexsToWrite requestId)))
      .done
  | turns + 1 => locked .tcpStorage (Shared.addIndex requestId) (collectIndexs requestId turns)

def lookup (requestId : RequestId) (answerFrom : TcpStorage → Reply) : MasterProgram RequestId :=
  locked .tcpStorage (Shared.reply requestId fun shared => answerFrom shared.tcpStorage) .done

def respond (replicationCount : Int) (requestId : RequestId) : Query → MasterProgram RequestId
  | .serverToWriteChunk => collectIndexs requestId replicationCount.toNat
  | .chunkLocation fileName chunkId =>
      lookup requestId fun storage => .addresses (storage.getLocation fileName chunkId)
  | .chunkLocationMultiple fileName chunkIds =>
      lookup requestId fun storage => .locations (storage.getMultipleChunks fileName chunkIds)
  | .listChunks fileName =>
      lookup requestId fun storage => .chunks (storage.getChunksForFile fileName)
  | .availableFiles => lookup requestId fun storage => .texts storage.getFileList
  | .fileLocation fileName =>
      lookup requestId fun storage => .texts (storage.getFileLocations fileName)

end Requests

structure Load (RequestId : Type*) where
  address : ConnectionId → IpAddr
  frames : ConnectionId → List (Option (Option MsgType))
  closes : ConnectionId → Bool
  ticks : ConnectionId → Nat
  asked : RequestId → Option Query

namespace Load

def input (load : Load RequestId) (connectionId : ConnectionId) : List Input :=
  (load.frames connectionId).map Input.frame ++
    if load.closes connectionId then [.closed] else []

def joins (load : Load RequestId) : MasterTask RequestId → Nat
  | .reader connectionId => (load.frames connectionId).count (some (some .join))
  | _ => 0

variable [DecidableEq RequestId]

def program (load : Load RequestId) (replicationCount : Int) :
    MasterTask RequestId → MasterProgram RequestId
  | .reader connectionId => readerLoop connectionId (load.address connectionId)
      (load.frames connectionId) (load.closes connectionId)
  | .sender connectionId => probeLoop connectionId (load.ticks connectionId)
  | .request requestId => match load.asked requestId with
      | none => .done
      | some query => respond replicationCount requestId query

def start (load : Load RequestId) (replicationCount : Int) :
    State (MasterTask RequestId) MasterLock (Shared RequestId) where
  owner := fun _ => none
  program := load.program replicationCount
  data := Shared.start replicationCount

end Load

section Order

open Program

theorem locked_ordered {held : List MasterLock} {lock : MasterLock}
    {change : Shared RequestId → Shared RequestId} {next : MasterProgram RequestId}
    (below : ∀ other ∈ held, other.rank < lock.rank) (ordered : next.Ordered MasterLock.rank held) :
    (locked lock change next).Ordered MasterLock.rank held := by
  refine ⟨below, List.mem_cons_self, ?_⟩
  rw [List.erase_cons_head]
  exact ordered

theorem readerLoop_ordered (connectionId : ConnectionId) (ip : IpAddr)
    (frames : List (Option (Option MsgType))) (closes : Bool) :
    (readerLoop connectionId ip frames closes : MasterProgram RequestId).Ordered
      MasterLock.rank [] := by
  induction frames with
  | nil =>
      cases closes with
      | false => rfl
      | true => simp [readerLoop, ended, locked, Program.Ordered, MasterLock.rank]
  | cons decoded frames ih =>
      change (received connectionId ip decoded (readerLoop connectionId ip frames closes)).Ordered
        MasterLock.rank []
      unfold received
      split
      · exact locked_ordered (by simp) (locked_ordered (by simp) ih)
      · exact locked_ordered (by simp) ih
      · exact ih

theorem probeLoop_ordered (connectionId : ConnectionId) (ticks : Nat) :
    (probeLoop connectionId ticks : MasterProgram RequestId).Ordered MasterLock.rank [] := by
  induction ticks with
  | zero => rfl
  | succ ticks ih => simpa [probeLoop, Program.Ordered] using ih

variable [DecidableEq RequestId]

theorem respond_ordered (replicationCount : Int) (requestId : RequestId) (query : Query) :
    (respond replicationCount requestId query).Ordered MasterLock.rank [] := by
  cases query with
  | serverToWriteChunk =>
      change (collectIndexs requestId replicationCount.toNat).Ordered MasterLock.rank []
      induction replicationCount.toNat with
      | zero => rfl
      | succ turns ih => exact locked_ordered (by simp) ih
  | _ => exact locked_ordered (by simp) rfl

theorem start_orderly (load : Load RequestId) (replicationCount : Int) :
    Orderly MasterLock.rank (load.start replicationCount) := by
  refine ⟨fun _ => [], fun task => ⟨List.nodup_nil, ?_, by simp [Load.start]⟩⟩
  cases task with
  | reader connectionId => exact readerLoop_ordered _ _ _ _
  | sender connectionId => exact probeLoop_ordered _ _
  | request requestId =>
      simp only [Load.start, Load.program]
      split
      · rfl
      · exact respond_ordered _ _ _

end Order

section Panic

def Shared.weight (shared : Shared RequestId) : Nat :=
  if shared.poisoned then 2 ^ 31
  else max shared.tcpStorage.connections.length (shared.tcpStorage.indexToWrite + 1).toNat

theorem weight_insert (connectionId : ConnectionId) (ip : IpAddr) (shared : Shared RequestId) :
    (shared.onStorage fun storage => storage.insert connectionId ip).weight ≤ shared.weight + 1 := by
  simp only [Shared.weight, Shared.onStorage, TcpStorage.insert, List.length_append,
    List.length_singleton]
  split
  · omega
  · split <;> omega

theorem weight_updateState (connectionId : ConnectionId) (fileState : List FileMappings)
    (shared : Shared RequestId) :
    (shared.onStorage fun storage => storage.updateState connectionId fileState).weight =
      shared.weight := by
  have counted := length_of_ips (updateState_ips shared.tcpStorage connectionId fileState)
  simp only [Shared.weight, Shared.onStorage, counted]
  rfl

theorem weight_remove (connectionId : ConnectionId) (shared : Shared RequestId) :
    (shared.onStorage fun storage => storage.remove connectionId).weight ≤ shared.weight := by
  have fewer := List.length_filter_le (fun x => x.connectionId ≠ connectionId)
    shared.tcpStorage.connections
  cases sound : shared.poisoned with
  | true => simp [Shared.weight, Shared.onStorage, sound]
  | false =>
      simp only [Shared.weight, Shared.onStorage, TcpStorage.remove, sound, Bool.false_eq_true,
        if_false]
      omega

theorem readerLoop_raises (connectionId : ConnectionId) (ip : IpAddr)
    (frames : List (Option (Option MsgType))) (closes : Bool) :
    (readerLoop connectionId ip frames closes : MasterProgram RequestId).Raises Shared.weight
      (frames.count (some (some .join))) := by
  induction frames with
  | nil =>
      cases closes with
      | false => trivial
      | true =>
          exact ⟨0, 0, Nat.le_refl _, fun _ => Nat.le_refl _, 0, 0, Nat.le_refl _,
            weight_remove connectionId, trivial⟩
  | cons decoded frames ih =>
      change (received connectionId ip decoded (readerLoop connectionId ip frames closes)).Raises
        Shared.weight _
      unfold received
      split
      · rw [List.count_cons_self]
        exact ⟨1, _, Nat.le_of_eq (Nat.add_comm _ _), weight_insert connectionId ip,
          0, _, Nat.le_of_eq (Nat.zero_add _), fun _ => Nat.le_refl _, ih⟩
      · rw [List.count_cons_of_ne (by simp)]
        exact ⟨0, _, Nat.le_of_eq (Nat.zero_add _),
          fun shared => Nat.le_of_eq (weight_updateState _ _ shared), ih⟩
      · rename_i other _
        rw [List.count_cons_of_ne fun join => other join]
        exact ih

theorem probeLoop_raises (connectionId : ConnectionId) (ticks : Nat) :
    (probeLoop connectionId ticks : MasterProgram RequestId).Raises Shared.weight 0 := by
  induction ticks with
  | zero => trivial
  | succ ticks ih => exact ⟨⟨0, 0, Nat.le_refl _, fun _ => Nat.le_refl _, ih⟩, trivial⟩

variable [DecidableEq RequestId]

theorem weight_addIndex (requestId : RequestId) (shared : Shared RequestId) :
    (shared.addIndex requestId).weight ≤ shared.weight := by
  unfold Shared.addIndex
  cases sound : shared.poisoned with
  | true => split <;> simp [Shared.weight, sound]
  | false =>
      split
      · rename_i panicked
        have much : 2 ^ 31 ≤ shared.tcpStorage.connections.length ∨
            TcpStorage.i32Max ≤ shared.tcpStorage.indexToWrite := by
          by_contra few
          simp only [not_or, not_le] at few
          obtain ⟨_, _, defined, _⟩ := increment_isSome few.1 few.2
          simp [panicked] at defined
        simp only [TcpStorage.i32Max] at much
        simp only [Shared.weight, sound, if_true, Bool.false_eq_true, if_false]
        omega
      · rename_i index storage incremented
        simp only [Shared.weight, sound, Bool.false_eq_true, if_false]
        by_cases nobody : shared.tcpStorage.connections = []
        · rw [increment_nobody nobody, Option.some.injEq, Prod.mk.injEq] at incremented
          rw [← incremented.2]
        · obtain ⟨rfl, _, _, upper⟩ := increment_spec nobody incremented
          simp only
          omega

theorem respond_raises (replicationCount : Int) (requestId : RequestId) (query : Query) :
    (respond replicationCount requestId query).Raises Shared.weight 0 := by
  cases query with
  | serverToWriteChunk =>
      change (collectIndexs requestId replicationCount.toNat).Raises Shared.weight 0
      induction replicationCount.toNat with
      | zero => exact ⟨0, 0, Nat.le_refl _, fun _ => Nat.le_refl _, trivial⟩
      | succ turns ih => exact ⟨0, 0, Nat.le_refl _, weight_addIndex requestId, ih⟩
  | _ => exact ⟨0, 0, Nat.le_refl _, fun _ => Nat.le_refl _, trivial⟩

theorem program_raises (load : Load RequestId) (replicationCount : Int)
    (task : MasterTask RequestId) :
    (load.program replicationCount task).Raises Shared.weight (load.joins task) := by
  cases task with
  | reader connectionId => exact readerLoop_raises _ _ _ _
  | sender connectionId => exact probeLoop_raises _ _
  | request requestId =>
      simp only [Load.program]
      split
      · trivial
      · exact respond_raises _ _ _

end Panic

section Outcomes

def ofConnection (connectionId : ConnectionId) (shared : Shared RequestId) :
    List ConnectionData × Bool :=
  (entries connectionId shared.tcpStorage, shared.sharedConnState connectionId)

variable {connectionId : ConnectionId}

theorem ofConnection_insert (ip : IpAddr) (shared : Shared RequestId) :
    ofConnection connectionId (shared.onStorage fun storage => storage.insert connectionId ip) =
      (advance connectionId ip (ofConnection connectionId shared).1 joinInput,
        (ofConnection connectionId shared).2) :=
  Prod.ext (handle_entries_own (fun _ => ip) ⟨shared.tcpStorage, shared.sharedConnState⟩
    ⟨connectionId, joinInput⟩) rfl

theorem ofConnection_updateState (ip : IpAddr) (fileState : List FileMappings)
    (shared : Shared RequestId) :
    ofConnection connectionId
        (shared.onStorage fun storage => storage.updateState connectionId fileState) =
      (advance connectionId ip (ofConnection connectionId shared).1 (healthInput fileState),
        (ofConnection connectionId shared).2) :=
  Prod.ext (handle_entries_own (fun _ => ip) ⟨shared.tcpStorage, shared.sharedConnState⟩
    ⟨connectionId, healthInput fileState⟩) rfl

theorem ofConnection_remove (shared : Shared RequestId) :
    ofConnection connectionId (shared.onStorage fun storage => storage.remove connectionId) =
      ([], (ofConnection connectionId shared).2) :=
  Prod.ext (handle_entries_own (fun _ => .v4 0) ⟨shared.tcpStorage, shared.sharedConnState⟩
    ⟨connectionId, .closed⟩) rfl

theorem ofConnection_setConnState (connected : Bool) (shared : Shared RequestId) :
    ofConnection connectionId (shared.setConnState connectionId connected) =
      ((ofConnection connectionId shared).1, connected) :=
  Prod.ext rfl (Function.update_self _ _ _)

theorem readerLoop_sees (ip : IpAddr) (frames : List (Option (Option MsgType))) (closes : Bool) :
    (readerLoop connectionId ip frames closes : MasterProgram RequestId).Sees
      (ofConnection connectionId) := by
  induction frames with
  | nil =>
      cases closes with
      | false => trivial
      | true =>
          refine ⟨fun shared other same => ?_, fun shared other same => ?_, trivial⟩
          · rw [ofConnection_setConnState, ofConnection_setConnState, same]
          · rw [ofConnection_remove, ofConnection_remove, same]
  | cons decoded frames ih =>
      change (received connectionId ip decoded (readerLoop connectionId ip frames closes)).Sees _
      unfold received
      split
      · refine ⟨fun shared other same => ?_, fun shared other same => ?_, ih⟩
        · rw [ofConnection_insert, ofConnection_insert, same]
        · rw [ofConnection_setConnState, ofConnection_setConnState, same]
      · refine ⟨fun shared other same => ?_, ih⟩
        rw [ofConnection_updateState ip, ofConnection_updateState ip, same]
      · exact ih

theorem readerLoop_alone (ip : IpAddr) (frames : List (Option (Option MsgType))) (closes : Bool)
    (shared : Shared RequestId) (connected : shared.sharedConnState connectionId = true) :
    ofConnection connectionId ((readerLoop connectionId ip frames closes).alone shared) =
      ((frames.map Input.frame ++ if closes then [Input.closed] else []).foldl
        (advance connectionId ip) (ofConnection connectionId shared).1, !closes) := by
  induction frames generalizing shared with
  | nil =>
      cases closes with
      | false => exact Prod.ext rfl connected
      | true =>
          refine (ofConnection_remove (shared.setConnState connectionId false)).trans ?_
          rw [ofConnection_setConnState]
          rfl
  | cons decoded frames ih =>
      change ofConnection connectionId
        ((received connectionId ip decoded (readerLoop connectionId ip frames closes)).alone
          shared) = _
      unfold received
      split
      · refine (ih _ (Function.update_self _ _ _)).trans ?_
        rw [ofConnection_setConnState, ofConnection_insert]
        rfl
      · rename_i fileState
        refine (ih (shared.onStorage fun storage => storage.updateState connectionId fileState)
          connected).trans ?_
        rw [ofConnection_updateState ip]
        rfl
      · refine (ih _ connected).trans ?_
        rename_i noJoin noHealth
        match decoded with
        | none => rfl
        | some none => rfl
        | some (some .join) => exact absurd rfl noJoin
        | some (some (.health fileState)) => exact absurd rfl (noHealth fileState)

section Spared

variable {View : Type*} {view : Shared RequestId → View}

theorem readerLoop_spares {ip : IpAddr}
    (storage : ∀ input shared, view { shared with
      tcpStorage := (handle (fun _ => ip) ⟨shared.tcpStorage, shared.sharedConnState⟩
        ⟨connectionId, input⟩).tcpStorage } = view shared)
    (connState : ∀ connected shared,
      view (Shared.setConnState connectionId connected shared) = view shared)
    (frames : List (Option (Option MsgType))) (closes : Bool) :
    (readerLoop connectionId ip frames closes).Spares view := by
  induction frames with
  | nil =>
      cases closes with
      | false => trivial
      | true => exact ⟨connState false, storage Input.closed, trivial⟩
  | cons decoded frames ih =>
      change (received connectionId ip decoded (readerLoop connectionId ip frames closes)).Spares _
      unfold received
      split
      · exact ⟨storage joinInput, connState true, ih⟩
      · exact ⟨storage (healthInput _), ih⟩
      · exact ih

theorem probeLoop_spares (probes : ∀ shared, view (Shared.probe connectionId shared) = view shared)
    (ticks : Nat) : (probeLoop connectionId ticks).Spares view := by
  induction ticks with
  | zero => trivial
  | succ ticks ih => exact ⟨⟨probes, ih⟩, trivial⟩

variable [DecidableEq RequestId]

theorem respond_spares {requestId : RequestId}
    (indexs : ∀ shared, view (Shared.addIndex requestId shared) = view shared)
    (replies : ∀ answerFrom shared, view (Shared.reply requestId answerFrom shared) = view shared)
    (replicationCount : Int) (query : Query) :
    (respond replicationCount requestId query).Spares view := by
  cases query with
  | serverToWriteChunk =>
      change (collectIndexs requestId replicationCount.toNat).Spares view
      induction replicationCount.toNat with
      | zero => exact ⟨replies _, trivial⟩
      | succ turns ih => exact ⟨indexs, ih⟩
  | _ => exact ⟨replies _, trivial⟩

end Spared

variable [DecidableEq RequestId]

theorem ofConnection_addIndex (requestId : RequestId) (shared : Shared RequestId) :
    ofConnection connectionId (shared.addIndex requestId) = ofConnection connectionId shared := by
  unfold Shared.addIndex
  split
  · rfl
  · rename_i index storage incremented
    by_cases nobody : shared.tcpStorage.connections = []
    · rw [increment_nobody nobody, Option.some.injEq, Prod.mk.injEq] at incremented
      rw [← incremented.2]
      rfl
    · obtain ⟨rfl, _⟩ := increment_spec nobody incremented
      rfl

theorem program_spares_connection (load : Load RequestId) (replicationCount : Int)
    {task : MasterTask RequestId} (other : task ≠ .reader connectionId) :
    (load.program replicationCount task).Spares (ofConnection connectionId) := by
  cases task with
  | reader otherId =>
      have different : otherId ≠ connectionId := fun same => other (congrArg _ same)
      exact readerLoop_spares
        (fun _ _ => Prod.ext (handle_entries_other different) rfl)
        (fun _ _ => Prod.ext rfl (Function.update_of_ne (Ne.symm different) _ _)) _ _
  | sender otherId => exact probeLoop_spares (fun _ => rfl) _
  | request requestId =>
      simp only [Load.program]
      split
      · trivial
      · exact respond_spares (ofConnection_addIndex requestId) (fun _ _ => rfl) _ _

def replied (requestId : RequestId) (shared : Shared RequestId) : Bool :=
  (shared.replies requestId).isSome

theorem addIndex_replies (requestId : RequestId) (shared : Shared RequestId) :
    (shared.addIndex requestId).replies = shared.replies := by
  unfold Shared.addIndex
  split <;> rfl

theorem program_spares_replies (load : Load RequestId) (replicationCount : Int)
    {task : MasterTask RequestId} {requestId : RequestId} (other : task ≠ .request requestId) :
    (load.program replicationCount task).Spares (replied requestId) := by
  cases task with
  | reader otherId => exact readerLoop_spares (fun _ _ => rfl) (fun _ _ => rfl) _ _
  | sender otherId => exact probeLoop_spares (fun _ => rfl) _
  | request otherId =>
      have different : requestId ≠ otherId := fun same => other (congrArg _ same.symm)
      simp only [Load.program]
      split
      · trivial
      · refine respond_spares (fun shared => ?_) (fun answerFrom shared => ?_) _ _
        · rw [replied, addIndex_replies, replied]
        · simp only [replied, Shared.reply, Function.update_of_ne different]

theorem replied_reply (requestId : RequestId) (answerFrom : Shared RequestId → Reply)
    (shared : Shared RequestId) : replied requestId (shared.reply requestId answerFrom) = true := by
  simp only [replied, Shared.reply, Function.update_self, Option.isSome_some]

theorem respond_sees (replicationCount : Int) (requestId : RequestId) (query : Query) :
    (respond replicationCount requestId query).Sees (replied requestId) := by
  have replies : ∀ answerFrom (shared other : Shared RequestId),
      replied requestId shared = replied requestId other →
      replied requestId (shared.reply requestId answerFrom) =
        replied requestId (other.reply requestId answerFrom) := by
    intro answerFrom shared other _
    rw [replied_reply, replied_reply]
  cases query with
  | serverToWriteChunk =>
      change (collectIndexs requestId replicationCount.toNat).Sees (replied requestId)
      induction replicationCount.toNat with
      | zero => exact ⟨replies _, trivial⟩
      | succ turns ih =>
          refine ⟨fun shared other same => ?_, ih⟩
          rwa [replied, replied, addIndex_replies, addIndex_replies]
  | _ => exact ⟨replies _, trivial⟩

theorem respond_alone (replicationCount : Int) (requestId : RequestId) (query : Query)
    (shared : Shared RequestId) :
    replied requestId ((respond replicationCount requestId query).alone shared) = true := by
  cases query with
  | serverToWriteChunk =>
      change replied requestId
        ((collectIndexs requestId replicationCount.toNat).alone shared) = true
      induction replicationCount.toNat generalizing shared with
      | zero => simp only [collectIndexs, Program.alone, replied_reply]
      | succ turns ih => exact ih (shared.addIndex requestId)
  | _ => simp only [respond, lookup, locked, Program.alone, replied_reply]

end Outcomes

/-- In every interleaving of the readers, the senders of the probes and the handlers: no run is
longer than the programs, and with few joins the arithmetic does not panic. As long as it has
not, some task goes on while one is not done, a connection that has been read to its end has
the entries that its own messages call for, a request that is through has its reply, and in
the end no lock is held. -/
theorem tasks_finish [DecidableEq RequestId] (load : Load RequestId) (replicationCount : Int)
    (tasks : Finset (MasterTask RequestId))
    (idle : ∀ task ∉ tasks, load.program replicationCount task = .done)
    (schedule : List (MasterTask RequestId))
    {trace : List (MasterTask RequestId × Unit)}
    {final : State (MasterTask RequestId) MasterLock (Shared RequestId)}
    (ran : run step (load.start replicationCount) schedule = some (trace, final)) :
    schedule.length ≤ ∑ task ∈ tasks, (load.program replicationCount task).size ∧
      (∑ task ∈ tasks, load.joins task < 2 ^ 31 → final.data.poisoned = false) ∧
      (final.data.poisoned = false →
        ((∃ task, final.program task ≠ .done) → ∃ task, (step final task).isSome) ∧
        (∀ connectionId, final.program (.reader connectionId) = .done →
          entries connectionId final.data.tcpStorage =
              ownEntries connectionId (load.address connectionId) (load.input connectionId) ∧
            final.data.sharedConnState connectionId = !load.closes connectionId) ∧
        (∀ requestId query, load.asked requestId = some query →
          final.program (.request requestId) = .done →
            (final.data.replies requestId).isSome = true) ∧
        ((∀ task, final.program task = .done) → ∀ lock, final.owner lock = none)) := by
  have orderly := run_orderly (start_orderly load replicationCount) ran
  have weight := run_weight idle (program_raises load replicationCount) ran
  refine ⟨(Nat.le_add_right _ _).trans (run_size idle ran), ?_, fun _ =>
    ⟨orderly.progress, fun connectionId finished => ?_,
      fun requestId query asked finished => ?_, orderly.free⟩⟩
  · intro few
    by_contra poisoned
    rw [Bool.not_eq_false] at poisoned
    simp only [Shared.weight, poisoned, if_true, Load.start, Shared.start, TcpStorage.new] at weight
    simp at weight
    omega
  · have read := run_alone (readerLoop_sees _ _ _)
      (fun task other => program_spares_connection load replicationCount other) ran finished
    have alone := read.trans (readerLoop_alone _ _ _ _ rfl)
    exact Prod.mk.inj alone
  · have program : (load.start replicationCount).program (.request requestId) =
        respond replicationCount requestId query := by
      simp only [Load.start, Load.program, asked]
    have answered := @run_alone _ _ _ _ _ _ (.request requestId) _ (replied requestId) _ _ _
      (program ▸ respond_sees _ _ _)
      (fun task other => program_spares_replies load replicationCount other) ran finished
    rw [program, respond_alone] at answered
    exact answered

def briefVisit : Load Unit where
  address := fun _ => .v4 1
  frames := fun connectionId => if connectionId = "a" then [some (some .join)] else []
  closes := fun connectionId => connectionId = "a"
  ticks := fun connectionId => if connectionId = "a" then 1 else 0
  asked := fun _ => some .serverToWriteChunk

def bothHeld : List (MasterTask Unit) :=
  [.sender "a", .reader "a", .sender "a", .reader "a"]

theorem briefVisit_idle : ∀ task ∉ ({.reader "a", .sender "a", .request ()} :
    Finset (MasterTask Unit)), briefVisit.program 1 task = .done := by
  intro task outside
  cases task with
  | reader connectionId =>
      have other : connectionId ≠ "a" := fun same => outside (by simp [same])
      simp [Load.program, briefVisit, other, readerLoop]
  | sender connectionId =>
      have other : connectionId ≠ "a" := fun same => outside (by simp [same])
      simp [Load.program, briefVisit, other, probeLoop]
  | request requestId => exact absurd (by simp) outside

theorem tasks_finish_briefVisit : ∃ trace final,
    run step (briefVisit.start 1) bothHeld = some (trace, final) ∧
      final.owner .tcpStorage = some (.reader "a") ∧
      final.owner (.sharedConnState "a") = some (.sender "a") ∧
      (∃ task, (step final task).isSome) ∧ final.data.poisoned = false := by
  obtain ⟨⟨trace, final⟩, ran⟩ : ∃ ended, run step (briefVisit.start 1) bothHeld = some ended :=
    ⟨_, rfl⟩
  have through := tasks_finish briefVisit 1 {.reader "a", .sender "a", .request ()}
    briefVisit_idle bothHeld ran
  obtain ⟨_, rfl⟩ := Prod.mk.inj (Option.some.inj ran)
  have sound := through.2.1 (by decide)
  exact ⟨trace, _, ran, rfl, rfl, (through.2.2 sound).1 ⟨.reader "a", by simp⟩, sound⟩

end DistributedFileSystem.Master
