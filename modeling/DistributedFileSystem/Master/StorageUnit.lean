import DistributedFileSystem.Protos
import Mathlib.Data.List.Sort

/-!
The registry of the master (`state/storage_unit.rs`,
`state/connection_data_internal.rs`): the connected storage nodes, what each
has reported, and the rotating index of the node to write to.
-/

namespace DistributedFileSystem.Master

open ByteString

inductive IpAddr where
  | v4 (bits : BitVec 32)
  | v6 (bits : BitVec 128)
  deriving DecidableEq, Repr

abbrev ConnectionId := String

structure ConnectionData where
  connectionId : ConnectionId
  ip : IpAddr
  filesToChunks : List FileMappings
  deriving DecidableEq, Repr

structure TcpStorage where
  connections : List ConnectionData
  indexToWrite : Int
  replicationFactor : Int
  deriving DecidableEq, Repr

def ConnectionData.updateState (connection : ConnectionData) (fileMappings : List FileMappings) :
    ConnectionData :=
  { connection with filesToChunks := fileMappings }

/-- `iter_mut().find(..)`: the first connection with the id is changed in place. -/
def changeFirst (connectionId : ConnectionId) (change : ConnectionData → ConnectionData) :
    List ConnectionData → List ConnectionData
  | [] => []
  | connection :: rest =>
      if connection.connectionId = connectionId then change connection :: rest
      else connection :: changeFirst connectionId change rest

namespace TcpStorage

def new (replicationFactor : Int) : TcpStorage :=
  { connections := [], indexToWrite := -1, replicationFactor := replicationFactor }

def insert (storage : TcpStorage) (connectionId : ConnectionId) (ip : IpAddr) : TcpStorage :=
  { storage with
    connections := storage.connections ++
      [{ connectionId := connectionId, ip := ip, filesToChunks := [] }]
    indexToWrite := if storage.indexToWrite = -1 then 0 else storage.indexToWrite }

def remove (storage : TcpStorage) (connectionId : ConnectionId) : TcpStorage :=
  { storage with
    connections := storage.connections.filter fun x => x.connectionId ≠ connectionId }

def find (storage : TcpStorage) (connectionId : ConnectionId) : Option ConnectionData :=
  storage.connections.find? fun c => c.connectionId = connectionId

def updateState (storage : TcpStorage) (connectionId : ConnectionId)
    (fileState : List FileMappings) : TcpStorage :=
  { storage with
    connections := changeFirst connectionId (fun c => c.updateState fileState)
      storage.connections }

def asI32 (value : Nat) : Int := Int.bmod value (2 ^ 32)

def i32Max : Int := 2 ^ 31 - 1

/-- `none` outside when the arithmetic panics: the sum overflows or the divisor is zero. -/
def incrementIndexAndReturnAddr (storage : TcpStorage) : Option (Option IpAddr × TcpStorage) :=
  if storage.connections.length = 0 then some (none, storage)
  else
    let index : Option Int :=
      if storage.indexToWrite < 0 then some 0
      else if storage.indexToWrite = i32Max ∨ asI32 storage.connections.length = 0 then none
      else some ((storage.indexToWrite + 1).tmod (asI32 storage.connections.length))
    index.map fun index =>
      ((storage.connections[index.toNat]?).map ConnectionData.ip,
        { storage with indexToWrite := index })

def pushes (res : List IpAddr) (ip : IpAddr) (fileName : Bytes) (chunkId : Int32)
    (files : FileMappings) : Bool :=
  files.filename = fileName && (files.chunkIds.contains chunkId && !res.contains ip)

def getLocation (storage : TcpStorage) (fileName : Bytes) (chunkId : Int32) : List IpAddr :=
  storage.connections.foldl (fun res conn =>
    if conn.filesToChunks.any (pushes res conn.ip fileName chunkId) then res ++ [conn.ip]
    else res) []

def getMultipleChunks (storage : TcpStorage) (fileName : Bytes) (chunkIds : List Int32) :
    List (List IpAddr) :=
  chunkIds.foldl (fun res id => res ++ [storage.getLocation fileName id]) []

def pushNew (res : List Int32) (id : Int32) : List Int32 :=
  if res.contains id then res else res ++ [id]

def getChunksForFile (storage : TcpStorage) (fileName : Bytes) : List Int32 :=
  (storage.connections.foldl (fun res connection =>
    match connection.filesToChunks.find? fun mapping => mapping.filename = fileName with
    | some mapping => mapping.chunkIds.foldl pushNew res
    | none => res) []).mergeSort fun left right => left ≤ right

def getFileList (storage : TcpStorage) : List Bytes :=
  storage.connections.foldl (fun res connData =>
    connData.filesToChunks.foldl (fun res fileMappings =>
      if res.contains fileMappings.filename then res else res ++ [fileMappings.filename]) res) []

inductive Reachable (replicationFactor : Int) : TcpStorage → Prop where
  | new : Reachable replicationFactor (new replicationFactor)
  | insert {storage : TcpStorage} (connectionId : ConnectionId) (ip : IpAddr) :
      Reachable replicationFactor storage →
      Reachable replicationFactor (storage.insert connectionId ip)
  | remove {storage : TcpStorage} (connectionId : ConnectionId) :
      Reachable replicationFactor storage →
      Reachable replicationFactor (storage.remove connectionId)
  | updateState {storage : TcpStorage} (connectionId : ConnectionId)
      (fileState : List FileMappings) :
      Reachable replicationFactor storage →
      Reachable replicationFactor (storage.updateState connectionId fileState)
  | increment {storage next : TcpStorage} {address : Option IpAddr} :
      Reachable replicationFactor storage →
      storage.incrementIndexAndReturnAddr = some (address, next) →
      Reachable replicationFactor next

end TcpStorage

section Entries

variable {connectionId other : ConnectionId} {change : ConnectionData → ConnectionData}

theorem changeFirst_find (connections : List ConnectionData)
    (keeps : ∀ c, (change c).connectionId = c.connectionId) :
    (changeFirst connectionId change connections).find? (fun c => c.connectionId = connectionId) =
      (connections.find? fun c => c.connectionId = connectionId).map change := by
  induction connections with
  | nil => rfl
  | cons connection rest ih =>
      by_cases same : connection.connectionId = connectionId
      · simp [changeFirst, same, keeps]
      · simp [changeFirst, same, ih]

theorem changeFirst_filter (connections : List ConnectionData)
    (keeps : ∀ c, (change c).connectionId = c.connectionId) :
    (changeFirst connectionId change connections).filter (fun c => c.connectionId ≠ connectionId) =
      connections.filter fun c => c.connectionId ≠ connectionId := by
  induction connections with
  | nil => rfl
  | cons connection rest ih =>
      by_cases same : connection.connectionId = connectionId
      · simp [changeFirst, same, keeps]
      · simp only [changeFirst, same, if_false]
        rw [List.filter_cons_of_pos (by simpa using same),
          List.filter_cons_of_pos (by simpa using same), ih]

theorem find_of_filter {before after : List ConnectionData} (different : other ≠ connectionId)
    (same : after.filter (fun c => c.connectionId ≠ connectionId) =
      before.filter fun c => c.connectionId ≠ connectionId) :
    after.find? (fun c => c.connectionId = other) =
      before.find? fun c => c.connectionId = other := by
  have through : ∀ connections : List ConnectionData,
      connections.find? (fun c => c.connectionId = other) =
        (connections.filter fun c => c.connectionId ≠ connectionId).find?
          fun c => c.connectionId = other := by
    intro connections
    rw [List.find?_filter]
    congr
    funext c
    by_cases equal : c.connectionId = other
    · simp [equal, different]
    · simp [equal]
  rw [through after, through before, same]

end Entries

end DistributedFileSystem.Master
