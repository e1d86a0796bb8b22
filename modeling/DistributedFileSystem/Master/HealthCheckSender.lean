import DistributedFileSystem.Library.WireFormat

/-! The task that probes a storage node (`tcp_connection_to_storage/loop_health_check_sender.rs`). -/

namespace DistributedFileSystem.Master

open ByteString WireFormat

def newline : UInt8 := 10

/-- prost leaves out an empty string. -/
def MessageFromMasterToStorage.encode (id : Bytes) : Bytes :=
  if id = [] then [] else delimitedField 1 id

def encodedMessage (connectionId : Bytes) : Bytes :=
  MessageFromMasterToStorage.encode connectionId ++ [newline]

/-- What is written over the ticks of the interval, at each of which the task looks
up `shared_conn_state`; a write takes all of the message. -/
def healthCheckSend (connectionId : Bytes) : List Bool → Bytes
  | [] => []
  | sharedConnState :: rest =>
      if sharedConnState = false then []
      else encodedMessage connectionId ++ healthCheckSend connectionId rest

def probeCount (ticks : List Bool) : Nat := (ticks.takeWhile fun connected => connected).length

theorem healthCheckSend_eq (connectionId : Bytes) (ticks : List Bool) :
    healthCheckSend connectionId ticks =
      (List.replicate (probeCount ticks) (encodedMessage connectionId)).flatten := by
  induction ticks with
  | nil => rfl
  | cons connected rest ih =>
      cases connected with
      | false => simp [healthCheckSend, probeCount]
      | true =>
          rw [healthCheckSend, if_neg (by simp), ih]
          simp [probeCount, List.replicate_succ]

end DistributedFileSystem.Master
