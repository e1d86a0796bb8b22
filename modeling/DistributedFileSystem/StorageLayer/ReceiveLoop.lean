import DistributedFileSystem.StorageLayer.DataPack
import DistributedFileSystem.StorageLayer.TcpClient

/-!
The loop that answers the probes of the master (`receive_messages` of
`tcpClient/client.c`). What `recv` returns is the environment's choice.
-/

namespace DistributedFileSystem.StorageLayer

open ByteString Framing WireFormat

def bufferSize : Nat := 1024

inductive RecvResult where
  | received (buffer : Bytes)
  | closed
  | refused
  deriving DecidableEq, Repr

/-- How far the loop came; `waiting` is a call that has not returned. -/
inductive LoopEnd where
  | serverClosed
  | recvFailed
  | undecodable
  | sendFailed
  | waiting
  deriving DecidableEq, Repr

structure LoopResult where
  ended : LoopEnd
  replies : List Bytes
  socket : Socket
  deriving DecidableEq, Repr

def MessageFromMasterToStorage.mergeField (id : Bytes) (field : Field) : Option Bytes :=
  match field.number, field.value with
  | 1, .delimited text => some text
  | 1, _ => none
  | _, _ => some id

def MessageFromMasterToStorage.unpack (data : Bytes) : Option Bytes :=
  (readFields data).bind fun fields => fields.foldlM MessageFromMasterToStorage.mergeField []

/-- The turns of the loop: what `recv` returns, and the table when the reply is packed.
The last of the received bytes is not decoded. -/
def receiveLoop (socket : Socket) : List (RecvResult × StorageStateOuter) → LoopResult
  | [] => { ended := .waiting, replies := [], socket := socket }
  | (.refused, _) :: _ => { ended := .recvFailed, replies := [], socket := socket }
  | (.closed, _) :: _ => { ended := .serverClosed, replies := [], socket := socket }
  | (.received buffer, state) :: rest =>
      match MessageFromMasterToStorage.unpack (buffer.take (buffer.length - 1)) with
      | none => { ended := .undecodable, replies := [], socket := socket }
      | some _ =>
          let fileStateMessageBuf := returnCurrentStateEncodedInProtobufs state
          match sendMessage socket fileStateMessageBuf with
          | (.sent, next) =>
              let later := receiveLoop next rest
              { later with replies := fileStateMessageBuf :: later.replies }
          | (.failed, next) => { ended := .sendFailed, replies := [], socket := next }
          | (.waiting, next) => { ended := .waiting, replies := [], socket := next }

def turnOf (turn : Bytes × StorageStateOuter) : RecvResult × StorageStateOuter :=
  (.received turn.1, turn.2)

def Decodes (turn : Bytes × StorageStateOuter) : Bool :=
  (MessageFromMasterToStorage.unpack turn.1.dropLast).isSome

def encodedTable (turn : Bytes × StorageStateOuter) : Bytes :=
  returnCurrentStateEncodedInProtobufs turn.2

section Turn

variable {turn : Bytes × StorageStateOuter} {rest : List (RecvResult × StorageStateOuter)}
  {socket : Socket}

theorem receiveLoop_stops (fails : ¬Decodes turn) : receiveLoop socket (turnOf turn :: rest) =
    { ended := .undecodable, replies := [], socket := socket } := by
  rw [Decodes, Option.not_isSome_iff_eq_none] at fails
  rw [turnOf, receiveLoop, ← List.dropLast_eq_take, fails]

theorem receiveLoop_answers (passes : Decodes turn)
    (sent : (sendMessage socket (encodedTable turn)).1 = .sent) :
    receiveLoop socket (turnOf turn :: rest) =
      { receiveLoop (sendMessage socket (encodedTable turn)).2 rest with
        replies := encodedTable turn ::
          (receiveLoop (sendMessage socket (encodedTable turn)).2 rest).replies } := by
  obtain ⟨id, decoded⟩ := Option.isSome_iff_exists.mp passes
  have answered : sendMessage socket (returnCurrentStateEncodedInProtobufs turn.2) =
      (.sent, (sendMessage socket (encodedTable turn)).2) := Prod.ext sent rfl
  rw [turnOf, receiveLoop, ← List.dropLast_eq_take, decoded]
  simp only [answered]
  rfl

end Turn

/-- One reply for each result of `recv`, up to the first that does not decode. -/
theorem receiveLoop_eq {turns : List (Bytes × StorageStateOuter)} {socket : Socket}
    (willing : Willing socket.results (frames (turns.map encodedTable)).length) :
    (receiveLoop socket (turns.map turnOf)).replies = (turns.takeWhile Decodes).map encodedTable ∧
      ((receiveLoop socket (turns.map turnOf)).ended = .undecodable ↔
        ¬∀ turn ∈ turns, Decodes turn) := by
  induction turns generalizing socket with
  | nil => simp [receiveLoop]
  | cons turn rest ih =>
      rw [List.map_cons, frames_cons, List.length_append] at willing
      obtain ⟨sent, left⟩ := sendMessage_willing willing
      obtain ⟨replies, ended⟩ := ih left
      rw [List.map_cons, List.forall_mem_cons]
      by_cases passes : Decodes turn
      · rw [receiveLoop_answers passes sent, List.takeWhile_cons_of_pos passes, List.map_cons]
        exact ⟨congrArg (encodedTable turn :: ·) replies, by rw [ended, and_iff_right passes]⟩
      · rw [receiveLoop_stops passes, List.takeWhile_cons_of_neg passes]
        exact ⟨rfl, iff_of_true rfl fun all => passes all.1⟩

end DistributedFileSystem.StorageLayer
