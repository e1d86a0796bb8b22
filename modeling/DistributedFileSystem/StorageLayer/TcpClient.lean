import DistributedFileSystem.Library.Framing

/-!
How a storage node puts its messages on the socket (`tcpClient/client.c`).
What the calls of `send` answer is the environment's choice.
-/

namespace DistributedFileSystem.StorageLayer

open ByteString Framing

/-- An answer of `send`: a count of bytes, `EINTR`, or any other error. -/
inductive SendResult where
  | took (count : Nat)
  | interrupted
  | refused
  deriving DecidableEq, Repr

/-- `waiting` is a call of `send` that has not returned. -/
inductive Outcome where
  | sent
  | failed
  | waiting
  deriving DecidableEq, Repr

structure Socket where
  wire : Bytes
  results : List SendResult
  deriving DecidableEq, Repr

def sendAllFrom (buf wire : Bytes) (totalSent : Nat) : List SendResult → Outcome × Socket
  | [] => (if totalSent < buf.length then .waiting else .sent, ⟨wire, []⟩)
  | result :: results =>
      if totalSent < buf.length then
        match result with
        | .interrupted => sendAllFrom buf wire totalSent results
        | .refused => (.failed, ⟨wire, results⟩)
        | .took count =>
            -- `send` takes no more than it is given
            let n := min count (buf.length - totalSent)
            if n = 0 then (.failed, ⟨wire, results⟩)
            else sendAllFrom buf (wire ++ (buf.drop totalSent).take n) (totalSent + n) results
      else (.sent, ⟨wire, result :: results⟩)

def sendAll (socket : Socket) (buf : Bytes) : Outcome × Socket :=
  sendAllFrom buf socket.wire 0 socket.results

def andThen (first : Outcome × Socket) (next : Socket → Outcome × Socket) : Outcome × Socket :=
  match first with
  | (.sent, socket) => next socket
  | stopped => stopped

def sendMessage (socket : Socket) (buf : Bytes) : Outcome × Socket :=
  andThen (sendAll socket (networkOrder (buf.length % 2 ^ 32))) fun socket => sendAll socket buf

def sendInitialMessage (socket : Socket) (joinMessageBuf : Bytes) : Outcome × Socket :=
  sendMessage socket joinMessageBuf

def receiveMessages (socket : Socket) : List Bytes → Outcome × Socket
  | [] => (.sent, socket)
  | fileStateMessageBuf :: rest =>
      andThen (sendMessage socket fileStateMessageBuf) fun socket => receiveMessages socket rest

def sendMessages (socket : Socket) : List Bytes → Outcome × Socket
  | [] => (.sent, socket)
  | joinMessageBuf :: fileStateMessageBufs =>
      andThen (sendInitialMessage socket joinMessageBuf) fun socket =>
        receiveMessages socket fileStateMessageBufs

structure Advanced (wire bytes : Bytes) (result : Outcome × Socket) : Prop where
  part : ∃ part, part <+: bytes ∧ result.2.wire = wire ++ part
  whole : result.1 = .sent → result.2.wire = wire ++ bytes

theorem Advanced.halted {wire bytes : Bytes} {outcome : Outcome} {results : List SendResult}
    (unsent : outcome ≠ .sent) : Advanced wire bytes (outcome, ⟨wire, results⟩) :=
  ⟨⟨[], List.nil_prefix, by simp⟩, fun sent => absurd sent unsent⟩

theorem Advanced.finished (wire : Bytes) (results : List SendResult) :
    Advanced wire [] (.sent, ⟨wire, results⟩) :=
  ⟨⟨[], List.prefix_rfl, by simp⟩, fun _ => by simp⟩

theorem Advanced.after {wire front bytes : Bytes} {result : Outcome × Socket}
    (later : Advanced (wire ++ front) bytes result) : Advanced wire (front ++ bytes) result := by
  obtain ⟨part, start, same⟩ := later.part
  constructor
  · refine ⟨front ++ part, ?_, by rw [same, List.append_assoc]⟩
    rwa [List.prefix_append_right_inj]
  · intro sent
    rw [later.whole sent, List.append_assoc]

theorem Advanced.andThen {wire front bytes : Bytes} {first : Outcome × Socket}
    {next : Socket → Outcome × Socket} (earlier : Advanced wire front first)
    (later : ∀ socket, socket.wire = wire ++ front → Advanced (wire ++ front) bytes (next socket)) :
    Advanced wire (front ++ bytes) (andThen first next) := by
  obtain ⟨outcome, socket⟩ := first
  obtain ⟨part, start, same⟩ := earlier.part
  have stopped : outcome ≠ .sent → Advanced wire (front ++ bytes) (outcome, socket) :=
    fun unsent =>
      ⟨⟨part, start.trans (List.prefix_append _ _), same⟩, fun sent => absurd sent unsent⟩
  cases outcome with
  | sent => exact (later socket (earlier.whole rfl)).after
  | failed => exact stopped (by decide)
  | waiting => exact stopped (by decide)

theorem sendAllFrom_advanced (buf wire : Bytes) (totalSent : Nat) (results : List SendResult) :
    Advanced wire (buf.drop totalSent) (sendAllFrom buf wire totalSent results) := by
  induction results generalizing wire totalSent with
  | nil =>
      rw [sendAllFrom]
      split
      · exact Advanced.halted (by decide)
      · rw [List.drop_eq_nil_of_le (by omega)]
        exact Advanced.finished wire []
  | cons result results ih =>
      unfold sendAllFrom
      split
      · cases result with
        | interrupted => exact ih wire totalSent
        | refused => exact Advanced.halted (by decide)
        | took count =>
            simp only
            split
            · exact Advanced.halted (by decide)
            · have later := (ih (wire ++ (buf.drop totalSent).take
                (min count (buf.length - totalSent)))
                (totalSent + min count (buf.length - totalSent))).after
              rwa [← List.drop_drop, List.take_append_drop] at later
      · rw [List.drop_eq_nil_of_le (by omega)]
        exact Advanced.finished wire _

theorem sendAll_advanced (socket : Socket) (buf : Bytes) :
    Advanced socket.wire buf (sendAll socket buf) :=
  sendAllFrom_advanced buf socket.wire 0 socket.results

theorem sendMessage_wire (socket : Socket) (buf : Bytes) :
    Advanced socket.wire (networkOrder (buf.length % 2 ^ 32) ++ buf) (sendMessage socket buf) := by
  apply (sendAll_advanced socket _).andThen
  intro next same
  rw [← same]
  exact sendAll_advanced next buf

theorem sendMessage_advanced {socket : Socket} {buf : Bytes} (short : buf.length < 2 ^ 32) :
    Advanced socket.wire (frame buf) (sendMessage socket buf) := by
  have advanced := sendMessage_wire socket buf
  rwa [Nat.mod_eq_of_lt short] at advanced

theorem receiveMessages_advanced {payloads : List Bytes}
    (short : ∀ payload ∈ payloads, payload.length < 2 ^ 32) (socket : Socket) :
    Advanced socket.wire (frames payloads) (receiveMessages socket payloads) := by
  induction payloads generalizing socket with
  | nil => exact Advanced.finished socket.wire socket.results
  | cons payload payloads ih =>
      rw [List.forall_mem_cons] at short
      apply (sendMessage_advanced short.1).andThen
      intro next same
      rw [← same]
      exact ih short.2 next

theorem sendMessages_eq (socket : Socket) (payloads : List Bytes) :
    sendMessages socket payloads = receiveMessages socket payloads := by
  cases payloads <;> rfl

structure Willing (results : List SendResult) (needed : Nat) : Prop where
  calm : ∀ result ∈ results, result ≠ .refused ∧ result ≠ .took 0
  enough : needed ≤ results.countP fun result => result ≠ .interrupted

theorem Willing.fewer {results : List SendResult} {needed less : Nat}
    (willing : Willing results needed) (fewer : less ≤ needed) : Willing results less :=
  ⟨willing.calm, fewer.trans willing.enough⟩

theorem sendAllFrom_willing (buf wire : Bytes) {totalSent more : Nat} {results : List SendResult}
    (willing : Willing results (buf.length - totalSent + more)) :
    (sendAllFrom buf wire totalSent results).1 = .sent ∧
      Willing (sendAllFrom buf wire totalSent results).2.results more := by
  induction results generalizing wire totalSent with
  | nil =>
      have enough := willing.enough
      rw [List.countP_nil] at enough
      rw [sendAllFrom, if_neg (by omega)]
      exact ⟨rfl, willing.fewer (by omega)⟩
  | cons result results ih =>
      obtain ⟨calm, rest⟩ := List.forall_mem_cons.mp willing.calm
      have enough := willing.enough
      rw [List.countP_cons] at enough
      unfold sendAllFrom
      split
      · cases result with
        | interrupted => exact ih wire ⟨rest, by simpa using enough⟩
        | refused => exact absurd rfl calm.1
        | took count =>
            have positive : count ≠ 0 := fun zero => calm.2 (by rw [zero])
            simp only
            rw [if_neg (by omega)]
            apply ih
            refine ⟨rest, ?_⟩
            simp only [ne_eq, reduceCtorEq, not_false_eq_true, decide_true, if_true] at enough ⊢
            omega
      · exact ⟨rfl, willing.fewer (by omega)⟩

theorem andThen_of_sent {first : Outcome × Socket} {next : Socket → Outcome × Socket}
    (sent : first.1 = .sent) : andThen first next = next first.2 := by
  obtain ⟨outcome, socket⟩ := first
  cases sent
  rfl

theorem sendMessage_willing {socket : Socket} {buf : Bytes} {more : Nat}
    (willing : Willing socket.results ((frame buf).length + more)) :
    (sendMessage socket buf).1 = .sent ∧ Willing (sendMessage socket buf).2.results more := by
  rw [frame_length, Nat.add_assoc] at willing
  obtain ⟨header, left⟩ := @sendAllFrom_willing (networkOrder (buf.length % 2 ^ 32)) socket.wire 0
    (buf.length + more) socket.results willing
  rw [sendMessage, sendAll, andThen_of_sent header]
  exact sendAllFrom_willing buf _ left

theorem receiveMessages_willing {payloads : List Bytes} {socket : Socket}
    (willing : Willing socket.results (frames payloads).length) :
    (receiveMessages socket payloads).1 = .sent := by
  induction payloads generalizing socket with
  | nil => rfl
  | cons payload payloads ih =>
      rw [frames_cons, List.length_append] at willing
      obtain ⟨sent, left⟩ := sendMessage_willing willing
      rw [receiveMessages, andThen_of_sent sent]
      exact ih left

end DistributedFileSystem.StorageLayer
