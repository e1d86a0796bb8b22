import DistributedFileSystem.Master.HealthCheckSender
import DistributedFileSystem.StorageLayer.ReceiveLoop

/-! The probes of the master, as the pieces in which a storage node receives them. -/

namespace DistributedFileSystem.System

open ByteString Framing WireFormat Master StorageLayer

def Answered (connected : List Bool) (result : LoopResult) : Prop :=
  result.replies.length = probeCount connected ∧ result.ended ≠ .undecodable

theorem length_probes (count : Nat) (probe : Bytes) :
    (List.replicate count probe).flatten.length = count * probe.length := by
  rw [List.length_flatten, List.map_replicate, List.sum_replicate_nat]

theorem length_flatten_le {pieces : List Bytes} {size : Nat}
    (fits : ∀ piece ∈ pieces, piece.length ≤ size) :
    pieces.flatten.length ≤ pieces.length * size := by
  induction pieces with
  | nil => simp
  | cons piece rest ih =>
      rw [List.forall_mem_cons] at fits
      have first := fits.1
      have later := ih fits.2
      rw [List.flatten_cons, List.length_append, List.length_cons, Nat.succ_mul]
      omega

theorem pieces_eq_of_flatten {pieces : List Bytes} {probe : Bytes} {count : Nat}
    (cut : pieces.flatten = (List.replicate count probe).flatten) (counted : pieces.length = count)
    (fits : ∀ piece ∈ pieces, piece.length ≤ probe.length) : ∀ piece ∈ pieces, piece = probe := by
  induction pieces generalizing count with
  | nil => simp
  | cons piece rest ih =>
      obtain ⟨count, rfl⟩ : ∃ fewer, count = fewer + 1 := ⟨rest.length, by simpa using counted.symm⟩
      rw [List.forall_mem_cons] at fits
      have restLength : rest.length = count := by simpa using counted
      -- the other pieces are too short to hold more than the other probes
      have bound := length_flatten_le fits.2
      rw [restLength] at bound
      rw [List.replicate_succ, List.flatten_cons, List.flatten_cons] at cut
      have lengths := congrArg List.length cut
      rw [List.length_append, List.length_append, length_probes] at lengths
      have same : piece.length = probe.length := by
        have small := fits.1
        omega
      obtain ⟨rfl, later⟩ := List.append_inj cut same
      rw [List.forall_mem_cons]
      exact ⟨rfl, ih later restLength fits.2⟩

theorem length_of_all_probe {pieces : List Bytes} {probe : Bytes} {count : Nat}
    (cut : pieces.flatten = (List.replicate count probe).flatten) (nonempty : probe ≠ [])
    (whole : ∀ piece ∈ pieces, piece = probe) : pieces.length = count := by
  have positive := List.length_pos_iff.mpr nonempty
  have lengths := congrArg List.length cut
  rw [List.eq_replicate_of_mem whole, length_probes, length_probes] at lengths
  exact Nat.eq_of_mul_eq_mul_right positive lengths

theorem unpack_encode {id : Bytes} (bound : id.length < 2 ^ 64) :
    MessageFromMasterToStorage.unpack (MessageFromMasterToStorage.encode id) = some id := by
  by_cases empty : id = []
  · subst id
    rfl
  · rw [MessageFromMasterToStorage.encode, if_neg empty, MessageFromMasterToStorage.unpack,
      ← List.append_nil (delimitedField 1 id), readFields_delimited (by omega) (by omega) bound]
    rfl

theorem encodedMessage_decodes {connectionId : Bytes} (bound : connectionId.length < 2 ^ 64)
    (state : StorageStateOuter) : Decodes (encodedMessage connectionId, state) = true := by
  rw [Decodes, encodedMessage, List.dropLast_concat, unpack_encode bound, Option.isSome_some]

theorem length_le_encodedMessage (connectionId : Bytes) :
    connectionId.length < (encodedMessage connectionId).length := by
  rw [encodedMessage, List.length_append, MessageFromMasterToStorage.encode]
  split
  · rename_i empty
    simp [empty]
  · rw [delimitedField, List.length_append, List.length_append, List.length_singleton]
    omega

/-- Every probe gets its one reply exactly if there are as many results of `recv` as
probes and each decodes without its last byte. Where none is longer than a probe, that
is when each result is one probe. -/
theorem probes_survive_iff {connectionId : Bytes} {ticks : List Bool}
    {turns : List (Bytes × StorageStateOuter)} {results : List SendResult}
    (cut : (turns.map Prod.fst).flatten = healthCheckSend connectionId ticks)
    (sized : ∀ turn ∈ turns, 1 ≤ turn.1.length ∧ turn.1.length ≤ bufferSize - 1)
    (willing : Willing results (frames (turns.map encodedTable)).length) :
    (Answered ticks (receiveLoop ⟨[], results⟩ (turns.map turnOf)) ↔
      turns.length = probeCount ticks ∧ ∀ turn ∈ turns, Decodes turn) ∧
    ((∀ turn ∈ turns, turn.1.length ≤ (encodedMessage connectionId).length) →
      (Answered ticks (receiveLoop ⟨[], results⟩ (turns.map turnOf)) ↔
        ∀ turn ∈ turns, turn.1 = encodedMessage connectionId)) := by
  obtain ⟨replies, ended⟩ := @receiveLoop_eq turns ⟨[], results⟩ willing
  rw [healthCheckSend_eq] at cut
  have exact : Answered ticks (receiveLoop ⟨[], results⟩ (turns.map turnOf)) ↔
      turns.length = probeCount ticks ∧ ∀ turn ∈ turns, Decodes turn := by
    rw [Answered, ne_eq, ended, not_not, replies, List.length_map]
    constructor
    · rintro ⟨counted, all⟩
      rw [List.takeWhile_eq_self_iff.mpr all] at counted
      exact ⟨counted, all⟩
    · rintro ⟨counted, all⟩
      rw [List.takeWhile_eq_self_iff.mpr all]
      exact ⟨counted, all⟩
  refine ⟨exact, ?_⟩
  intro fits
  rw [exact]
  constructor
  · rintro ⟨counted, _⟩ turn member
    exact pieces_eq_of_flatten cut (by rw [List.length_map, counted]) (by simpa using fits) turn.1
      (List.mem_map_of_mem member)
  · intro whole
    have nonempty : encodedMessage connectionId ≠ [] := by simp [encodedMessage]
    have counted := length_of_all_probe cut nonempty (by simpa using whole)
    rw [List.length_map] at counted
    refine ⟨counted, ?_⟩
    rintro ⟨piece, state⟩ member
    have short := (sized _ member).2
    have same := whole _ member
    simp only at short same
    subst piece
    have less := length_le_encodedMessage connectionId
    rw [bufferSize] at short
    exact encodedMessage_decodes (by omega) state

theorem probes_survive_iff_onePiece :
    Answered [true] (receiveLoop ⟨[], List.replicate 6 (.took 9)⟩
      ([(encodedMessage (ascii "ab"), storageStateInit)].map turnOf)) :=
  ((@probes_survive_iff (ascii "ab") [true] [(encodedMessage (ascii "ab"), storageStateInit)]
    (List.replicate 6 (.took 9)) (by decide) (by decide) ⟨by decide, by decide⟩).2 (by decide)).mpr (by decide)

def exampleId : Bytes := ascii "67e55044-10b1-426f-9247-bb680e5fe0c8"

def halfProbes : List (Bytes × StorageStateOuter) :=
  [((encodedMessage exampleId).take 20, storageStateInit),
    ((encodedMessage exampleId).drop 20, storageStateInit)]

theorem halfProbes_undecodable : ¬∀ (connectionId : Bytes) (ticks : List Bool)
    (turns : List (Bytes × StorageStateOuter)) (results : List SendResult),
    (turns.map Prod.fst).flatten = healthCheckSend connectionId ticks →
    (∀ turn ∈ turns, 1 ≤ turn.1.length ∧ turn.1.length ≤ bufferSize - 1) →
    Willing results (frames (turns.map encodedTable)).length →
    Answered ticks (receiveLoop ⟨[], results⟩ (turns.map turnOf)) := by
  intro always
  have answered := always exampleId [true] halfProbes (List.replicate 12 (.took 1)) (by decide +kernel)
    (by decide +kernel) ⟨by decide, by decide⟩
  have stopped : (receiveLoop ⟨[], List.replicate 12 (.took 1)⟩ (halfProbes.map turnOf)).ended =
      .undecodable := by decide +kernel
  exact answered.2 stopped

end DistributedFileSystem.System
