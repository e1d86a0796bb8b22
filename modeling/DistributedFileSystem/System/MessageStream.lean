import DistributedFileSystem.Master.ReadLoop
import DistributedFileSystem.StorageLayer.TcpClient

/-! The messages of a storage node, from its socket to the buffers of the master. -/

namespace DistributedFileSystem.System

open ByteString Framing Master StorageLayer

/-- Whatever `send` answers and wherever the connection is cut, the master reads the
payloads whose whole frame arrived; all of them, if every send succeeds and nothing is
cut; and every send succeeds if no answer is an error and the bytes are taken. -/
theorem read_loop_yields_delivered (payloads : List Bytes)
    (short : ∀ payload ∈ payloads, payload.length < 2 ^ 32) (results : List SendResult) :
    (∀ delivered, delivered <+: (sendMessages ⟨[], results⟩ payloads).2.wire →
      ∃ count, readLoop delivered = payloads.take count ∧ ∀ index ≤ payloads.length,
        index ≤ count ↔ (frames (payloads.take index)).length ≤ delivered.length) ∧
    ((sendMessages ⟨[], results⟩ payloads).1 = .sent →
      readLoop (sendMessages ⟨[], results⟩ payloads).2.wire = payloads) ∧
    ((∀ result ∈ results, result ≠ .refused ∧ result ≠ .took 0) →
      (frames payloads).length ≤ results.countP (fun result => result ≠ .interrupted) →
      (sendMessages ⟨[], results⟩ payloads).1 = .sent) := by
  rw [sendMessages_eq]
  have advanced := receiveMessages_advanced short ⟨[], results⟩
  refine ⟨?_, ?_, ?_⟩
  · intro delivered cut
    obtain ⟨part, front, same⟩ := advanced.part
    rw [same, List.nil_append] at cut
    exact readLoop_prefix short (cut.trans front)
  · intro sent
    rw [advanced.whole sent, List.nil_append]
    exact readLoop_frames short
  · intro calm enough
    exact receiveMessages_willing ⟨calm, enough⟩

theorem read_loop_yields_delivered_twoMessages :
    (∃ count, readLoop [0, 0, 0, 2, 97, 98, 0, 0, 0, 1] = [[97, 98], [99]].take count ∧
      ∀ index ≤ 2, index ≤ count ↔ (frames ([[97, 98], [99]].take index)).length ≤ 10) ∧
    (sendMessages ⟨[], List.replicate 11 (.took 1)⟩ [[97, 98], [99]]).1 = .sent :=
  ⟨(read_loop_yields_delivered [[97, 98], [99]] (by decide)
    [.took 3, .interrupted, .took 9, .took 9, .took 4, .refused]).1
      [0, 0, 0, 2, 97, 98, 0, 0, 0, 1] (by decide),
    (read_loop_yields_delivered [[97, 98], [99]] (by decide) _).2.2 (by decide) (by decide)⟩

end DistributedFileSystem.System
