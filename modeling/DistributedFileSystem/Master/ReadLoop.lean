import DistributedFileSystem.Library.Framing

/-! The read loop of `accept_connections` on what a connection delivers before it ends. -/

namespace DistributedFileSystem.Master

open ByteString Framing

/-- The buffers that are filled, in order: `read_u32` and `read_exact` until one of
them fails. -/
def readLoop (stream : Bytes) : List Bytes :=
  match _ : readFrame stream with
  | some (buf, rest) => buf :: readLoop rest
  | none => []
termination_by stream.length
decreasing_by exact readFrame_shorter ‹_›

theorem readLoop_of_frame {stream buf rest : Bytes} (found : readFrame stream = some (buf, rest)) :
    readLoop stream = buf :: readLoop rest := by
  rw [readLoop]
  split
  · rename_i read
    rw [found] at read
    obtain ⟨rfl, rfl⟩ := Prod.mk.inj (Option.some.inj read)
    rfl
  · rename_i read
    rw [found] at read
    contradiction

theorem readLoop_of_cut {stream : Bytes} (missing : readFrame stream = none) :
    readLoop stream = [] := by
  rw [readLoop]
  split
  · rename_i read
    rw [missing] at read
    contradiction
  · rfl

theorem readLoop_frames {payloads : List Bytes}
    (short : ∀ payload ∈ payloads, payload.length < 2 ^ 32) :
    readLoop (frames payloads) = payloads := by
  induction payloads with
  | nil => exact readLoop_of_cut rfl
  | cons payload payloads ih =>
      rw [List.forall_mem_cons] at short
      rw [frames_cons, readLoop_of_frame (readFrame_frame short.1 _), ih short.2]

theorem readLoop_prefix {payloads : List Bytes}
    (short : ∀ payload ∈ payloads, payload.length < 2 ^ 32) {stream : Bytes}
    (cut : stream <+: frames payloads) :
    ∃ count, readLoop stream = payloads.take count ∧ ∀ index ≤ payloads.length,
      index ≤ count ↔ (frames (payloads.take index)).length ≤ stream.length := by
  induction payloads generalizing stream with
  | nil =>
      rw [frames_nil, List.prefix_nil] at cut
      subst cut
      exact ⟨0, readLoop_of_cut rfl, by simp⟩
  | cons payload payloads ih =>
      rw [List.forall_mem_cons] at short
      rw [frames_cons] at cut
      by_cases whole : (frame payload).length ≤ stream.length
      · obtain ⟨rest, rfl⟩ := List.prefix_of_prefix_length_le
          (List.prefix_append (frame payload) (frames payloads)) cut whole
        rw [List.prefix_append_right_inj] at cut
        obtain ⟨count, reads, counts⟩ := ih short.2 cut
        refine ⟨count + 1, ?_, ?_⟩
        · rw [readLoop_of_frame (readFrame_frame short.1 rest), reads, List.take_succ_cons]
        · intro index bound
          cases index with
          | zero => simp
          | succ index =>
              have earlier := counts index (by simpa using bound)
              simp only [List.take_succ_cons, frames_cons, List.length_append]
              omega
      · have part : stream <+: frame payload :=
          List.prefix_of_prefix_length_le cut (List.prefix_append _ _) (by omega)
        refine ⟨0, readLoop_of_cut (readFrame_of_cut short.1 part (by omega)), ?_⟩
        intro index _
        cases index with
        | zero => simp
        | succ index =>
            simp only [List.take_succ_cons, frames_cons, List.length_append]
            omega

end DistributedFileSystem.Master
