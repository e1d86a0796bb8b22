import DistributedFileSystem.Library.Bytes

/-! Frames of a four-byte length and a payload, read back from the front of a byte stream. -/

namespace Framing

open ByteString

def frame (payload : Bytes) : Bytes := networkOrder payload.length ++ payload

def frames (payloads : List Bytes) : Bytes := payloads.flatMap frame

def readU32 : Bytes → Option (Nat × Bytes)
  | first :: second :: third :: fourth :: rest =>
      some (fromNetworkOrder first second third fourth, rest)
  | _ => none

def readExact (size : Nat) (stream : Bytes) : Option (Bytes × Bytes) :=
  if size ≤ stream.length then some (stream.take size, stream.drop size) else none

def readFrame (stream : Bytes) : Option (Bytes × Bytes) :=
  match readU32 stream with
  | some (size, rest) => readExact size rest
  | none => none

theorem frame_length (payload : Bytes) : (frame payload).length = 4 + payload.length := by
  rw [frame, List.length_append, networkOrder_length]

@[simp] theorem frames_nil : frames [] = [] := rfl

@[simp] theorem frames_cons (payload : Bytes) (payloads : List Bytes) :
    frames (payload :: payloads) = frame payload ++ frames payloads := rfl

theorem readU32_networkOrder {value : Nat} (bound : value < 2 ^ 32) (rest : Bytes) :
    readU32 (networkOrder value ++ rest) = some (value, rest) := by
  simp only [networkOrder, List.cons_append, List.nil_append, readU32]
  rw [fromNetworkOrder_networkOrder bound]

theorem readU32_of_short {stream : Bytes} (short : stream.length < 4) : readU32 stream = none := by
  unfold readU32
  split
  · simp only [List.length_cons] at short
    omega
  · rfl

/-- What has been read stays read when more bytes come. -/
theorem readU32_extend {stream rest : Bytes} {size : Nat}
    (found : readU32 stream = some (size, rest)) (more : Bytes) :
    readU32 (stream ++ more) = some (size, rest ++ more) := by
  unfold readU32 at found
  split at found
  · obtain ⟨rfl, rfl⟩ := Prod.mk.inj (Option.some.inj found)
    rfl
  · contradiction

theorem readU32_length {stream rest : Bytes} {size : Nat}
    (found : readU32 stream = some (size, rest)) : stream.length = 4 + rest.length := by
  unfold readU32 at found
  split at found
  · obtain ⟨_, rfl⟩ := Prod.mk.inj (Option.some.inj found)
    simp only [List.length_cons]
    omega
  · contradiction

theorem readExact_append (payload rest : Bytes) :
    readExact payload.length (payload ++ rest) = some (payload, rest) := by
  simp [readExact]

theorem readExact_of_short {size : Nat} {stream : Bytes} (short : stream.length < size) :
    readExact size stream = none := by
  rw [readExact, if_neg (by omega)]

theorem readExact_extend {size : Nat} {stream payload rest : Bytes}
    (found : readExact size stream = some (payload, rest)) (more : Bytes) :
    readExact size (stream ++ more) = some (payload, rest ++ more) := by
  unfold readExact at found
  split at found
  · rename_i enough
    obtain ⟨rfl, rfl⟩ := Prod.mk.inj (Option.some.inj found)
    rw [readExact, if_pos (by rw [List.length_append]; omega), List.take_append_of_le_length enough,
      List.drop_append_of_le_length enough]
  · contradiction

theorem readExact_length {size : Nat} {stream payload rest : Bytes}
    (found : readExact size stream = some (payload, rest)) : rest.length ≤ stream.length := by
  unfold readExact at found
  split at found
  · obtain ⟨_, rfl⟩ := Prod.mk.inj (Option.some.inj found)
    simp
  · contradiction

theorem readFrame_of_size {stream rest : Bytes} {size : Nat}
    (read : readU32 stream = some (size, rest)) : readFrame stream = readExact size rest := by
  rw [readFrame, read]

theorem readFrame_extend {stream payload rest : Bytes}
    (found : readFrame stream = some (payload, rest)) (more : Bytes) :
    readFrame (stream ++ more) = some (payload, rest ++ more) := by
  cases read : readU32 stream with
  | none => simp [readFrame, read] at found
  | some pair =>
      obtain ⟨size, body⟩ := pair
      rw [readFrame_of_size read] at found
      rw [readFrame_of_size (readU32_extend read more)]
      exact readExact_extend found more

theorem readFrame_shorter {stream payload rest : Bytes}
    (found : readFrame stream = some (payload, rest)) : rest.length < stream.length := by
  unfold readFrame at found
  split at found
  · rename_i read
    have front := readU32_length read
    have back := readExact_length found
    omega
  · contradiction

theorem readFrame_frame {payload : Bytes} (bound : payload.length < 2 ^ 32) (rest : Bytes) :
    readFrame (frame payload ++ rest) = some (payload, rest) := by
  rw [readFrame, frame, List.append_assoc, readU32_networkOrder bound]
  exact readExact_append payload rest

theorem readFrame_of_cut {payload stream : Bytes} (bound : payload.length < 2 ^ 32)
    (cut : stream <+: frame payload) (short : stream.length < (frame payload).length) :
    readFrame stream = none := by
  by_cases header : stream.length < 4
  · rw [readFrame, readU32_of_short header]
  · have whole : networkOrder payload.length <+: stream :=
      List.prefix_of_prefix_length_le (List.prefix_append _ payload) cut
        (by rw [networkOrder_length]; omega)
    obtain ⟨part, rfl⟩ := whole
    rw [readFrame, readU32_networkOrder bound]
    apply readExact_of_short
    rw [frame_length, List.length_append, networkOrder_length] at short
    omega

end Framing
