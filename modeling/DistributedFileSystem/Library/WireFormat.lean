import DistributedFileSystem.Library.Framing

/-! The proto3 wire format: varints, fields with a number and a value, and messages of them. -/

namespace WireFormat

open ByteString Framing

def varintFrom : Nat → Nat → Bytes
  | 0, _ => []
  | fuel + 1, value =>
      if value < 128 then [value.toUInt8]
      else (value % 128 + 128).toUInt8 :: varintFrom fuel (value / 128)

def varint (value : Nat) : Bytes := varintFrom (value + 1) value

def readVarintFrom : Nat → Bytes → Option (Nat × Bytes)
  | 0, _ => none
  | _ + 1, [] => none
  | fuel + 1, byte :: rest =>
      if byte.toNat < 128 then some (byte.toNat, rest)
      else (readVarintFrom fuel rest).map fun (high, rest) => (byte.toNat - 128 + 128 * high, rest)

/-- At most ten bytes, and a value of at most 64 bits. -/
def readVarint (stream : Bytes) : Option (Nat × Bytes) :=
  (readVarintFrom 10 stream).filter fun (value, _) => value < 2 ^ 64

inductive Value where
  | varint (value : Nat)
  | fixed64 (bytes : Bytes)
  | delimited (bytes : Bytes)
  | fixed32 (bytes : Bytes)
  deriving DecidableEq, Repr

structure Field where
  number : Nat
  value : Value
  deriving DecidableEq, Repr

def delimitedField (number : Nat) (payload : Bytes) : Bytes :=
  varint (8 * number + 2) ++ varint payload.length ++ payload

/-- A value of the wire type; groups are not part of proto3. -/
def readValue (wireType : Nat) (stream : Bytes) : Option (Value × Bytes) :=
  match wireType with
  | 0 => (readVarint stream).map fun (value, rest) => (.varint value, rest)
  | 1 => (readExact 8 stream).map fun (bytes, rest) => (.fixed64 bytes, rest)
  | 2 => (readVarint stream).bind fun (length, rest) =>
      (readExact length rest).map fun (bytes, rest) => (.delimited bytes, rest)
  | 5 => (readExact 4 stream).map fun (bytes, rest) => (.fixed32 bytes, rest)
  | _ => none

def readField (stream : Bytes) : Option (Field × Bytes) :=
  match readVarint stream with
  | none => none
  | some (key, rest) =>
      if key < 8 ∨ 2 ^ 32 ≤ key then none
      else (readValue (key % 8) rest).map fun (value, rest) => (⟨key / 8, value⟩, rest)

variable {α : Type}

def readAllFrom (read : Bytes → Option (α × Bytes)) : Nat → Bytes → Option (List α)
  | _, [] => some []
  | 0, _ :: _ => none
  | fuel + 1, stream =>
      match read stream with
      | none => none
      | some (item, rest) => (readAllFrom read fuel rest).map fun items => item :: items

def readAll (read : Bytes → Option (α × Bytes)) (stream : Bytes) : Option (List α) :=
  readAllFrom read stream.length stream

def readFields (stream : Bytes) : Option (List Field) := readAll readField stream

def readVarints (stream : Bytes) : Option (List Nat) := readAll readVarint stream

def Consumes (read : Bytes → Option (α × Bytes)) : Prop :=
  ∀ stream item rest, read stream = some (item, rest) → rest.length < stream.length

section ReadAll

variable {read : Bytes → Option (α × Bytes)}

theorem readAllFrom_enough (consumes : Consumes read) {left right : Nat} {stream : Bytes}
    (leftEnough : stream.length ≤ left) (rightEnough : stream.length ≤ right) :
    readAllFrom read left stream = readAllFrom read right stream := by
  induction left generalizing right stream with
  | zero =>
      obtain rfl : stream = [] := List.length_eq_zero_iff.mp (by omega)
      cases right <;> rfl
  | succ left ih =>
      cases stream with
      | nil => cases right <;> rfl
      | cons byte tail =>
          rw [List.length_cons] at leftEnough rightEnough
          cases right with
          | zero => omega
          | succ right =>
              rw [readAllFrom, readAllFrom]
              · cases found : read (byte :: tail) with
                | none => rfl
                | some result =>
                    obtain ⟨item, rest⟩ := result
                    have shorter := consumes _ _ _ found
                    rw [List.length_cons] at shorter
                    have same : readAllFrom read left rest = readAllFrom read right rest :=
                      ih (by omega) (by omega)
                    simp only [same]
              · simp
              · simp

@[simp] theorem readAll_nil (read : Bytes → Option (α × Bytes)) : readAll read [] = some [] := rfl

theorem readAll_of_some (consumes : Consumes read) {stream rest : Bytes} {item : α}
    (found : read stream = some (item, rest)) :
    readAll read stream = (readAll read rest).map fun items => item :: items := by
  have shorter := consumes _ _ _ found
  cases stream with
  | nil => simp at shorter
  | cons byte tail =>
      have enough : readAllFrom read tail.length rest = readAll read rest :=
        readAllFrom_enough consumes (by simpa [Nat.lt_succ_iff] using shorter) (Nat.le_refl _)
      rw [readAll, List.length_cons, readAllFrom, found]
      · simp only [enough]
      · simp

theorem readAll_of_none {stream : Bytes} (nonempty : stream ≠ []) (missing : read stream = none) :
    readAll read stream = none := by
  cases stream with
  | nil => contradiction
  | cons byte tail =>
      rw [readAll, List.length_cons, readAllFrom, missing]
      simp

theorem readAll_flatMap (consumes : Consumes read) {β : Type} {write : β → Bytes} {value : β → α}
    {items : List β}
    (back : ∀ item ∈ items, ∀ rest, read (write item ++ rest) = some (value item, rest)) :
    readAll read (items.flatMap write) = some (items.map value) := by
  induction items with
  | nil => rfl
  | cons item items ih =>
      rw [List.forall_mem_cons] at back
      rw [List.flatMap_cons, readAll_of_some consumes (back.1 _), ih back.2, Option.map_some,
        List.map_cons]

end ReadAll

section Varint

theorem varintFrom_eq {value left right : Nat} (leftEnough : value < left)
    (rightEnough : value < right) : varintFrom left value = varintFrom right value := by
  induction left generalizing value right with
  | zero => omega
  | succ left ih =>
      obtain ⟨right, rfl⟩ := Nat.exists_eq_succ_of_ne_zero (Nat.ne_of_gt (Nat.zero_lt_of_lt rightEnough))
      rw [varintFrom, varintFrom]
      split
      · rfl
      · exact congrArg _ (ih (by omega) (by omega))

theorem varint_of_lt {value : Nat} (small : value < 128) : varint value = [value.toUInt8] := by
  rw [varint, varintFrom, if_pos small]

theorem varint_of_le {value : Nat} (large : 128 ≤ value) :
    varint value = (value % 128 + 128).toUInt8 :: varint (value / 128) := by
  have enough : varintFrom value (value / 128) = varint (value / 128) :=
    varintFrom_eq (by omega) (by omega)
  rw [varint, varintFrom, if_neg (by omega), enough]

theorem varint_ne_nil (value : Nat) : varint value ≠ [] := by
  rw [varint, varintFrom]
  split <;> simp

theorem readVarintFrom_varint {limit value : Nat} (bound : value < 128 ^ (limit + 1))
    (rest : Bytes) : readVarintFrom (limit + 1) (varint value ++ rest) = some (value, rest) := by
  induction limit generalizing value with
  | zero =>
      have small : value < 128 := by simpa using bound
      have byte : value % 256 = value := Nat.mod_eq_of_lt (by omega)
      simp [varint_of_lt small, readVarintFrom, byte, small]
  | succ limit ih =>
      by_cases small : value < 128
      · have byte : value % 256 = value := Nat.mod_eq_of_lt (by omega)
        simp [varint_of_lt small, readVarintFrom, byte, small]
      · have less : value / 128 < 128 ^ (limit + 1) := by
          rw [Nat.div_lt_iff_lt_mul (by omega), ← Nat.pow_succ]
          exact bound
        have byte : (value % 128 + 128) % 256 = value % 128 + 128 := Nat.mod_eq_of_lt (by omega)
        rw [varint_of_le (by omega), List.cons_append, readVarintFrom, ih less]
        simp only [Nat.toUInt8_eq, UInt8.toNat_ofNat', byte, Option.map_some]
        rw [if_neg (by omega)]
        simp only [Option.some.injEq, Prod.mk.injEq, and_true]
        omega

theorem readVarint_varint {value : Nat} (bound : value < 2 ^ 64) (rest : Bytes) :
    readVarint (varint value ++ rest) = some (value, rest) := by
  have wide : value < 128 ^ (9 + 1) := by omega
  rw [readVarint, readVarintFrom_varint wide]
  exact Option.filter_eq_some_iff.mpr ⟨rfl, decide_eq_true bound⟩

theorem readVarintFrom_length {limit value : Nat} {stream rest : Bytes}
    (found : readVarintFrom limit stream = some (value, rest)) : rest.length < stream.length := by
  induction limit generalizing stream value with
  | zero => contradiction
  | succ limit ih =>
      cases stream with
      | nil => contradiction
      | cons byte tail =>
          rw [readVarintFrom] at found
          split at found
          · obtain ⟨_, rfl⟩ := Prod.mk.inj (Option.some.inj found)
            simp
          · obtain ⟨⟨high, after⟩, read, same⟩ := Option.map_eq_some_iff.mp found
            obtain ⟨_, rfl⟩ := Prod.mk.inj same
            have shorter := ih read
            rw [List.length_cons]
            omega

theorem readVarint_length {value : Nat} {stream rest : Bytes}
    (found : readVarint stream = some (value, rest)) : rest.length < stream.length :=
  readVarintFrom_length (Option.filter_eq_some_iff.mp found).1

theorem readVarint_consumes : Consumes readVarint := fun _ _ _ => readVarint_length

theorem readVarints_flatMap {values : List Nat} (bound : ∀ value ∈ values, value < 2 ^ 64) :
    readVarints (values.flatMap varint) = some values := by
  have back := @readAll_flatMap _ _ readVarint_consumes Nat varint id values
    fun value member rest => readVarint_varint (bound value member) rest
  rwa [List.map_id] at back

theorem readVarintFrom_cut {limit value : Nat} {stream more : Bytes}
    (cut : stream <+: varint value ++ more) :
    readVarintFrom limit stream = none ∨
      ∃ rest, stream = varint value ++ rest ∧ readVarintFrom limit stream = some (value, rest) := by
  induction limit generalizing value stream with
  | zero => exact Or.inl rfl
  | succ limit ih =>
      cases stream with
      | nil => exact Or.inl rfl
      | cons byte tail =>
          by_cases small : value < 128
          · have low : value % 256 = value := Nat.mod_eq_of_lt (by omega)
            rw [varint_of_lt small, List.singleton_append, List.cons_prefix_cons] at cut
            refine Or.inr ⟨tail, ?_, ?_⟩
            · rw [varint_of_lt small, List.singleton_append, cut.1]
            · simp [readVarintFrom, cut.1, low, small]
          · have low : (value % 128 + 128) % 256 = value % 128 + 128 := Nat.mod_eq_of_lt (by omega)
            rw [varint_of_le (by omega), List.cons_append, List.cons_prefix_cons] at cut
            obtain ⟨rfl, cut⟩ := cut
            simp only [readVarintFrom, Nat.toUInt8_eq, UInt8.toNat_ofNat', low]
            rw [if_neg (by omega)]
            rcases ih cut with missing | ⟨rest, same, found⟩
            · exact Or.inl (by rw [missing, Option.map_none])
            · refine Or.inr ⟨rest, ?_, ?_⟩
              · rw [varint_of_le (by omega), List.cons_append, same, Nat.toUInt8_eq]
              · simp only [found, Option.map_some, Option.some.injEq, Prod.mk.injEq, and_true]
                omega

theorem readVarint_cut {value : Nat} {stream more : Bytes} (cut : stream <+: varint value ++ more) :
    readVarint stream = none ∨
      ∃ rest, stream = varint value ++ rest ∧ readVarint stream = some (value, rest) := by
  rw [readVarint]
  rcases @readVarintFrom_cut 10 _ _ _ cut with missing | ⟨rest, same, found⟩
  · exact Or.inl (by rw [missing, Option.filter_none])
  · rw [found]
    by_cases bound : value < 2 ^ 64
    · exact Or.inr ⟨rest, same, Option.filter_eq_some_iff.mpr ⟨rfl, decide_eq_true bound⟩⟩
    · exact Or.inl (by rw [Option.filter_some, if_neg (by simpa using bound)])

end Varint

section Fields

theorem readValue_length {wireType : Nat} {value : Value} {stream rest : Bytes}
    (found : readValue wireType stream = some (value, rest)) : rest.length ≤ stream.length := by
  unfold readValue at found
  split at found
  · obtain ⟨⟨_, _⟩, read, same⟩ := Option.map_eq_some_iff.mp found
    obtain ⟨_, rfl⟩ := Prod.mk.inj same
    exact (readVarint_length read).le
  · obtain ⟨⟨_, _⟩, read, same⟩ := Option.map_eq_some_iff.mp found
    obtain ⟨_, rfl⟩ := Prod.mk.inj same
    exact readExact_length read
  · obtain ⟨⟨length, tail⟩, header, later⟩ := Option.bind_eq_some_iff.mp found
    obtain ⟨⟨_, _⟩, read, same⟩ := Option.map_eq_some_iff.mp later
    obtain ⟨_, rfl⟩ := Prod.mk.inj same
    exact (readExact_length read).trans (readVarint_length header).le
  · obtain ⟨⟨_, _⟩, read, same⟩ := Option.map_eq_some_iff.mp found
    obtain ⟨_, rfl⟩ := Prod.mk.inj same
    exact readExact_length read
  · contradiction

theorem readField_length {field : Field} {stream rest : Bytes}
    (found : readField stream = some (field, rest)) : rest.length < stream.length := by
  unfold readField at found
  split at found
  · contradiction
  · rename_i key tail header
    split at found
    · contradiction
    · obtain ⟨⟨_, _⟩, read, same⟩ := Option.map_eq_some_iff.mp found
      obtain ⟨_, rfl⟩ := Prod.mk.inj same
      exact (readValue_length read).trans_lt (readVarint_length header)

theorem readField_consumes : Consumes readField := fun _ _ _ => readField_length

theorem readField_delimited {number : Nat} {payload : Bytes} (positive : 0 < number)
    (numbered : number < 2 ^ 29) (bound : payload.length < 2 ^ 64) (rest : Bytes) :
    readField (delimitedField number payload ++ rest) = some (⟨number, .delimited payload⟩, rest) := by
  have kind : (8 * number + 2) % 8 = 2 := by omega
  have tag : (8 * number + 2) / 8 = number := by omega
  rw [delimitedField, List.append_assoc, List.append_assoc, readField, readVarint_varint (by omega)]
  simp only
  rw [if_neg (by omega), kind, tag, readValue, readVarint_varint bound]
  simp only [Option.bind_some]
  rw [readExact_append]
  rfl

/-- A part of a field is not a field. -/
theorem readField_cut {number : Nat} {payload stream : Bytes}
    (cut : stream <+: delimitedField number payload)
    (short : stream.length < (delimitedField number payload).length) : readField stream = none := by
  rw [delimitedField, List.append_assoc] at cut
  rw [delimitedField, List.length_append, List.length_append] at short
  unfold readField
  rcases readVarint_cut cut with missing | ⟨tail, rfl, found⟩
  · rw [missing]
  · rw [found]
    have kind : (8 * number + 2) % 8 = 2 := by omega
    rw [List.prefix_append_right_inj] at cut
    rw [List.length_append] at short
    simp only [kind]
    split
    · rfl
    · suffices missing : readValue 2 tail = none by rw [missing, Option.map_none]
      rw [readValue]
      rcases readVarint_cut cut with missing | ⟨rest, rfl, found⟩
      · rw [missing, Option.bind_none]
      · rw [List.length_append] at short
        rw [found]
        simp only [Option.bind_some]
        rw [readExact_of_short (by omega), Option.map_none]

theorem readFields_delimited {number : Nat} {payload : Bytes} (positive : 0 < number)
    (numbered : number < 2 ^ 29) (bound : payload.length < 2 ^ 64) (rest : Bytes) :
    readFields (delimitedField number payload ++ rest) =
      (readFields rest).map fun fields => ⟨number, .delimited payload⟩ :: fields :=
  readAll_of_some readField_consumes (readField_delimited positive numbered bound rest)

end Fields

end WireFormat
