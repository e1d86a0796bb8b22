import Mathlib.Data.List.DropRight
import Mathlib.Data.List.Induction
import Mathlib.Tactic.Linarith

/-!
C strings as byte lists: literals, `snprintf` truncation, `%d` conversion,
`atoi` and the four-byte network order of `htonl`.
-/

namespace ByteString

abbrev Bytes := List UInt8

def ascii (text : String) : Bytes := text.toList.map fun letter => letter.toNat.toUInt8

def isUtf8 (text : Bytes) : Bool := (ByteArray.mk text.toArray).validateUTF8

def slash : UInt8 := 47

def minus : UInt8 := 45

/-- What `snprintf` leaves in a buffer of `size` bytes before the terminating NUL. -/
def snprintf (size : Nat) (text : Bytes) : Bytes := text.take (size - 1)

theorem snprintf_of_fits {size : Nat} {text : Bytes} (fits : text.length < size) :
    snprintf size text = text :=
  List.take_of_length_le (by omega)

def digits (value : Nat) : Bytes := (Nat.toDigits 10 value).map fun letter => letter.toNat.toUInt8

theorem digit_range {letter : Char} (digit : letter.isDigit = true) :
    48 ≤ letter.toNat ∧ letter.toNat ≤ 57 := by
  simp only [Char.isDigit, Bool.and_eq_true, decide_eq_true_eq] at digit
  exact ⟨by simpa using UInt32.le_iff_toNat_le.mp digit.1,
    by simpa using UInt32.le_iff_toNat_le.mp digit.2⟩

theorem toDigits_range {value : Nat} {letter : Char} (member : letter ∈ Nat.toDigits 10 value) :
    48 ≤ letter.toNat ∧ letter.toNat ≤ 57 :=
  digit_range (Nat.isDigit_of_mem_toDigits (by omega) (by omega) member)

theorem digits_range {value : Nat} {byte : UInt8} (member : byte ∈ digits value) :
    48 ≤ byte.toNat ∧ byte.toNat ≤ 57 := by
  obtain ⟨letter, belongs, rfl⟩ := List.mem_map.mp member
  have range := toDigits_range belongs
  have small : letter.toNat % 256 = letter.toNat := Nat.mod_eq_of_lt (by omega)
  simpa [small] using range

theorem digits_ne_nil (value : Nat) : digits value ≠ [] := by
  simp [digits, Nat.toDigits_ne_nil]

theorem map_inj_of_range {left right : List Char}
    (leftRange : ∀ letter ∈ left, letter.toNat ≤ 57)
    (rightRange : ∀ letter ∈ right, letter.toNat ≤ 57)
    (same : left.map (fun letter => letter.toNat.toUInt8) =
      right.map (fun letter => letter.toNat.toUInt8)) : left = right := by
  induction left generalizing right with
  | nil => simpa using same.symm
  | cons first rest ih =>
      cases right with
      | nil => simp at same
      | cons other others =>
          simp only [List.map_cons, List.cons.injEq] at same
          have firstSmall := leftRange first (by simp)
          have otherSmall := rightRange other (by simp)
          have codes : first.toNat = other.toNat := by
            have equal := congrArg UInt8.toNat same.1
            simp only [UInt8.toNat_ofNat', Nat.toUInt8_eq] at equal
            omega
          have letters : first = other := Char.toNat_inj.mp codes
          rw [letters, ih (fun letter member => leftRange letter (by simp [member]))
            (fun letter member => rightRange letter (by simp [member])) same.2]

theorem digits_injective {left right : Nat} (same : digits left = digits right) :
    left = right := by
  have letters := map_inj_of_range (fun _ member => (toDigits_range member).2)
    (fun _ member => (toDigits_range member).2) same
  rw [← Nat.ofDigitChars_ten_toDigits (n := left), letters, Nat.ofDigitChars_ten_toDigits]

def decimal (value : Int32) : Bytes :=
  if value.toInt < 0 then minus :: digits value.toInt.natAbs else digits value.toInt.natAbs

theorem minus_notMem_digits (value : Nat) : minus ∉ digits value := by
  intro member
  have range := digits_range member
  simp [minus] at range

theorem decimal_injective {left right : Int32} (same : decimal left = decimal right) :
    left = right := by
  apply Int32.toInt_inj.mp
  unfold decimal at same
  split at same <;> split at same
  · have values := digits_injective (List.cons.inj same).2
    omega
  · exact absurd (same ▸ List.mem_cons_self) (minus_notMem_digits _)
  · exact absurd (same.symm ▸ List.mem_cons_self) (minus_notMem_digits _)
  · have values := digits_injective same
    omega

theorem decimal_range {value : Int32} {byte : UInt8} (member : byte ∈ decimal value) :
    byte = minus ∨ 48 ≤ byte.toNat ∧ byte.toNat ≤ 57 := by
  unfold decimal at member
  split at member
  · exact (List.mem_cons.mp member).imp_right digits_range
  · exact Or.inr (digits_range member)

theorem decimal_ne_nil (value : Int32) : decimal value ≠ [] := by
  unfold decimal
  split
  · simp
  · exact digits_ne_nil _

theorem digits_length {value : Nat} (bound : value < 10 ^ 10) : (digits value).length ≤ 10 := by
  simpa [digits] using (Nat.length_toDigits_le_iff (by omega) (by omega)).mpr bound

theorem decimal_length (value : Int32) : (decimal value).length ≤ 11 := by
  have lower := value.le_toInt
  have upper := value.toInt_lt
  have digitCount : (digits value.toInt.natAbs).length ≤ 10 := digits_length (by omega)
  unfold decimal
  split
  · rw [List.length_cons]
    omega
  · omega

def isSpace (byte : UInt8) : Bool := byte = 32 || (9 ≤ byte && byte ≤ 13)

def isDigit (byte : UInt8) : Bool := 48 ≤ byte && byte ≤ 57

/-- `strtol` in base ten, which stops at the bounds of `long`, cut down to an `int`. -/
def atoi (text : Bytes) : Int32 :=
  let (negative, rest) := match text.dropWhile isSpace with
    | 45 :: rest => (true, rest)
    | 43 :: rest => (false, rest)
    | rest => (false, rest)
  let value : Int := (rest.takeWhile isDigit).foldl
    (fun value digit => 10 * value + (digit.toNat - 48 : Nat)) 0
  Int32.ofInt (max (-2 ^ 63) (min (2 ^ 63 - 1) (if negative then -value else value)))

theorem foldl_digits (letters : List Char) (small : ∀ letter ∈ letters, letter.toNat ≤ 57)
    (start : Nat) :
    (letters.map fun letter => letter.toNat.toUInt8).foldl
        (fun (value : Int) digit => 10 * value + (digit.toNat - 48 : Nat)) start =
      Nat.ofDigitChars 10 letters start := by
  induction letters generalizing start with
  | nil => simp
  | cons letter rest ih =>
      rw [List.forall_mem_cons] at small
      have code : letter.toNat.toUInt8.toNat = letter.toNat := by
        simp only [Nat.toUInt8_eq, UInt8.toNat_ofNat']
        omega
      have next := ih small.2 (10 * start + (letter.toNat - '0'.toNat))
      rw [List.map_cons, List.foldl_cons, code, Nat.ofDigitChars_cons, ← next]
      push_cast
      rfl

theorem digits_isDigit {value : Nat} {byte : UInt8} (member : byte ∈ digits value) :
    isDigit byte = true := by
  have range := digits_range member
  simp only [isDigit, Bool.and_eq_true, decide_eq_true_eq, UInt8.le_iff_toNat_le]
  exact range

theorem digits_value (value : Nat) : ((digits value).takeWhile isDigit).foldl
    (fun (value : Int) digit => 10 * value + (digit.toNat - 48 : Nat)) 0 = value := by
  rw [List.takeWhile_eq_self_iff.mpr fun byte => digits_isDigit, digits]
  have folded := foldl_digits (Nat.toDigits 10 value) (fun _ member => (toDigits_range member).2) 0
  rwa [Nat.ofDigitChars_ten_toDigits] at folded

theorem isSpace_of_large {byte : UInt8} (large : 33 ≤ byte.toNat) : isSpace byte = false := by
  have notBlank : byte ≠ 32 := by
    rintro rfl
    simp at large
  have above : ¬byte ≤ 13 := by
    rw [UInt8.le_iff_toNat_le]
    simp
    omega
  simp [isSpace, notBlank, above]

theorem atoi_digits {value : Nat} (bound : value < 2 ^ 63) :
    atoi (digits value) = Int32.ofNat value := by
  obtain ⟨first, rest, same⟩ := List.exists_cons_of_ne_nil (digits_ne_nil value)
  have range := @digits_range value first (by simp [same])
  have folded := digits_value value
  rw [same] at folded
  have notMinus : first ≠ 45 := by
    rintro rfl
    simp at range
  have notPlus : first ≠ 43 := by
    rintro rfl
    simp at range
  have kept : (first :: rest).dropWhile isSpace = first :: rest :=
    List.dropWhile_cons_of_neg (by simp [isSpace_of_large (by omega : 33 ≤ first.toNat)])
  rw [atoi, same, kept]
  split
  rename_i negative body signed
  split at signed
  · exact absurd (List.cons.inj ‹_›).1 notMinus
  · exact absurd (List.cons.inj ‹_›).1 notPlus
  · obtain ⟨rfl, rfl⟩ := Prod.mk.inj signed
    rw [folded, ← Int32.ofInt_eq_ofNat]
    have clamped : max (-2 ^ 63) (min (2 ^ 63 - 1) (value : Int)) = value := by omega
    simp only [Bool.false_eq_true, if_false]
    rw [clamped]

theorem atoi_minus_digits {value : Nat} (bound : value ≤ 2 ^ 63) :
    atoi (minus :: digits value) = Int32.ofInt (-value) := by
  have kept : (minus :: digits value).dropWhile isSpace = 45 :: digits value :=
    List.dropWhile_cons_of_neg (by decide)
  rw [atoi, kept]
  simp only [digits_value, if_true]
  congr 1
  omega

theorem atoi_decimal (value : Int32) : atoi (decimal value) = value := by
  have lower := value.le_toInt
  have upper := value.toInt_lt
  unfold decimal
  split
  · rename_i negative
    rw [atoi_minus_digits (by omega), Int.ofNat_natAbs_of_nonpos (by omega), Int.neg_neg,
      Int32.ofInt_toInt]
  · rename_i positive
    rw [atoi_digits (by omega), ← Int32.ofInt_eq_ofNat, Int.natAbs_of_nonneg (by omega),
      Int32.ofInt_toInt]

def networkOrder (value : Nat) : Bytes :=
  [(value / 16777216).toUInt8, (value / 65536).toUInt8, (value / 256).toUInt8, value.toUInt8]

def fromNetworkOrder (first second third fourth : UInt8) : Nat :=
  first.toNat * 16777216 + second.toNat * 65536 + third.toNat * 256 + fourth.toNat

theorem fromNetworkOrder_networkOrder {value : Nat} (bound : value < 2 ^ 32) :
    fromNetworkOrder (value / 16777216).toUInt8 (value / 65536).toUInt8 (value / 256).toUInt8
      value.toUInt8 = value := by
  simp only [fromNetworkOrder, Nat.toUInt8_eq, UInt8.toNat_ofNat']
  omega

theorem networkOrder_length (value : Nat) : (networkOrder value).length = 4 := rfl

end ByteString
