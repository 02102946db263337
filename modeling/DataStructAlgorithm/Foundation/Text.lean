import Mathlib.Algebra.Group.Nat.Defs
/-! # Bytes and C strings -/

namespace DataStructAlgorithm.Foundation

abbrev Byte := UInt8

/-- The bytes of a string literal. -/
def ascii (text : String) : List Byte := text.toList.map Char.toUInt8

/-- What `%d` prints. -/
def decimal (value : Int) : List Byte :=
  (if value < 0 then ascii "-" else []) ++ (Nat.toDigits 10 value.natAbs).map Char.toUInt8

/-- The conversion of a wider integer to `int`. -/
def toInt (value : Int) : Int := value.bmod (2 ^ 32)

/-- A buffer after `payload` has been stored from an index on. -/
def overwrite (buffer : List Byte) (index : Nat) (payload : List Byte) : List Byte :=
  buffer.take index ++ payload ++ buffer.drop (index + payload.length)

/-- What `vsnprintf` stores at an index when it may use `size` bytes for a text. -/
def printInto (buffer : List Byte) (index size : Nat) (text : List Byte) : List Byte :=
  if size = 0 then buffer else overwrite buffer index (text.take (size - 1) ++ [0])

theorem digit_byte {char : Char} (isDigit : char.isDigit = true) :
    48 ≤ char.toUInt8 ∧ char.toUInt8 ≤ 57 := by
  simp only [Char.isDigit, Bool.and_eq_true, decide_eq_true_eq] at isDigit
  have low := UInt32.le_iff_toNat_le.mp isDigit.1
  have high := UInt32.le_iff_toNat_le.mp isDigit.2
  have small : char.toUInt8.toNat = char.val.toNat % 256 := rfl
  rw [UInt8.le_iff_toNat_le, UInt8.le_iff_toNat_le, small]
  simp at low high ⊢
  omega

/-- A printed number consists of digits and a sign. -/
theorem digit_of_mem_decimal {value : Int} {byte : Byte} (member : byte ∈ decimal value) :
    byte = 45 ∨ 48 ≤ byte ∧ byte ≤ 57 := by
  rw [decimal, List.mem_append] at member
  rcases member with sign | digit
  · by_cases negative : value < 0
    · rw [if_pos negative] at sign
      exact Or.inl (List.mem_singleton.mp sign)
    · rw [if_neg negative] at sign
      cases sign
  · rcases List.mem_map.mp digit with ⟨char, inDigits, rfl⟩
    have isDigit := Nat.isDigit_of_mem_toDigits (by decide) (by decide) inDigits
    exact Or.inr (digit_byte isDigit)

theorem length_overwrite {buffer : List Byte} {index : Nat} {payload : List Byte}
    (room : index + payload.length ≤ buffer.length) :
    (overwrite buffer index payload).length = buffer.length := by
  simp only [overwrite, List.length_append, List.length_take, List.length_drop]
  omega

theorem take_overwrite {buffer : List Byte} {index : Nat} (payload : List Byte)
    (within : index ≤ buffer.length) {count : Nat} (fits : count ≤ payload.length) :
    (overwrite buffer index payload).take (index + count) =
      buffer.take index ++ payload.take count := by
  have start : (buffer.take index).length = index := List.length_take_of_le within
  rw [overwrite, List.append_assoc, List.take_append, start, List.take_append,
    List.take_of_length_le (by omega), Nat.add_sub_cancel_left,
    Nat.sub_eq_zero_of_le fits, List.take_zero, List.append_nil]

theorem getElem?_overwrite_of_lt {buffer : List Byte} {index place : Nat} (payload : List Byte)
    (within : index ≤ buffer.length) (before : place < index) :
    (overwrite buffer index payload)[place]? = buffer[place]? := by
  have start : (buffer.take index).length = index := List.length_take_of_le within
  rw [overwrite, List.append_assoc, List.getElem?_append_left (by omega),
    List.getElem?_take_of_lt before]

end DataStructAlgorithm.Foundation
