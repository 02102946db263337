import Mathlib.Data.List.Basic
import Mathlib.Data.Nat.Bits
import Mathlib.Data.Nat.Bitwise
import DataStructAlgorithm.Foundation.Text

/-! # Bytes as bits

The first bit of a byte is its highest one. A byte is filled with bits from the left, or
the bits are shifted in from the right. -/

namespace DataStructAlgorithm.Foundation

/-- `byte & (1 << pos)` -/
def bitAt (byte : Byte) (pos : Nat) : Bool :=
  byte &&& (1 <<< UInt8.ofNat pos) != 0

/-- `byte |= (1 << pos)` -/
def setBit (byte : Byte) (pos : Nat) : Byte :=
  byte ||| (1 <<< UInt8.ofNat pos)

/-- `byte &= (-(1 << pos))` -/
def keepFrom (byte : Byte) (pos : Nat) : Byte :=
  byte &&& -(1 <<< UInt8.ofNat pos)

/-- `byte <<= count` -/
def shiftBy (byte : Byte) (count : Nat) : Byte :=
  byte <<< UInt8.ofNat count

/-- The bits of a byte, the highest one first. -/
def bits (byte : Byte) : List Bool :=
  (List.range 8).map fun index => bitAt byte (7 - index)

/-- The bits of a file. -/
def stream (bytes : List Byte) : List Bool :=
  bytes.flatMap bits

@[simp] theorem stream_nil : stream [] = [] := rfl

theorem stream_cons (byte : Byte) (rest : List Byte) :
    stream (byte :: rest) = bits byte ++ stream rest :=
  List.flatMap_cons

theorem stream_append (first second : List Byte) :
    stream (first ++ second) = stream first ++ stream second :=
  List.flatMap_append

@[simp] theorem length_bits (byte : Byte) : (bits byte).length = 8 := by
  rw [bits, List.length_map, List.length_range]

@[simp] theorem length_stream (bytes : List Byte) : (stream bytes).length = 8 * bytes.length := by
  induction bytes with
  | nil => rfl
  | cons byte rest induction =>
      rw [stream_cons, List.length_append, length_bits, induction, List.length_cons]
      omega

@[simp] theorem getElem_bits (byte : Byte) (index : Nat) (within : index < (bits byte).length) :
    (bits byte)[index] = bitAt byte (7 - index) := by
  simp [bits]

/-! ## Single bits -/

section Single

variable {pos index : Nat} (byte : Byte)

theorem toNat_one_shifted (within : pos < 8) : (1 <<< UInt8.ofNat pos : Byte).toNat = 2 ^ pos := by
  have every : ∀ pos < 8, (1 <<< UInt8.ofNat pos : Byte).toNat = 2 ^ pos := by decide
  exact every pos within

theorem bitAt_eq (within : pos < 8) : bitAt byte pos = byte.toNat.testBit pos := by
  rw [bitAt, Bool.eq_iff_iff, bne_iff_ne, ne_eq, ← UInt8.toNat_inj, UInt8.toNat_and,
    toNat_one_shifted within, Nat.and_two_pow]
  cases byte.toNat.testBit pos <;> simp

theorem bitAt_setBit (within : pos < 8) (indexWithin : index < 8) :
    bitAt (setBit byte pos) index = (bitAt byte index || decide (pos = index)) := by
  rw [bitAt_eq _ indexWithin, bitAt_eq _ indexWithin, setBit, UInt8.toNat_or,
    toNat_one_shifted within, Nat.testBit_or, Nat.testBit_two_pow]

theorem bitAt_keepFrom (within : pos < 8) (indexWithin : index < 8) :
    bitAt (keepFrom byte pos) index = (bitAt byte index && decide (pos ≤ index)) := by
  have mask : ∀ pos < 8, ∀ index < 8,
      (-(1 <<< UInt8.ofNat pos) : Byte).toNat.testBit index = decide (pos ≤ index) := by decide
  rw [bitAt_eq _ indexWithin, bitAt_eq _ indexWithin, keepFrom, UInt8.toNat_and, Nat.testBit_and,
    mask pos within index indexWithin]

theorem bitAt_shiftBy {count : Nat} (few : count < 8) (indexWithin : index < 8) :
    bitAt (shiftBy byte count) index = (decide (count ≤ index) && bitAt byte (index - count)) := by
  have same : (UInt8.ofNat count).toNat % 8 = count := by
    rw [UInt8.toNat_ofNat']
    omega
  rw [bitAt_eq _ indexWithin, bitAt_eq _ (by omega), shiftBy, UInt8.toNat_shiftLeft, same,
    Nat.testBit_mod_two_pow, Nat.testBit_shiftLeft]
  simp [indexWithin]

end Single

theorem bitAt_eq_of_bits {byte : Byte} {known : List Bool} (isKnown : bits byte = known)
    {index : Nat} (within : index < 8) : bitAt byte (7 - index) = (known[index]?).getD false := by
  rw [← isKnown, List.getElem?_eq_getElem (show index < (bits byte).length by simp [within]),
    getElem_bits]
  rfl

/-- A byte is known by its bits. -/
theorem eq_of_bits {first second : Byte} (same : bits first = bits second) : first = second := by
  apply UInt8.toNat_inj.mp
  apply Nat.eq_of_testBit_eq
  intro index
  rcases Nat.lt_or_ge index 8 with within | beyond
  · have at_ := congrArg (fun list => list[7 - index]?) same
    simp only [bits, List.getElem?_map] at at_
    rw [List.getElem?_range (by omega), Option.map_some, Option.map_some, Option.some.injEq,
      show 7 - (7 - index) = index by omega, bitAt_eq _ within, bitAt_eq _ within] at at_
    exact at_
  · have high : 2 ^ 8 ≤ 2 ^ index := Nat.pow_le_pow_right (by decide) beyond
    rw [Nat.testBit_lt_two_pow (Nat.lt_of_lt_of_le first.toNat_lt high),
      Nat.testBit_lt_two_pow (Nat.lt_of_lt_of_le second.toNat_lt high)]

/-! ## Filling a byte from the left -/

/-- A byte whose first bits are given and whose other bits are zero. -/
def Filled (byte : Byte) (front : List Bool) : Prop :=
  bits byte = front ++ List.replicate (8 - front.length) false

theorem filled_zero : Filled 0 [] := by
  rw [Filled]
  decide

/-- The next bit of a byte is set, or the bits behind it are cleared. -/
theorem Filled.push {byte : Byte} {front : List Bool} (filled : Filled byte front) {pos : Nat}
    (place : front.length + pos = 7) (bit : Bool) :
    Filled (if bit then setBit byte pos else keepFrom byte pos) (front ++ [bit]) := by
  have known : ∀ index < 8, bitAt byte (7 - index) =
      ((front ++ List.replicate (8 - front.length) false)[index]?).getD false :=
    fun index within => bitAt_eq_of_bits filled within
  apply List.ext_getElem
  · simp
    omega
  · intro index within _
    rw [length_bits] at within
    have here := known index within
    cases bit with
    | true =>
        simp only [if_true, getElem_bits]
        rw [bitAt_setBit _ (by omega) (by omega), here]
        grind
    | false =>
        simp only [Bool.false_eq_true, if_false, getElem_bits]
        rw [bitAt_keepFrom _ (by omega) (by omega), here]
        grind

/-! ## Shifting bits in from the right -/

/-- A byte whose last bits are given and whose other bits are zero. -/
def ShiftedIn (byte : Byte) (back : List Bool) : Prop :=
  bits byte = List.replicate (8 - back.length) false ++ back

theorem shiftedIn_zero : ShiftedIn 0 [] := by
  rw [ShiftedIn]
  decide

theorem or_one (byte : Byte) : byte ||| 1 = setBit byte 0 := by
  rw [setBit, show (1 <<< UInt8.ofNat 0 : Byte) = 1 by decide]

theorem ShiftedIn.push {byte : Byte} {back : List Bool} (shifted : ShiftedIn byte back)
    (few : back.length < 8) (bit : Bool) :
    ShiftedIn (if bit then shiftBy byte 1 ||| 1 else shiftBy byte 1) (back ++ [bit]) := by
  have known : ∀ index < 8, bitAt byte (7 - index) =
      ((List.replicate (8 - back.length) false ++ back)[index]?).getD false :=
    fun index within => bitAt_eq_of_bits shifted within
  apply List.ext_getElem
  · simp
    omega
  · intro index within _
    rw [length_bits] at within
    have inOrAtEnd : index < 7 ∨ index = 7 := by omega
    -- what stood one place to the right has come here
    have moved : index < 7 → bitAt byte (7 - index - 1) =
        (List.replicate (8 - (back ++ [bit]).length) false ++ (back ++ [bit]))[index] := by
      intro inside
      rw [show 7 - index - 1 = 7 - (index + 1) by omega, known (index + 1) (by omega)]
      grind
    cases bit with
    | true =>
        simp only [if_true, getElem_bits]
        rw [or_one, bitAt_setBit _ (by decide) (by omega), bitAt_shiftBy _ (by decide) (by omega)]
        rcases inOrAtEnd with inside | last
        · rw [moved inside, decide_eq_true (show 1 ≤ 7 - index by omega),
            decide_eq_false (show ¬0 = 7 - index by omega), Bool.true_and, Bool.or_false]
        · grind
    | false =>
        simp only [Bool.false_eq_true, if_false, getElem_bits]
        rw [bitAt_shiftBy _ (by decide) (by omega)]
        rcases inOrAtEnd with inside | last
        · rw [moved inside, decide_eq_true (show 1 ≤ 7 - index by omega), Bool.true_and]
        · grind

/-- The bits are moved to the left end. -/
theorem ShiftedIn.finish {byte : Byte} {back : List Bool} (shifted : ShiftedIn byte back)
    {count : Nat} (few : count < 8) (place : back.length + count = 8) :
    bits (shiftBy byte count) = back ++ List.replicate count false := by
  have known : ∀ index < 8, bitAt byte (7 - index) =
      ((List.replicate (8 - back.length) false ++ back)[index]?).getD false :=
    fun index within => bitAt_eq_of_bits shifted within
  apply List.ext_getElem
  · simp [place]
  · intro index within _
    rw [length_bits] at within
    rw [getElem_bits, bitAt_shiftBy _ few (by omega)]
    rcases Nat.lt_or_ge (7 - index) count with low | high
    · grind
    · rw [show 7 - index - count = 7 - (index + count) by omega, known (index + count) (by omega)]
      grind

/-! ## Reading bits -/

/-- The bits from a position in a byte on, and then those of the bytes behind it. -/
def ahead (value : Byte) (pos : Nat) (rest : List Byte) : List Bool :=
  (bits value).drop (7 - pos) ++ stream rest

theorem ahead_seven (value : Byte) (rest : List Byte) : ahead value 7 rest = stream (value :: rest) :=
  (stream_cons value rest).symm

theorem ahead_eq {pos : Nat} (within : pos ≤ 7) (value : Byte) (rest : List Byte) :
    ahead value pos rest =
      bitAt value pos :: if pos = 0 then stream rest else ahead value (pos - 1) rest := by
  have inByte : 7 - pos < (bits value).length := by
    rw [length_bits]
    omega
  rw [ahead, List.drop_eq_getElem_cons inByte, List.cons_append, getElem_bits,
    show 7 - (7 - pos) = pos by omega]
  apply congrArg
  by_cases last : pos = 0
  · have nothingLeft : (bits value).drop (7 - pos + 1) = [] := by
      apply List.drop_eq_nil_of_le
      rw [length_bits]
      omega
    rw [if_pos last, nothingLeft, List.nil_append]
  · rw [if_neg last, ahead, show 7 - (pos - 1) = 7 - pos + 1 by omega]

end DataStructAlgorithm.Foundation

/-! ## Arrays of bits

An array of bits that is kept in words of a fixed width. Place zero is the least
significant bit of the first word. -/

namespace DataStructAlgorithm.Foundation

variable {width : Nat}

/-- The bit at a place. Beyond the last word all bits are clear. -/
def bitOf (words : List (BitVec width)) (place : Nat) : Bool :=
  (words[place / width]?.getD 0).getLsbD (place % width)

theorem bitOf_replicate_zero (count place : Nat) :
    bitOf (List.replicate count (0 : BitVec width)) place = false := by
  rw [bitOf, List.getElem?_replicate]
  split <;> exact BitVec.getLsbD_zero

/-- Writing a word that differs from the one before in a single bit changes that bit of
the array and no other. -/
theorem bitOf_set {words : List (BitVec width)} {word : BitVec width} {place : Nat}
    (value : Bool) (positive : 0 < width) (within : place / width < words.length)
    (written : ∀ index < width, word.getLsbD index =
      if index = place % width then value else words[place / width].getLsbD index)
    (other : Nat) :
    bitOf (words.set (place / width) word) other =
      if other = place then value else bitOf words other := by
  have small : other % width < width := Nat.mod_lt other positive
  by_cases sameWord : other / width = place / width
  · have samePlace : other % width = place % width ↔ other = place := by
      constructor
      · intro sameBit
        have otherParts := Nat.div_add_mod other width
        have placeParts := Nat.div_add_mod place width
        rw [sameWord, sameBit] at otherParts
        exact otherParts.symm.trans placeParts
      · exact congrArg (· % width)
    rw [bitOf, bitOf, sameWord, List.getElem?_set_self within, Option.getD_some,
      written _ small, List.getElem?_eq_getElem within, Option.getD_some]
    simp only [samePlace]
  · have different : other ≠ place := fun same => sameWord (by rw [same])
    rw [bitOf, bitOf, List.getElem?_set_ne (Ne.symm sameWord), if_neg different]

end DataStructAlgorithm.Foundation
