import Mathlib.Algebra.Group.Int.Defs
import DataStructAlgorithm.Foundation.Slots
import DataStructAlgorithm.Foundation.Text

/-! # Strings in a buffer

The functions of `string.h`, `strings.h` and `stdlib.h` for strings that end with the
first zero byte. Positions in a string are counted from its beginning. -/

namespace DataStructAlgorithm.Foundation

/-- The string at an index. It has to end in the buffer. -/
def cString (buffer : List Byte) (index : Nat) : Outcome (List Byte) :=
  if 0 ∈ buffer.drop index then .ok ((buffer.drop index).takeWhile (· != 0))
  else .error .outOfRange

def toLower (byte : Byte) : Byte := if 65 ≤ byte ∧ byte ≤ 90 then byte + 32 else byte

/-- `strcasecmp` gives 0. -/
def sameText (text other : List Byte) : Bool := text.map toLower == other.map toLower

/-- `strncasecmp` gives 0. -/
def sameStart (count : Nat) (text other : List Byte) : Bool :=
  sameText (text.take count) (other.take count)

/-- `strspn` -/
def strspn (text accept : List Byte) : Nat := (text.takeWhile accept.contains).length

/-- `strpbrk` -/
def strpbrk (text accept : List Byte) : Option Nat := text.findIdx? accept.contains

/-- `strchr` -/
def strchr (text : List Byte) (byte : Byte) : Option Nat := text.findIdx? (· == byte)

/-- `strncpy` fills the rest of its destination with zeros. -/
def strncpy (text : List Byte) (count : Nat) : List Byte :=
  text.take count ++ List.replicate (count - text.length) 0

def isSpace (byte : Byte) : Bool := byte = 32 ∨ 9 ≤ byte ∧ byte ≤ 13

def isDigit (byte : Byte) : Bool := 48 ≤ byte ∧ byte ≤ 57

/-- The number that the digits at the beginning of a text stand for. -/
def leadingNumber (text : List Byte) : Nat :=
  (text.takeWhile isDigit).foldl (fun value digit => value * 10 + (digit.toNat - 48)) 0

/-- A number that is not in the range of `long` becomes the nearest one that is. -/
def clampLong (value : Int) : Int := max (-2 ^ 63) (min value (2 ^ 63 - 1))

/-- `atol` -/
def atol (text : List Byte) : Int :=
  match text.dropWhile isSpace with
  | [] => 0
  | first :: rest =>
      if first = 45 then clampLong (-leadingNumber rest)
      else if first = 43 then clampLong (leadingNumber rest)
      else clampLong (leadingNumber (first :: rest))

/-- A sum of two `int`, which is not defined if it is out of their range. -/
def addInt (first second : Int) : Outcome Int :=
  if -2 ^ 31 ≤ first + second ∧ first + second < 2 ^ 31 then .ok (first + second)
  else .error .outOfRange

/-- Store a byte at an index that may be negative. -/
def storeAt (buffer : List Byte) (index : Int) (byte : Byte) : Outcome (List Byte) :=
  if 0 ≤ index then writeAt buffer index.toNat byte else .error .outOfRange

/-! ## Strings that end in the buffer -/

/-- The text stands at the index, and a zero behind it. -/
def StringAt (buffer : List Byte) (index : Nat) (text : List Byte) : Prop :=
  0 ∉ text ∧ ∃ rest, buffer.drop index = text ++ 0 :: rest

namespace StringAt

variable {buffer : List Byte} {index : Nat} {text : List Byte}

theorem cString_eq (stands : StringAt buffer index text) : cString buffer index = .ok text := by
  rcases stands with ⟨plain, rest, dropEq⟩
  have member : (0 : Byte) ∈ text ++ 0 :: rest := by simp
  have pass : ∀ byte ∈ text, (byte != 0) = true := by
    intro byte inText
    rw [bne_iff_ne]
    exact fun isZero => plain (isZero ▸ inText)
  rw [cString, dropEq, if_pos member, List.takeWhile_append_of_pos pass,
    List.takeWhile_cons_of_neg (by decide), List.append_nil]

theorem zero_behind (stands : StringAt buffer index text) :
    buffer[index + text.length]? = some 0 := by
  rcases stands with ⟨_, rest, dropEq⟩
  rw [← List.getElem?_drop, dropEq, List.getElem?_append_right (Nat.le_refl _), Nat.sub_self]
  rfl

/-- The first byte is a zero if the string is empty. -/
theorem readAt_eq (stands : StringAt buffer index text) :
    readAt buffer index = .ok (text.headD 0) := by
  apply readAt_of_getElem?
  cases text with
  | nil => exact stands.zero_behind
  | cons first rest =>
      rcases stands with ⟨_, others, dropEq⟩
      have atStart := congrArg (·[0]?) dropEq
      simp only [List.getElem?_drop, Nat.add_zero] at atStart
      exact atStart

theorem end_lt (stands : StringAt buffer index text) : index + text.length < buffer.length :=
  (List.getElem?_eq_some_iff.mp stands.zero_behind).1

/-- Bytes in front of a zero make a string up to the first zero in them. -/
theorem of_takeWhile {content rest : List Byte} (dropEq : buffer.drop index = content ++ 0 :: rest) :
    StringAt buffer index (content.takeWhile (· != 0)) := by
  have plain : (0 : Byte) ∉ content.takeWhile (· != 0) := by
    intro member
    have passes := List.all_eq_true.mp List.all_takeWhile 0 member
    cases passes
  have split := List.takeWhile_append_dropWhile (p := fun byte : Byte => byte != 0) (l := content)
  refine ⟨plain, ?_⟩
  cases remaining : content.dropWhile (· != 0) with
  | nil =>
      rw [remaining, List.append_nil] at split
      exact ⟨rest, by rw [split]; exact dropEq⟩
  | cons first others =>
      have isZero := List.head?_dropWhile_not (fun byte : Byte => byte != 0) content
      rw [remaining] at isZero split
      have first_eq : first = 0 := by simpa using isZero
      subst first_eq
      refine ⟨others ++ 0 :: rest, ?_⟩
      rw [dropEq]
      conv => lhs; rw [← split]
      rw [List.append_assoc, List.cons_append]

/-- There is a string wherever there is a zero later on. -/
theorem exists_of_zero {last : Nat} (within : index ≤ last) (zero : buffer[last]? = some 0) :
    ∃ text, StringAt buffer index text ∧ index + text.length ≤ last := by
  have found : (buffer.drop index)[last - index]? = some 0 := by
    rw [List.getElem?_drop, Nat.add_sub_cancel' within]
    exact zero
  rcases List.eq_append_cons_of_mem (List.mem_of_getElem? found) with ⟨text, rest, dropEq, plain⟩
  refine ⟨text, ⟨plain, rest, dropEq⟩, ?_⟩
  rw [dropEq] at found
  rcases Nat.lt_or_ge (last - index) text.length with before | behind
  · rw [List.getElem?_append_left before] at found
    exact absurd (List.mem_of_getElem? found) plain
  · omega

/-- The string that begins inside another one. -/
theorem advance {first second : List Byte} (stands : StringAt buffer index (first ++ second)) :
    StringAt buffer (index + first.length) second := by
  rcases stands with ⟨plain, rest, dropEq⟩
  refine ⟨fun member => plain (List.mem_append_right _ member), rest, ?_⟩
  rw [← List.drop_drop, dropEq, List.append_assoc, List.drop_left]

theorem drop (stands : StringAt buffer index text) {count : Nat} (within : count ≤ text.length) :
    StringAt buffer (index + count) (text.drop count) := by
  have parts := List.take_append_drop count text
  rw [← parts] at stands
  have later := stands.advance
  rwa [List.length_take_of_le within] at later

/-- Nothing but the bytes of the string and the zero behind it matter. -/
theorem congr {other : List Byte} (stands : StringAt buffer index text)
    (same : ∀ place, index ≤ place → place ≤ index + text.length →
      other[place]? = buffer[place]?) : StringAt other index text := by
  refine ⟨stands.1, other.drop (index + text.length + 1), ?_⟩
  rcases stands with ⟨_, rest, dropEq⟩
  apply List.ext_getElem?
  intro place
  have original := congrArg (·[place]?) dropEq
  simp only [List.getElem?_drop] at original
  rcases Nat.lt_trichotomy place text.length with inside | equal | beyond
  · rw [List.getElem?_drop, same _ (by omega) (by omega), original,
      List.getElem?_append_left inside, List.getElem?_append_left inside]
  · subst equal
    rw [List.getElem?_drop, same _ (by omega) (by omega), original,
      List.getElem?_append_right (Nat.le_refl _), List.getElem?_append_right (Nat.le_refl _),
      Nat.sub_self]
    rfl
  · have split : place - text.length = (place - text.length - 1) + 1 := by omega
    rw [List.getElem?_append_right (by omega), split, List.getElem?_cons_succ,
      List.getElem?_drop, List.getElem?_drop]
    congr 1
    omega

/-- A zero inside the string ends it there. -/
theorem cut (stands : StringAt buffer index text) {count : Nat} (within : count < text.length) :
    StringAt (buffer.set (index + count) 0) index (text.take count) := by
  have room := stands.end_lt
  rcases stands with ⟨plain, rest, dropEq⟩
  refine ⟨fun member => plain (List.mem_of_mem_take member), text.drop (count + 1) ++ 0 :: rest, ?_⟩
  rw [List.drop_set, if_neg (by omega), Nat.add_sub_cancel_left, dropEq,
    List.set_append_left _ _ within, List.set_eq_take_append_cons_drop, if_pos within,
    List.append_assoc, List.cons_append]

/-- The string behind such a zero. -/
theorem behind (stands : StringAt buffer index text) {count : Nat} (within : count < text.length) :
    StringAt (buffer.set (index + count) 0) (index + (count + 1)) (text.drop (count + 1)) := by
  apply (stands.drop within).congr
  intro place low high
  exact List.getElem?_set_ne (by omega)

end StringAt

/-! ## Zeros -/

/-- Some bytes of a buffer have been replaced by zeros. -/
structure Zeroed (before after : List Byte) : Prop where
  length : after.length = before.length
  bytes : ∀ index : Nat, after[index]? = before[index]? ∨ after[index]? = some 0

theorem Zeroed.refl (buffer : List Byte) : Zeroed buffer buffer :=
  ⟨rfl, fun _ => Or.inl rfl⟩

theorem Zeroed.trans {first second third : List Byte} (before : Zeroed first second)
    (after : Zeroed second third) : Zeroed first third where
  length := after.length.trans before.length
  bytes := by
    intro index
    rcases after.bytes index with same | zero
    · rw [same]
      exact before.bytes index
    · exact Or.inr zero

theorem zeroed_set (buffer : List Byte) (index : Nat) : Zeroed buffer (buffer.set index 0) where
  length := List.length_set
  bytes := by
    intro other
    rw [List.getElem?_set]
    split
    · split
      · exact Or.inr rfl
      · rename_i beyond
        exact Or.inl (List.getElem?_eq_none (by omega)).symm
    · exact Or.inl rfl

/-- A zero stays a zero. -/
theorem Zeroed.zero {before after : List Byte} (zeroed : Zeroed before after) {index : Nat}
    (zero : before[index]? = some 0) : after[index]? = some 0 := by
  rcases zeroed.bytes index with same | isZero
  · rw [same]
    exact zero
  · exact isZero

theorem strspn_le (text accept : List Byte) : strspn text accept ≤ text.length :=
  (List.takeWhile_sublist _).length_le

theorem strpbrk_lt {text accept : List Byte} {offset : Nat}
    (found : strpbrk text accept = some offset) : offset < text.length :=
  (List.findIdx?_eq_some_iff_getElem.mp found).1

theorem strchr_lt {text : List Byte} {byte : Byte} {offset : Nat}
    (found : strchr text byte = some offset) : offset < text.length :=
  (List.findIdx?_eq_some_iff_getElem.mp found).1

theorem length_eq_of_sameText {text other : List Byte} (same : sameText text other = true) :
    text.length = other.length := by
  have lengths := congrArg List.length (beq_iff_eq.mp same)
  rwa [List.length_map, List.length_map] at lengths

/-- A text that begins like another one is long enough. -/
theorem le_length_of_sameStart {count : Nat} {text other : List Byte}
    (same : sameStart count text other = true) (long : count ≤ other.length) :
    count ≤ text.length := by
  have lengths := length_eq_of_sameText same
  rw [List.length_take, List.length_take] at lengths
  omega

/-- Compared with a count beyond its end the other text has to end there too. -/
theorem length_eq_of_sameStart {count : Nat} {text other : List Byte}
    (same : sameStart count text other = true) (short : other.length < count) :
    text.length = other.length := by
  have lengths := length_eq_of_sameText same
  rw [List.length_take, List.length_take] at lengths
  omega

/-! ## Numbers that are printed and read again -/

theorem length_decimal_le {value : Int} (low : -2 ^ 31 ≤ value) (high : value < 2 ^ 31) :
    (decimal value).length ≤ 11 := by
  have digits : (Nat.toDigits 10 value.natAbs).length ≤ 10 :=
    (Nat.length_toDigits_le_iff (by decide) (by decide)).mpr (by omega)
  rw [decimal, List.length_append, List.length_map]
  split
  · have sign : (ascii "-").length = 1 := rfl
    omega
  · rw [List.length_nil]
    omega

theorem char_toUInt8_toNat {char : Char} (isDigit : char.isDigit = true) :
    char.toUInt8.toNat = char.toNat := by
  simp only [Char.isDigit, Bool.and_eq_true, decide_eq_true_eq] at isDigit
  have high : char.val.toNat ≤ 57 := UInt32.le_iff_toNat_le.mp isDigit.2
  exact Nat.mod_eq_of_lt (Nat.lt_of_le_of_lt high (by decide))

theorem foldl_digits (digits : List Char) (areDigits : ∀ char ∈ digits, char.isDigit = true)
    (start : Nat) :
    (digits.map Char.toUInt8).foldl (fun value digit => value * 10 + (digit.toNat - 48)) start =
      Nat.ofDigitChars 10 digits start := by
  induction digits generalizing start with
  | nil => rw [List.map_nil, List.foldl_nil, Nat.ofDigitChars_nil]
  | cons char digits induction =>
      have first := char_toUInt8_toNat (areDigits char List.mem_cons_self)
      rw [List.map_cons, List.foldl_cons, first, Nat.ofDigitChars_cons, Nat.mul_comm]
      exact induction (fun other member => areDigits other (List.mem_cons_of_mem _ member)) _

/-- The digits of a number, in front of something that is not a digit. -/
theorem leadingNumber_digits (number : Nat) (rest : List Byte)
    (ends : ∀ byte ∈ rest.head?, isDigit byte = false) :
    leadingNumber ((Nat.toDigits 10 number).map Char.toUInt8 ++ rest) = number := by
  have areDigits : ∀ char ∈ Nat.toDigits 10 number, char.isDigit = true := fun char member =>
    Nat.isDigit_of_mem_toDigits (by decide) (by decide) member
  have kept : ∀ byte ∈ (Nat.toDigits 10 number).map Char.toUInt8, isDigit byte = true := by
    intro byte member
    rcases List.mem_map.mp member with ⟨char, inDigits, rfl⟩
    exact decide_eq_true (digit_byte (areDigits char inDigits))
  have dropped : rest.takeWhile isDigit = [] := by
    cases rest with
    | nil => rfl
    | cons byte rest => exact List.takeWhile_cons_of_neg (by rw [ends byte rfl]; decide)
  rw [leadingNumber, List.takeWhile_append_of_pos kept, dropped, List.append_nil,
    foldl_digits _ areDigits, Nat.ofDigitChars_ten_toDigits]

/-- Digits are read as a number without a sign. -/
theorem atol_digits {text : List Byte} (first : ∀ byte ∈ text.head?, 48 ≤ byte ∧ byte ≤ 57)
    (present : text ≠ []) : atol text = clampLong (leadingNumber text) := by
  cases text with
  | nil => exact absurd rfl present
  | cons byte rest =>
      rcases first byte rfl with ⟨low, high⟩
      have low := UInt8.le_iff_toNat_le.mp low
      have other : ∀ code : Byte, code.toNat < 48 → byte ≠ code := by
        intro code small same
        rw [same] at low
        exact absurd low (Nat.not_le.mpr small)
      have noSpace : isSpace byte = false := by
        refine decide_eq_false fun isSpace => ?_
        rcases isSpace with blank | ⟨_, control⟩
        · exact other 32 (by decide) blank
        · exact absurd (Nat.le_trans low (UInt8.le_iff_toNat_le.mp control)) (by decide)
      rw [atol, List.dropWhile_cons_of_neg (by rw [noSpace]; decide)]
      dsimp only
      rw [if_neg (other 45 (by decide)), if_neg (other 43 (by decide))]

/-- `atol` reads what `%d` has printed. -/
theorem atol_decimal {value : Int} (low : -2 ^ 63 ≤ value) (high : value < 2 ^ 63)
    (rest : List Byte) (ends : ∀ byte ∈ rest.head?, isDigit byte = false) :
    atol (decimal value ++ rest) = value := by
  by_cases negative : value < 0
  · have start : (decimal value ++ rest).dropWhile isSpace =
        45 :: ((Nat.toDigits 10 value.natAbs).map Char.toUInt8 ++ rest) := by
      rw [decimal, if_pos negative]
      rfl
    rw [atol, start]
    dsimp only
    rw [if_pos rfl, leadingNumber_digits _ _ ends, clampLong]
    omega
  · have digits : decimal value = (Nat.toDigits 10 value.natAbs).map Char.toUInt8 := by
      rw [decimal, if_neg negative]
      rfl
    have present : decimal value ≠ [] := by
      rw [digits]
      exact fun empty => Nat.toDigits_ne_nil (List.map_eq_nil_iff.mp empty)
    have first : ∀ byte ∈ (decimal value ++ rest).head?, 48 ≤ byte ∧ byte ≤ 57 := by
      intro byte member
      have inDecimal : byte ∈ decimal value := by
        rw [List.head?_append, List.head?_eq_some_head present, Option.some_or] at member
        cases member
        exact List.head_mem present
      rw [digits] at inDecimal
      rcases List.mem_map.mp inDecimal with ⟨char, inDigits, rfl⟩
      exact digit_byte (Nat.isDigit_of_mem_toDigits (by decide) (by decide) inDigits)
    rw [atol_digits first (by simp [present]), digits, leadingNumber_digits _ _ ends, clampLong]
    omega

end DataStructAlgorithm.Foundation
