import Mathlib.Algebra.Group.Nat.Defs
import Mathlib.Algebra.Group.Int.Defs
import DataStructAlgorithm.Foundation.Conversions

/-! # `Memcpy` of `Algorithm/MinStack/MinStack.hpp`

Addresses have 64 bits. A pointer that is moved past either end of the memory wraps around. -/

namespace DataStructAlgorithm.Algorithm.MinStack

open Foundation

abbrev Memory := Nat → Byte

namespace Memory

/-- `*pointer = byte` -/
def write (memory : Memory) (pointer : Nat) (byte : Byte) : Memory :=
  fun address => if address = pointer then byte else memory address

theorem write_same (memory : Memory) (pointer : Nat) (byte : Byte) :
    memory.write pointer byte pointer = byte := if_pos rfl

theorem write_other (memory : Memory) {pointer address : Nat} (byte : Byte)
    (different : address ≠ pointer) : memory.write pointer byte address = memory address :=
  if_neg different

end Memory

/-- `pointer + offset` -/
def movePointer (pointer offset : Nat) : Nat := (pointer + offset) % 2 ^ 64

/-- `--pointer` -/
def previous (pointer : Nat) : Nat := if pointer = 0 then 2 ^ 64 - 1 else pointer - 1

/-- `while (size--) { *d++ = *s++; }` -/
def copyForward : (size : Nat) → Memory → (d s : Nat) → Memory
  | 0, memory, _, _ => memory
  | size + 1, memory, d, s =>
      copyForward size (memory.write d (memory s)) (movePointer d 1) (movePointer s 1)

/-- `for (size_t i = 0; i < size; ++i) { *d-- = *s--; }` -/
def copyBackward : (size : Nat) → Memory → (d s : Nat) → Memory
  | 0, memory, _, _ => memory
  | size + 1, memory, d, s =>
      copyBackward size (memory.write d (memory s)) (previous d) (previous s)

/-- `Memcpy`, the memory after it and the pointer that it returns. -/
def memcpy (memory : Memory) (dst src size : Nat) : Outcome (Memory × Nat) :=
  if dst = 0 then .error .assertion
  else if src = 0 then .error .assertion
  else if dst > movePointer src size ∨ dst < src then .ok (copyForward size memory dst src, dst)
  else
    let back := toSize ((size : Int) - 1)
    .ok (copyBackward size memory (movePointer dst back) (movePointer src back), dst)

/-- The bytes of the source stand at the destination, and no other byte has changed. -/
structure Copied (before after : Memory) (dst src size : Nat) : Prop where
  inside : ∀ offset < size, after (dst + offset) = before (src + offset)
  outside : ∀ address, address < dst ∨ dst + size ≤ address → after address = before address

theorem Copied.none (memory : Memory) (dst src : Nat) : Copied memory memory dst src 0 where
  inside offset less := absurd less (Nat.not_lt_zero offset)
  outside _ _ := rfl

theorem movePointer_of_lt {pointer offset : Nat} (inside : pointer + offset < 2 ^ 64) :
    movePointer pointer offset = pointer + offset := Nat.mod_eq_of_lt inside

theorem previous_succ (pointer : Nat) : previous (pointer + 1) = pointer :=
  if_neg (Nat.succ_ne_zero pointer)

/-- A byte that is read later has not been overwritten. -/
theorem Copied.first {before after : Memory} {dst src size : Nat}
    (apart : dst ≤ src ∨ src + size < dst)
    (rest : Copied (before.write dst (before src)) after (dst + 1) (src + 1) size) :
    Copied before after dst src (size + 1) := by
  constructor
  · intro offset less
    cases offset with
    | zero =>
        have kept := rest.outside dst (Or.inl (Nat.lt_succ_self dst))
        rw [Nat.add_zero, Nat.add_zero, kept, Memory.write_same]
    | succ offset =>
        have copied := rest.inside offset (Nat.lt_of_succ_lt_succ less)
        rw [Memory.write_other _ _ (by omega)] at copied
        rw [Nat.add_right_comm, Nat.add_right_comm src] at copied
        exact copied
  · intro address away
    rw [rest.outside address (by omega), Memory.write_other _ _ (by omega)]

theorem Copied.last {before after : Memory} {dst src size : Nat}
    (apart : src ≤ dst ∨ dst + size < src)
    (rest : Copied (before.write (dst + size) (before (src + size))) after dst src size) :
    Copied before after dst src (size + 1) := by
  constructor
  · intro offset less
    rcases Nat.lt_succ_iff_lt_or_eq.mp less with before | rfl
    · rw [rest.inside offset before, Memory.write_other _ _ (by omega)]
    · rw [rest.outside (dst + offset) (Or.inr (Nat.le_refl _)), Memory.write_same]
  · intro address away
    rw [rest.outside address (by omega), Memory.write_other _ _ (by omega)]

theorem copyForward_copies {memory : Memory} {dst src size : Nat} (srcInside : src + size < 2 ^ 64)
    (dstInside : dst + size < 2 ^ 64) (apart : dst ≤ src ∨ src + size ≤ dst) :
    Copied memory (copyForward size memory dst src) dst src size := by
  induction size generalizing memory dst src with
  | zero => exact Copied.none memory dst src
  | succ size induction =>
      rw [copyForward, movePointer_of_lt (by omega), movePointer_of_lt (by omega)]
      exact Copied.first (by omega) (induction (by omega) (by omega) (by omega))

theorem copyBackward_copies {memory : Memory} {dst src size : Nat} (srcInside : src + size < 2 ^ 64)
    (dstInside : dst + size < 2 ^ 64) (apart : src ≤ dst ∨ dst + size ≤ src) :
    Copied memory (copyBackward size memory (previous (dst + size)) (previous (src + size)))
      dst src size := by
  induction size generalizing memory with
  | zero => exact Copied.none memory dst src
  | succ size induction =>
      have dstLast : previous (dst + (size + 1)) = dst + size := previous_succ _
      have srcLast : previous (src + (size + 1)) = src + size := previous_succ _
      rw [dstLast, srcLast, copyBackward]
      exact Copied.last (by omega) (induction (by omega) (by omega) (by omega))

/-- The last byte of the range, also of one without bytes. -/
theorem movePointer_back {pointer size : Nat} (inside : pointer + size < 2 ^ 64) :
    movePointer pointer (toSize ((size : Int) - 1)) = previous (pointer + size) := by
  cases size with
  | zero =>
      have back : toSize (((0 : Nat) : Int) - 1) = 2 ^ 64 - 1 := by decide
      rw [back, movePointer, previous, Nat.add_zero]
      by_cases null : pointer = 0
      · rw [if_pos null]
        omega
      · rw [if_neg null]
        omega
  | succ size =>
      have back : toSize (((size + 1 : Nat) : Int) - 1) = size := by
        rw [Int.natCast_succ, Int.add_sub_cancel]
        exact toSize_natCast (by omega)
      have last : previous (pointer + (size + 1)) = pointer + size := previous_succ _
      rw [back, last, movePointer_of_lt (by omega)]

/-- However the ranges lie, the destination gets what the source has held. -/
theorem memcpy_copies {memory : Memory} {dst src size : Nat} (dstGiven : dst ≠ 0)
    (srcGiven : src ≠ 0) (srcInside : src + size < 2 ^ 64) (dstInside : dst + size < 2 ^ 64) :
    ∃ after, memcpy memory dst src size = .ok (after, dst) ∧
      (∀ offset < size, after (dst + offset) = memory (src + offset)) ∧
      ∀ address, address < dst ∨ dst + size ≤ address → after address = memory address := by
  have copied : ∃ after, memcpy memory dst src size = .ok (after, dst) ∧
      Copied memory after dst src size := by
    rw [memcpy, if_neg dstGiven, if_neg srcGiven, movePointer_of_lt srcInside]
    by_cases forward : dst > src + size ∨ dst < src
    · rw [if_pos forward]
      exact ⟨_, rfl, copyForward_copies srcInside dstInside (by omega)⟩
    · rw [if_neg forward]
      dsimp only
      rw [movePointer_back srcInside, movePointer_back dstInside]
      exact ⟨_, rfl, copyBackward_copies srcInside dstInside (by omega)⟩
  rcases copied with ⟨after, returned, copied⟩
  exact ⟨after, returned, copied.inside, copied.outside⟩

/-- A range that is moved up by one byte over itself. -/
theorem memcpy_copies_overlapping :
    ∃ after, memcpy (fun address => address.toUInt8) 11 10 3 = .ok (after, 11) ∧
      (∀ offset < 3, after (11 + offset) = (10 + offset).toUInt8) ∧
      ∀ address, address < 11 ∨ 11 + 3 ≤ address → after address = address.toUInt8 :=
  memcpy_copies (by decide) (by decide) (by decide) (by decide)

end DataStructAlgorithm.Algorithm.MinStack
