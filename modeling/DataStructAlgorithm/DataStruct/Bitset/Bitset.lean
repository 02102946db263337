import DataStructAlgorithm.Foundation.Bits
import DataStructAlgorithm.Foundation.Slots
import DataStructAlgorithm.Foundation.Transition

/-! # The bitset of `DataStruct/Bitset/bitset.h`

A `char` is a signed byte, an `int` has 32 bits and a `size_t` has 64 bits. A byte is
promoted to `int` before a bit operation and the result is cut down to a byte. -/

namespace DataStructAlgorithm.DataStruct

open Foundation

structure Bitset where
  count : UInt64
  size : UInt64
  bmp : List (BitVec 8)
  deriving DecidableEq, Repr

namespace Bitset

/-- `1 << num` -/
def mask (num : UInt64) : BitVec 32 := 1#32 <<< num.toNat

/-- `Bitset(size_t range)` -/
def ofRange (range : UInt64) : Bitset where
  count := 0
  size := range
  bmp := List.replicate ((range >>> 3) + 1).toNat 0

/-- `Bitset()` -/
def ofNothing : Bitset where
  count := 0
  size := 0xffffffff
  bmp := List.replicate ((-1 : UInt64) >>> 3).toNat 0

def test (bitset : Bitset) (pos : UInt64) : Outcome Bool := do
  let index := pos >>> 3
  let num := pos % 8
  let byte ← readAt bitset.bmp index.toNat
  pure (decide (byte.signExtend 32 &&& mask num ≠ 0))

def set (bitset : Bitset) (pos : UInt64) : Outcome Bitset := do
  let index := pos >>> 3
  let num := pos % 8
  let byte ← readAt bitset.bmp index.toNat
  let bmp ← writeAt bitset.bmp index.toNat ((byte.signExtend 32 ||| mask num).setWidth 8)
  pure { bitset with bmp, count := bitset.count + 1 }

def reSet (bitset : Bitset) (pos : UInt64) : Outcome Bitset := do
  let index := pos >>> 3
  let num := pos % 8
  let byte ← readAt bitset.bmp index.toNat
  let bmp ← writeAt bitset.bmp index.toNat ((byte.signExtend 32 &&& ~~~mask num).setWidth 8)
  pure { bitset with bmp }

def clear (bitset : Bitset) : Bitset :=
  { bitset with bmp := List.replicate bitset.bmp.length 0 }

/-! ## One byte -/

section Bytes

variable {byte : BitVec 8} {num index : Nat}

theorem getLsbD_mask (small : num < 8) :
    (1#32 <<< num).getLsbD index = decide (index = num) := by
  by_cases here : index = num
  · rw [here]
    simp
    omega
  · rcases Nat.lt_or_ge index num with below | above
    · simp [here, below]
    · have apart : index - num ≠ 0 := by omega
      simp [here, apart]

theorem getLsbD_byte_or (small : num < 8) (within : index < 8) :
    ((byte.signExtend 32 ||| 1#32 <<< num).setWidth 8).getLsbD index =
      if index = num then true else byte.getLsbD index := by
  rw [BitVec.getLsbD_setWidth, BitVec.getLsbD_or, getLsbD_mask small, BitVec.getLsbD_signExtend]
  by_cases here : index = num
  · simp [here, small]
  · have wide : index < 32 := by omega
    simp [here, within, wide]

theorem getLsbD_byte_and_not (small : num < 8) (within : index < 8) :
    ((byte.signExtend 32 &&& ~~~(1#32 <<< num)).setWidth 8).getLsbD index =
      if index = num then false else byte.getLsbD index := by
  have wide : index < 32 := by omega
  rw [BitVec.getLsbD_setWidth, BitVec.getLsbD_and, BitVec.getLsbD_not, getLsbD_mask small,
    BitVec.getLsbD_signExtend]
  by_cases here : index = num
  · simp [here]
  · simp [here, within, wide]

theorem byte_and_ne_zero (small : num < 8) :
    (byte.signExtend 32 &&& 1#32 <<< num ≠ 0) ↔ byte.getLsbD num = true := by
  have wide : num < 32 := by omega
  have bit : ∀ place, (byte.signExtend 32 &&& 1#32 <<< num).getLsbD place =
      (decide (place = num) && byte.getLsbD num) := by
    intro place
    rw [BitVec.getLsbD_and, getLsbD_mask small, BitVec.getLsbD_signExtend]
    by_cases here : place = num
    · simp [here, small, wide]
    · simp [here]
  constructor
  · intro nonzero
    apply Classical.byContradiction
    intro isClear
    apply nonzero
    apply BitVec.eq_of_getLsbD_eq
    intro place _
    rw [bit, Bool.eq_false_iff.mpr isClear, Bool.and_false]
    exact BitVec.getLsbD_zero.symm
  · intro isSet zero
    have atPlace := bit num
    rw [zero, isSet] at atPlace
    simp at atPlace

end Bytes

/-! ## One call -/

theorem toNat_index (pos : UInt64) : (pos >>> 3).toNat = pos.toNat / 8 := by
  rw [UInt64.toNat_shiftRight]
  exact Nat.shiftRight_eq_div_pow pos.toNat 3

theorem toNat_num (pos : UInt64) : (pos % 8).toNat = pos.toNat % 8 :=
  UInt64.toNat_mod pos 8

variable {bitset : Bitset} {pos : UInt64}

/-- Every position up to the range has a byte. -/
def Covers (bitset : Bitset) (range : UInt64) : Prop :=
  range.toNat / 8 < bitset.bmp.length

theorem Covers.within {range : UInt64} (covers : bitset.Covers range) (inRange : pos ≤ range) :
    pos.toNat / 8 < bitset.bmp.length :=
  Nat.lt_of_le_of_lt (Nat.div_le_div_right (UInt64.le_iff_toNat_le.mp inRange)) covers

theorem ofRange_covers (range : UInt64) : (ofRange range).Covers range := by
  have small := range.toNat_lt
  have bytes : ((range >>> 3) + 1).toNat = range.toNat / 8 + 1 := by
    rw [UInt64.toNat_add, toNat_index]
    exact Nat.mod_eq_of_lt (by simp; omega)
  rw [Covers, ofRange, List.length_replicate, bytes]
  omega

theorem ofNothing_covers : ofNothing.Covers 0xffffffff := by
  rw [Covers, ofNothing, List.length_replicate]
  decide

theorem test_eq (within : pos.toNat / 8 < bitset.bmp.length) :
    bitset.test pos = .ok (bitOf bitset.bmp pos.toNat) := by
  have small : pos.toNat % 8 < 8 := Nat.mod_lt _ (by decide)
  rw [test]
  simp only [toNat_index, readAt_of_lt within, Outcome.ok_bind, Outcome.pure_eq_ok, mask,
    toNat_num]
  congr 1
  rw [bitOf, List.getElem?_eq_getElem within, Option.getD_some, Bool.eq_iff_iff, decide_eq_true_iff]
  exact byte_and_ne_zero small

/-- What a call that changes the bit at one position does. -/
structure Changed (before : Bitset) (pos : UInt64) (value : Bool) (after : Bitset) : Prop where
  length : after.bmp.length = before.bmp.length
  bit : ∀ place, bitOf after.bmp place =
    if place = pos.toNat then value else bitOf before.bmp place

theorem set_changed (within : pos.toNat / 8 < bitset.bmp.length) :
    ∃ after, bitset.set pos = .ok after ∧ Changed bitset pos true after := by
  have small : pos.toNat % 8 < 8 := Nat.mod_lt _ (by decide)
  rw [set]
  simp only [toNat_index, readAt_of_lt within, writeAt_of_lt _ within, Outcome.ok_bind,
    Outcome.pure_eq_ok, mask, toNat_num]
  refine ⟨_, rfl, List.length_set, ?_⟩
  apply bitOf_set true (by decide) within
  intro index inByte
  exact getLsbD_byte_or small inByte

theorem reSet_changed (within : pos.toNat / 8 < bitset.bmp.length) :
    ∃ after, bitset.reSet pos = .ok after ∧ Changed bitset pos false after := by
  have small : pos.toNat % 8 < 8 := Nat.mod_lt _ (by decide)
  rw [reSet]
  simp only [toNat_index, readAt_of_lt within, writeAt_of_lt _ within, Outcome.ok_bind,
    Outcome.pure_eq_ok, mask, toNat_num]
  refine ⟨_, rfl, List.length_set, ?_⟩
  apply bitOf_set false (by decide) within
  intro index inByte
  exact getLsbD_byte_and_not small inByte

theorem clear_length : bitset.clear.bmp.length = bitset.bmp.length :=
  List.length_replicate

theorem bitOf_clear (place : Nat) : bitOf bitset.clear.bmp place = false :=
  bitOf_replicate_zero _ place

/-! ## Runs of calls -/

inductive Call
  | set (pos : UInt64)
  | reSet (pos : UInt64)
  | clear
  deriving DecidableEq, Repr

def step (bitset : Bitset) : Call → Outcome Bitset
  | .set pos => bitset.set pos
  | .reSet pos => bitset.reSet pos
  | .clear => .ok bitset.clear

namespace Call

/-- The position of a call is at most the range. -/
def InRange (range : UInt64) : Call → Prop
  | .set pos => pos ≤ range
  | .reSet pos => pos ≤ range
  | .clear => True

instance (range : UInt64) : DecidablePred (InRange range)
  | .set pos => inferInstanceAs (Decidable (pos ≤ range))
  | .reSet pos => inferInstanceAs (Decidable (pos ≤ range))
  | .clear => isTrue trivial

def affects (pos : UInt64) : Call → Bool
  | .set other => other = pos
  | .reSet other => other = pos
  | .clear => true

/-- The last of some calls that affects a position. -/
def lastAffecting (calls : List Call) (pos : UInt64) : Option Call :=
  (calls.filter (affects pos)).getLast?

theorem lastAffecting_concat (calls : List Call) (call : Call) (pos : UInt64) :
    lastAffecting (calls ++ [call]) pos =
      if call.affects pos then some call else lastAffecting calls pos := by
  rw [lastAffecting, List.filter_append]
  by_cases affected : call.affects pos = true
  · rw [List.filter_cons_of_pos affected, List.filter_nil, List.getLast?_concat, if_pos affected]
  · rw [List.filter_cons_of_neg affected, List.filter_nil, List.append_nil, if_neg affected]
    rfl

/-- Without a call that clears, being the last one to affect a position does not matter. -/
theorem lastAffecting_of_sets {calls : List Call} (sets : ∀ call ∈ calls, ∃ pos, call = .set pos)
    (pos : UInt64) : lastAffecting calls pos = some (.set pos) ↔ .set pos ∈ calls := by
  constructor
  · intro isLast
    exact (List.mem_filter.mp (List.mem_of_getLast? isLast)).1
  · intro member
    have affecting : .set pos ∈ calls.filter (affects pos) :=
      List.mem_filter.mpr ⟨member, decide_eq_true rfl⟩
    rw [lastAffecting, List.getLast?_eq_some_getLast (List.ne_nil_of_mem affecting)]
    have last := List.mem_filter.mp (List.getLast_mem (List.ne_nil_of_mem affecting))
    rcases sets _ last.1 with ⟨other, isSet⟩
    have same : other = pos := by
      have affected := last.2
      rw [isSet] at affected
      exact of_decide_eq_true affected
    rw [isSet, same]

end Call

/-- The bits are what some calls have left of an empty bitset. -/
structure Reflects (bitset : Bitset) (calls : List Call) (length : Nat) : Prop where
  length : bitset.bmp.length = length
  bit : ∀ pos : UInt64,
    bitOf bitset.bmp pos.toNat = decide (Call.lastAffecting calls pos = some (.set pos))

theorem Changed.reflects {calls : List Call} {length : Nat} {value : Bool} {after : Bitset}
    {call : Call} (changed : Changed bitset pos value after) (reflects : bitset.Reflects calls length)
    (affects : ∀ other, call.affects other = decide (pos = other))
    (isSet : decide (call = .set pos) = value) : after.Reflects (calls ++ [call]) length := by
  refine ⟨changed.length.trans reflects.length, fun other => ?_⟩
  rw [changed.bit, Call.lastAffecting_concat, affects, reflects.bit]
  by_cases here : other = pos
  · simp [here, ← isSet]
  · have apart : other.toNat ≠ pos.toNat := fun same => here (UInt64.toNat.inj same)
    have different : pos ≠ other := Ne.symm here
    simp [apart, different]

/-- One call keeps the bits in agreement with the calls. -/
theorem step_reflects {calls : List Call} {call : Call} {range : UInt64} {length : Nat}
    (reflects : bitset.Reflects calls length) (covers : range.toNat / 8 < length)
    (inRange : call.InRange range) :
    ∃ after, step bitset call = .ok after ∧ after.Reflects (calls ++ [call]) length := by
  have allCovered : bitset.Covers range := by
    rw [Covers, reflects.length]
    exact covers
  cases call with
  | set pos =>
      rcases set_changed (allCovered.within inRange) with ⟨after, called, changed⟩
      exact ⟨after, called, changed.reflects reflects (fun _ => rfl) (by simp)⟩
  | reSet pos =>
      rcases reSet_changed (allCovered.within inRange) with ⟨after, called, changed⟩
      exact ⟨after, called, changed.reflects reflects (fun _ => rfl) (by simp)⟩
  | clear =>
      refine ⟨bitset.clear, rfl, clear_length.trans reflects.length, fun pos => ?_⟩
      rw [bitOf_clear, Call.lastAffecting_concat]
      simp [Call.affects]

theorem run_reflects {range : UInt64} {length : Nat} (covers : range.toNat / 8 < length)
    (past calls : List Call) (start : Bitset) (reflects : start.Reflects past length)
    (inRange : ∀ call ∈ calls, call.InRange range) :
    ∃ final, runAll step start calls = .ok final ∧ final.Reflects (past ++ calls) length := by
  induction calls generalizing past start with
  | nil => exact ⟨start, rfl, by rw [List.append_nil]; exact reflects⟩
  | cons call calls induction =>
      rcases step_reflects reflects covers (inRange call List.mem_cons_self) with
        ⟨after, called, next⟩
      rcases induction (past ++ [call]) after next
        (fun other member => inRange other (List.mem_cons_of_mem _ member)) with
        ⟨final, run, result⟩
      rw [List.append_assoc] at result
      refine ⟨final, ?_, result⟩
      rw [runAll, called, Outcome.ok_bind]
      exact run

/-- The two ways to make a bitset. -/
def Made (bitset : Bitset) : Prop :=
  bitset = ofNothing ∨ ∃ range, bitset = ofRange range

theorem Made.covers (made : bitset.Made) : bitset.Covers bitset.size := by
  rcases made with rfl | ⟨range, rfl⟩
  · exact ofNothing_covers
  · exact ofRange_covers range

theorem Made.reflects (made : bitset.Made) : bitset.Reflects [] bitset.bmp.length := by
  refine ⟨rfl, fun pos => ?_⟩
  have isClear : bitOf bitset.bmp pos.toNat = false := by
    rcases made with rfl | ⟨range, rfl⟩
    · exact bitOf_replicate_zero _ _
    · exact bitOf_replicate_zero _ _
  rw [isClear]
  rfl

/-- After any calls on a new bitset, a position is in it when the last call that affects the
position has set it. -/
theorem run_test {calls : List Call} (made : bitset.Made)
    (inRange : ∀ call ∈ calls, call.InRange bitset.size) :
    ∃ final, runAll step bitset calls = .ok final ∧ ∀ pos, pos ≤ bitset.size →
      final.test pos = .ok (decide (Call.lastAffecting calls pos = some (.set pos))) := by
  rcases run_reflects made.covers [] calls bitset made.reflects inRange with
    ⟨final, run, reflects⟩
  refine ⟨final, run, fun pos within => ?_⟩
  have covered : final.Covers bitset.size := by
    rw [Covers, reflects.length]
    exact made.covers
  rw [test_eq (covered.within within), reflects.bit, List.nil_append]

end Bitset

end DataStructAlgorithm.DataStruct
