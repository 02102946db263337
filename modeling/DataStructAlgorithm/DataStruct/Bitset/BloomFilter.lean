import DataStructAlgorithm.DataStruct.Bitset.Bitset

/-! # The Bloom filter of `DataStruct/Bitset/bloomFilter.h`

The template takes five hash functions, which are functions of the key. Setting keys is a run
of calls on the bitset under the filter. -/

namespace DataStructAlgorithm.DataStruct

open Foundation

/-- The hash functions that the template is instantiated with. -/
structure HashFuncs (K : Type) where
  hashFunc1 : K → UInt64
  hashFunc2 : K → UInt64
  hashFunc3 : K → UInt64
  hashFunc4 : K → UInt64
  hashFunc5 : K → UInt64

def HashFuncs.all {K : Type} (funcs : HashFuncs K) : List (K → UInt64) :=
  [funcs.hashFunc1, funcs.hashFunc2, funcs.hashFunc3, funcs.hashFunc4, funcs.hashFunc5]

/-- `value % divisor` -/
def remainder (value divisor : UInt64) : Outcome UInt64 :=
  if divisor = 0 then .error .divisionByZero else .ok (value % divisor)

structure BloomFilter where
  bitset : Bitset
  range : UInt64
  deriving DecidableEq, Repr

namespace BloomFilter

variable {K : Type}

/-- `BloomFilter(size_t size)`, whose product wraps around. -/
def ofSize (size : UInt64) : BloomFilter where
  bitset := .ofRange (size * 10)
  range := size * 10

def set (funcs : HashFuncs K) (filter : BloomFilter) (key : K) : Outcome BloomFilter := do
  let hash1 ← remainder (funcs.hashFunc1 key) filter.range
  let hash2 ← remainder (funcs.hashFunc2 key) filter.range
  let hash3 ← remainder (funcs.hashFunc3 key) filter.range
  let hash4 ← remainder (funcs.hashFunc4 key) filter.range
  let hash5 ← remainder (funcs.hashFunc5 key) filter.range
  let bitset ← filter.bitset.set hash1
  let bitset ← bitset.set hash2
  let bitset ← bitset.set hash3
  let bitset ← bitset.set hash4
  let bitset ← bitset.set hash5
  pure { filter with bitset }

def test (funcs : HashFuncs K) (filter : BloomFilter) (key : K) : Outcome Bool := do
  if !(← filter.bitset.test (← remainder (funcs.hashFunc1 key) filter.range)) then
    return false
  if !(← filter.bitset.test (← remainder (funcs.hashFunc2 key) filter.range)) then
    return false
  if !(← filter.bitset.test (← remainder (funcs.hashFunc3 key) filter.range)) then
    return false
  if !(← filter.bitset.test (← remainder (funcs.hashFunc4 key) filter.range)) then
    return false
  if !(← filter.bitset.test (← remainder (funcs.hashFunc5 key) filter.range)) then
    return false
  return true

theorem remainder_of_ne_zero {divisor : UInt64} (value : UInt64) (nonzero : divisor ≠ 0) :
    remainder value divisor = .ok (value % divisor) :=
  if_neg nonzero

theorem remainder_zero (value : UInt64) : remainder value 0 = .error .divisionByZero :=
  if_pos rfl

theorem answer_eq (found rest : Bool) :
    (if (!found) = true then .ok false else .ok rest : Outcome Bool) = .ok (found && rest) := by
  cases found <;> rfl

theorem mod_le {divisor : UInt64} (nonzero : divisor ≠ 0) (value : UInt64) :
    value % divisor ≤ divisor := by
  have positive : 0 < divisor.toNat := by
    apply Nat.pos_of_ne_zero
    intro zero
    exact nonzero (UInt64.toNat.inj zero)
  rw [UInt64.le_iff_toNat_le, UInt64.toNat_mod]
  exact Nat.le_of_lt (Nat.mod_lt _ positive)

/-! ## The calls on the bitset -/

/-- What setting a key does to the bitset. -/
def calls (funcs : HashFuncs K) (range : UInt64) (key : K) : List Bitset.Call :=
  funcs.all.map fun hash => .set (hash key % range)

variable {funcs : HashFuncs K}

theorem mem_calls {range : UInt64} {key : K} {call : Bitset.Call} :
    call ∈ calls funcs range key ↔ ∃ hash ∈ funcs.all, .set (hash key % range) = call :=
  List.mem_map

theorem set_eq {filter : BloomFilter} (nonzero : filter.range ≠ 0) {key : K} {bitset : Bitset}
    (run : runAll Bitset.step filter.bitset (calls funcs filter.range key) = .ok bitset) :
    filter.set funcs key = .ok { filter with bitset } := by
  simp only [calls, HashFuncs.all, List.map_cons, List.map_nil, runAll, Bitset.step] at run
  rcases Outcome.bind_eq_ok run with ⟨first, called1, run⟩
  rcases Outcome.bind_eq_ok run with ⟨second, called2, run⟩
  rcases Outcome.bind_eq_ok run with ⟨third, called3, run⟩
  rcases Outcome.bind_eq_ok run with ⟨fourth, called4, run⟩
  rcases Outcome.bind_eq_ok run with ⟨fifth, called5, run⟩
  cases run
  simp only [set, remainder_of_ne_zero _ nonzero, Outcome.ok_bind, called1, called2, called3,
    called4, called5, Outcome.pure_eq_ok]

/-- Setting keys runs the calls of all keys on the bitset. -/
theorem run_eq (filter : BloomFilter) (nonzero : filter.range ≠ 0) {keys : List K} {bitset : Bitset}
    (run : runAll Bitset.step filter.bitset (keys.flatMap (calls funcs filter.range)) =
      .ok bitset) :
    runAll (set funcs) filter keys = .ok { filter with bitset } := by
  induction keys generalizing filter with
  | nil =>
      cases run
      rfl
  | cons key keys induction =>
      rw [List.flatMap_cons] at run
      rcases runAll_split run with ⟨middle, first, rest⟩
      rw [runAll, set_eq nonzero first, Outcome.ok_bind]
      exact induction _ nonzero rest

/-- A test asks the bitset for all five positions. -/
theorem test_eq (filter : BloomFilter) (nonzero : filter.range ≠ 0) {present : UInt64 → Bool}
    (bits : ∀ pos, pos ≤ filter.range → filter.bitset.test pos = .ok (present pos)) (key : K) :
    filter.test funcs key =
      .ok (funcs.all.all fun hash => present (hash key % filter.range)) := by
  simp only [test, remainder_of_ne_zero _ nonzero, Outcome.ok_bind, bits _ (mod_le nonzero _)]
  simp only [Outcome.pure_eq_ok, answer_eq]
  rfl

/-! ## Runs -/

/-- After setting some keys every test gives an answer, which is `true` for each of the keys
and `true` only when all positions of the key were set for some of the keys. -/
def Faithful (funcs : HashFuncs K) (size : UInt64) (keys : List K) : Prop :=
  ∃ filter, runAll (set funcs) (ofSize size) keys = .ok filter ∧
    ∀ key, ∃ answer, filter.test funcs key = .ok answer ∧ (key ∈ keys → answer = true) ∧
      (answer = true → ∀ hash ∈ funcs.all, ∃ earlier ∈ keys, ∃ other ∈ funcs.all,
        other earlier % filter.range = hash key % filter.range)

theorem run_remembers {size : UInt64} (nonzero : size * 10 ≠ 0) (keys : List K) :
    Faithful funcs size keys := by
  have isRange : (ofSize size).range = size * 10 := rfl
  have sets : ∀ call ∈ keys.flatMap (calls funcs (size * 10)), ∃ pos, call = .set pos := by
    intro call member
    rcases List.mem_flatMap.mp member with ⟨key, _, inCalls⟩
    rcases mem_calls.mp inCalls with ⟨hash, _, rfl⟩
    exact ⟨_, rfl⟩
  have small : ∀ value : UInt64, value % (size * 10) ≤ size * 10 := mod_le nonzero
  have inRange : ∀ call ∈ keys.flatMap (calls funcs (size * 10)), call.InRange (size * 10) := by
    intro call member
    rcases List.mem_flatMap.mp member with ⟨key, _, inCalls⟩
    rcases mem_calls.mp inCalls with ⟨hash, _, rfl⟩
    exact small _
  rcases Bitset.run_test (.inr ⟨size * 10, rfl⟩) inRange with ⟨bitset, run, present⟩
  refine ⟨⟨bitset, size * 10⟩, run_eq (ofSize size) nonzero run, fun key => ?_⟩
  refine ⟨_, test_eq ⟨bitset, size * 10⟩ nonzero present key, ?_, ?_⟩
  · intro member
    rw [List.all_eq_true]
    intro hash isHash
    rw [decide_eq_true_iff, Bitset.Call.lastAffecting_of_sets sets]
    exact List.mem_flatMap.mpr ⟨key, member, mem_calls.mpr ⟨hash, isHash, rfl⟩⟩
  · intro answered hash isHash
    have isSet := List.all_eq_true.mp answered hash isHash
    rw [decide_eq_true_iff, Bitset.Call.lastAffecting_of_sets sets] at isSet
    rcases List.mem_flatMap.mp isSet with ⟨earlier, member, inCalls⟩
    rcases mem_calls.mp inCalls with ⟨other, isOther, same⟩
    exact ⟨earlier, member, other, isOther, Bitset.Call.set.inj same⟩

/-- A filter whose range has wrapped around to zero cannot be asked anything. -/
theorem test_of_range_zero {filter : BloomFilter} (zero : filter.range = 0) (key : K) :
    filter.test funcs key = .error .divisionByZero := by
  simp [test, zero, remainder_zero]

theorem run_range (start : BloomFilter) {keys : List K} {final : BloomFilter} (zero : start.range = 0)
    (run : runAll (set funcs) start keys = .ok final) : final = start := by
  cases keys with
  | nil =>
      cases run
      rfl
  | cons key keys =>
      have fails : start.set funcs key = .error .divisionByZero := by
        simp [set, zero, remainder_zero]
      rw [runAll, fails, Outcome.error_bind] at run
      cases run

/-- The filter keeps its promise exactly when ten times its size does not wrap around to
zero. The bitset under it always does. -/
theorem bloomFilter_faithful [Inhabited K] (funcs : HashFuncs K) (size : UInt64) :
    (∀ keys : List K, Faithful funcs size keys ↔ size * 10 ≠ 0) ∧
    ∀ (bitset : Bitset) (calls : List Bitset.Call), bitset.Made →
      (∀ call ∈ calls, call.InRange bitset.size) →
      ∃ final, runAll Bitset.step bitset calls = .ok final ∧ ∀ pos, pos ≤ bitset.size →
        final.test pos = .ok (decide (Bitset.Call.lastAffecting calls pos = some (.set pos))) := by
  refine ⟨fun keys => ⟨?_, fun nonzero => run_remembers nonzero keys⟩, ?_⟩
  · intro faithful zero
    rcases faithful with ⟨filter, run, answers⟩
    have same := run_range (ofSize size) zero run
    rcases answers default with ⟨answer, tested, _⟩
    rw [same, test_of_range_zero zero] at tested
    cases tested
  · intro bitset calls made inRange
    exact Bitset.run_test made inRange

theorem bloomFilter_faithful_one :
    Faithful ⟨String.hash, fun _ => 3, fun _ => 14, fun _ => 3, fun _ => 0⟩ 1 ["key", "other"] ∧
    ∃ final, runAll Bitset.step (.ofRange 10) [.set 3, .set 4, .reSet 3] = .ok final ∧
      ∀ pos, pos ≤ 10 → final.test pos = .ok (decide
        (Bitset.Call.lastAffecting [.set 3, .set 4, .reSet 3] pos = some (.set pos))) := by
  refine ⟨((bloomFilter_faithful _ 1).1 _).mpr (by decide), ?_⟩
  refine (bloomFilter_faithful (⟨String.hash, fun _ => 3, fun _ => 14, fun _ => 3, fun _ => 0⟩) 1).2
    (.ofRange 10) _ (.inr ⟨10, rfl⟩) ?_
  intro call member
  rcases List.mem_cons.mp member with rfl | member
  · exact (by decide : (3 : UInt64) ≤ 10)
  rcases List.mem_cons.mp member with rfl | member
  · exact (by decide : (4 : UInt64) ≤ 10)
  rcases List.mem_singleton.mp member with rfl
  exact (by decide : (3 : UInt64) ≤ 10)

/-- A filter for `2 ^ 63` keys stops at the first key. -/
theorem bloomFilter_of_large_size : ∃ (size : UInt64) (funcs : HashFuncs String), 1 ≤ size ∧
    runAll (set funcs) (ofSize size) ["key"] = .error .divisionByZero ∧
    ¬ Faithful funcs size ["key"] := by
  refine ⟨9223372036854775808, ⟨fun _ => 0, fun _ => 0, fun _ => 0, fun _ => 0, fun _ => 0⟩,
    by decide, by decide, ?_⟩
  rintro ⟨filter, run, _⟩
  cases run

end BloomFilter

end DataStructAlgorithm.DataStruct
