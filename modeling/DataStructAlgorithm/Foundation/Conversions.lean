import DataStructAlgorithm.Foundation.CString

/-! # Conversions between `int` and `size_t`

An `int` is an integer of 32 bits with a sign and a `size_t` one of 64 bits without. A value
that fits is not changed. -/

namespace DataStructAlgorithm.Foundation

/-- The conversion to `size_t`, also of what a sum or a difference of `size_t` comes to. -/
def toSize (value : Int) : Nat := (value % 2 ^ 64).toNat

theorem toInt_eq {value : Int} (low : -2 ^ 31 ≤ value) (high : value < 2 ^ 31) :
    toInt value = value := by
  apply Int.bmod_eq_of_le
  · omega
  · omega

theorem toInt_range (value : Int) : -2 ^ 31 ≤ toInt value ∧ toInt value < 2 ^ 31 := by
  have low : -((2 ^ 32 : Nat) / 2 : Int) ≤ toInt value := Int.le_bmod (by decide)
  have high : toInt value < ((2 ^ 32 : Nat) + 1 : Int) / 2 := Int.bmod_lt (by decide)
  constructor
  · omega
  · omega

/-- The conversion changes the value by a multiple of `2 ^ 32`. -/
theorem toInt_congr (value : Int) : ∃ wraps, toInt value = value - 2 ^ 32 * wraps :=
  ⟨_, Int.bmod_eq_self_sub_mul_bdiv value (2 ^ 32)⟩

theorem toInt_le {value : Int} (low : 0 ≤ value) : toInt value ≤ value := by
  rcases toInt_congr value with ⟨wraps, wrapped⟩
  have range := toInt_range value
  omega

theorem toSize_eq {value : Int} (low : 0 ≤ value) (high : value < 2 ^ 64) :
    (toSize value : Int) = value := by
  rw [toSize, Int.emod_eq_of_lt low high, Int.toNat_of_nonneg low]

theorem toSize_natCast {value : Nat} (small : value < 2 ^ 64) : toSize value = value := by
  have same : (toSize value : Int) = value := toSize_eq (Int.natCast_nonneg value) (by omega)
  exact Int.ofNat.inj same

theorem toSize_succ {value : Nat} (small : value + 1 < 2 ^ 64) : toSize (value + 1) = value + 1 :=
  toSize_natCast small

theorem toSize_sub {left right : Nat} (ordered : left ≤ right) (small : right - left < 2 ^ 64) :
    toSize (right - left) = right - left := by
  rw [← Int.natCast_sub ordered]
  exact toSize_natCast small

theorem toSize_neg {value : Int} (low : -2 ^ 64 ≤ value) (high : value < 0) :
    (toSize value : Int) = value + 2 ^ 64 := by
  have wrapped : value % 2 ^ 64 = value + 2 ^ 64 := by omega
  rw [toSize, wrapped, Int.toNat_of_nonneg (by omega)]

theorem toSize_congr (value : Int) : ∃ wraps, (toSize value : Int) = value - 2 ^ 64 * wraps := by
  refine ⟨value / 2 ^ 64, ?_⟩
  rw [toSize, Int.toNat_of_nonneg (Int.emod_nonneg _ (by decide))]
  exact Int.emod_def value (2 ^ 64)

/-- An `int` that has been converted to `size_t` is read back. -/
theorem toInt_toSize {value : Int} (low : -2 ^ 31 ≤ value) (high : value < 2 ^ 31) :
    toInt (toSize value) = value := by
  rcases toInt_congr (toSize value) with ⟨wraps, wrapped⟩
  rcases toSize_congr value with ⟨sizeWraps, sizeWrapped⟩
  have range := toInt_range (toSize value)
  omega

theorem addInt_eq {first second : Int} (low : -2 ^ 31 ≤ first + second)
    (high : first + second < 2 ^ 31) : addInt first second = .ok (first + second) :=
  if_pos ⟨low, high⟩

theorem addInt_natCast {first second : Nat} (small : first + second < 2 ^ 31) :
    addInt first second = .ok ((first + second : Nat) : Int) := by
  rw [addInt_eq (by omega) (by omega), Int.natCast_add]

theorem addInt_eq_ok {first second sum : Int} (added : addInt first second = .ok sum) :
    sum = first + second ∧ -2 ^ 31 ≤ sum ∧ sum < 2 ^ 31 := by
  rw [addInt] at added
  split at added
  next inRange =>
    cases added
    exact ⟨rfl, inRange⟩
  next => cases added

end DataStructAlgorithm.Foundation
