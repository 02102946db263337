import Mathlib.Data.Nat.Count
import DataStructAlgorithm.Foundation.Contents

/-! # Counting the entries of an array -/

namespace DataStructAlgorithm.Foundation

/-- The number of the first `n` entries that are equal to a value. -/
def occurrences (a : Contents Int) (n : Nat) (value : Int) : Nat :=
  Nat.count (fun place => a place = value) n

/-- The number of the first `n` entries that are less than a value. -/
def smaller (a : Contents Int) (n : Nat) (value : Int) : Nat :=
  Nat.count (fun place => a place < value) n

variable {a b : Contents Int} {n : Nat}

theorem occurrences_succ (a : Contents Int) (n : Nat) (value : Int) :
    occurrences a (n + 1) value = occurrences a n value + if a n = value then 1 else 0 :=
  Nat.count_succ _ _

theorem occurrences_le (a : Contents Int) (n : Nat) (value : Int) : occurrences a n value ≤ n :=
  Nat.count_le _

theorem smaller_succ (a : Contents Int) (n : Nat) (value : Int) :
    smaller a (n + 1) value = smaller a n value + if a n < value then 1 else 0 :=
  Nat.count_succ _ _

/-- The entries that are less than the next value are less than this one or equal to it. -/
theorem smaller_next (a : Contents Int) (n : Nat) (value : Int) :
    smaller a n (value + 1) = smaller a n value + occurrences a n value := by
  induction n with
  | zero => rfl
  | succ n induction =>
      rw [smaller_succ, induction, smaller_succ, occurrences_succ]
      rcases Int.lt_trichotomy (a n) value with less | equal | greater
      · rw [if_pos (by omega), if_pos less, if_neg (by omega)]
        omega
      · rw [if_pos (by omega), if_neg (by omega), if_pos equal]
        omega
      · rw [if_neg (by omega), if_neg (by omega), if_neg (by omega)]
        omega

theorem smaller_of_least {value : Int} (least : ∀ place : Nat, place < n → value ≤ a place) :
    smaller a n value = 0 := by
  rw [smaller, Nat.count_iff_forall_not]
  exact fun place within => not_lt.mpr (least place within)

theorem smaller_of_greatest {value : Int} (greatest : ∀ place : Nat, place < n → a place < value) :
    smaller a n value = n :=
  Nat.count_iff_forall.mpr greatest

/-- Among entries that are in order, the smaller ones come first. -/
theorem lt_smaller_iff (monotone : MonotoneOn a (Set.Icc 0 (n - 1 : Int))) (value : Int)
    {place : Nat} (within : place < n) : place < smaller a n value ↔ a place < value := by
  constructor
  · intro before
    by_contra notLess
    have nothing :
        Nat.count (fun later => a ((place + later : Nat) : Int) < value) (n - place) = 0 := by
      rw [Nat.count_iff_forall_not]
      intro later laterWithin less
      have ordered := monotone (a := (place : Int)) (b := ((place + later : Nat) : Int))
        ⟨by omega, by omega⟩ ⟨by omega, by omega⟩ (by omega)
      omega
    have split := Nat.count_add (fun other : Nat => a other < value) place (n - place)
    rw [nothing, Nat.add_sub_cancel' (by omega)] at split
    have bound : Nat.count (fun other : Nat => a other < value) place ≤ place := Nat.count_le _
    rw [smaller, split] at before
    omega
  · intro less
    have all : Nat.count (fun other : Nat => a other < value) (place + 1) = place + 1 := by
      rw [Nat.count_iff_forall]
      intro other otherWithin
      have ordered := monotone (a := (other : Int)) (b := (place : Int)) ⟨by omega, by omega⟩
        ⟨by omega, by omega⟩ (by omega)
      omega
    have more := Nat.count_monotone (fun other : Nat => a other < value)
      (show place + 1 ≤ n by omega)
    rw [all] at more
    exact more

/-- Rearranging the entries does not change how many are less than a value. -/
theorem Rearranges.smaller_eq (rearranges : Rearranges 0 (n - 1) a b) (value : Int) :
    smaller b n value = smaller a n value := by
  rcases rearranges with ⟨moves, fixed, rfl⟩
  have inside : ∀ place : Nat, place < n → 0 ≤ moves place ∧ moves place ≤ (n : Int) - 1 :=
    fun place within => Rearranges.moves_inside fixed (by omega) (by omega)
  rw [smaller, smaller, Nat.count_eq_card_filter_range, Nat.count_eq_card_filter_range]
  refine Finset.card_bij (fun place _ => (moves place).toNat) ?_ ?_ ?_
  · intro place member
    rw [Finset.mem_filter, Finset.mem_range] at member ⊢
    have range := inside place member.1
    rw [Int.toNat_of_nonneg range.1]
    exact ⟨by omega, member.2⟩
  · intro place member other otherMember same
    rw [Finset.mem_filter, Finset.mem_range] at member otherMember
    have range := inside place member.1
    have otherRange := inside other otherMember.1
    have equal : moves place = moves other := by omega
    exact Int.ofNat.inj (moves.injective equal)
  · intro place member
    rw [Finset.mem_filter, Finset.mem_range] at member
    have backFixed : ∀ other : Int, other < 0 ∨ (n : Int) - 1 < other →
        moves.symm other = other := by
      intro other outside
      rw [Equiv.symm_apply_eq, fixed other outside]
    have range : 0 ≤ moves.symm place ∧ moves.symm place ≤ (n : Int) - 1 :=
      Rearranges.moves_inside backFixed (by omega) (by omega)
    refine ⟨(moves.symm place).toNat, ?_, ?_⟩
    · rw [Finset.mem_filter, Finset.mem_range]
      refine ⟨by omega, ?_⟩
      rw [Int.toNat_of_nonneg range.1, Function.comp_apply, Equiv.apply_symm_apply]
      exact member.2
    · rw [Int.toNat_of_nonneg range.1, Equiv.apply_symm_apply, Int.toNat_natCast]

end DataStructAlgorithm.Foundation
