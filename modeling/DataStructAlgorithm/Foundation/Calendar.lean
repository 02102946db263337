import Mathlib.Algebra.BigOperators.Group.Finset.Basic
import Mathlib.Algebra.Order.BigOperators.Group.Finset

/-! # Calendars

Days are counted through periods of different lengths, one after the other. The months of the
Gregorian calendar from January 1900 on are such periods. -/

namespace DataStructAlgorithm.Foundation

/-! ## Periods -/

section Periods

variable {length : Nat → Nat}

/-- The days in all periods before one. -/
def daysBefore (length : Nat → Nat) (period : Nat) : Nat :=
  ∑ earlier ∈ Finset.range period, length earlier

theorem daysBefore_succ (length : Nat → Nat) (period : Nat) :
    daysBefore length (period + 1) = daysBefore length period + length period :=
  Finset.sum_range_succ length period

theorem daysBefore_add_le (length : Nat → Nat) {period other : Nat} (earlier : period < other) :
    daysBefore length period + length period ≤ daysBefore length other := by
  rw [← daysBefore_succ]
  exact Finset.sum_le_sum_of_subset (Finset.range_subset_range.mpr earlier)

/-- A day is counted in one period only. -/
theorem period_unique (length : Nat → Nat) {period other day otherDay : Nat}
    (dayIn : 1 ≤ day ∧ day ≤ length period)
    (otherIn : 1 ≤ otherDay ∧ otherDay ≤ length other)
    (same : daysBefore length period + day = daysBefore length other + otherDay) :
    period = other ∧ day = otherDay := by
  rcases Nat.lt_trichotomy period other with before | equal | after
  · have apart := daysBefore_add_le length before
    omega
  · subst equal
    exact ⟨rfl, by omega⟩
  · have apart := daysBefore_add_le length after
    omega

/-- Every day is counted in some period. -/
theorem exists_period (positive : ∀ period, 0 < length period) (number : Nat) :
    ∃ period day, (1 ≤ day ∧ day ≤ length period) ∧
      daysBefore length period + day = number + 1 := by
  induction number with
  | zero => exact ⟨0, 1, ⟨Nat.le_refl 1, positive 0⟩, rfl⟩
  | succ number induction =>
      rcases induction with ⟨period, day, ⟨low, high⟩, counted⟩
      rcases Nat.lt_or_ge day (length period) with inside | last
      · exact ⟨period, day + 1, ⟨by omega, inside⟩, by omega⟩
      · refine ⟨period + 1, 1, ⟨Nat.le_refl 1, positive _⟩, ?_⟩
        rw [daysBefore_succ]
        omega

end Periods

/-! ## The Gregorian calendar -/

def LeapYear (year : Int) : Prop := 4 ∣ year ∧ ¬ 100 ∣ year ∨ 400 ∣ year

instance (year : Int) : Decidable (LeapYear year) := inferInstanceAs (Decidable (_ ∨ _))

def monthLength (year month : Int) : Nat :=
  if month = 4 ∨ month = 6 ∨ month = 9 ∨ month = 11 then 30
  else if month = 2 then if LeapYear year then 29 else 28
  else 31

theorem monthLength_pos (year month : Int) : 0 < monthLength year month := by
  rw [monthLength]
  split
  · decide
  · split
    · split <;> decide
    · decide

/-- The year of a month, where months are counted from January 1900 on. -/
def yearOf (count : Nat) : Int := 1900 + count / 12

def monthOf (count : Nat) : Int := count % 12 + 1

/-- The number of months from January 1900 to a month. -/
def monthCount (year month : Int) : Nat := ((year - 1900) * 12 + (month - 1)).toNat

theorem monthCount_of (count : Nat) : monthCount (yearOf count) (monthOf count) = count := by
  simp only [monthCount, yearOf, monthOf]
  omega

theorem of_monthCount {year month : Int} (modern : 1900 ≤ year) (inYear : 1 ≤ month ∧ month ≤ 12) :
    yearOf (monthCount year month) = year ∧ monthOf (monthCount year month) = month := by
  simp only [monthCount, yearOf, monthOf]
  omega

def monthDays (count : Nat) : Nat := monthLength (yearOf count) (monthOf count)

/-- The number of a day, where 1 January 1900 has number 1. -/
def dayNumber (year month day : Int) : Int :=
  daysBefore monthDays (monthCount year month) + day

/-! ## Years -/

/-- The leap days in some years from a month on. The February of the year from a month on is in
the year of the month ten months later. -/
def leapDays (count years : Nat) : Nat :=
  (List.range years).countP fun passed => decide (LeapYear (yearOf (count + 12 * passed + 10)))

theorem monthDays_add_year (count : Nat) :
    monthDays (count + 12) + (if LeapYear (yearOf (count + 10)) then 1 else 0) =
      monthDays count + if LeapYear (yearOf (count + 11)) then 1 else 0 := by
  have month : monthOf (count + 12) = monthOf count := by
    rw [monthOf, monthOf]
    omega
  by_cases february : monthOf count = 2
  · have years : yearOf (count + 10) = yearOf count ∧
        yearOf (count + 11) = yearOf (count + 12) := by
      simp only [yearOf, monthOf] at february ⊢
      omega
    rw [years.1, years.2, monthDays, monthDays, monthLength, monthLength, month, february]
    simp only [show ¬ ((2 : Int) = 4 ∨ (2 : Int) = 6 ∨ (2 : Int) = 9 ∨ (2 : Int) = 11) by decide,
      if_false, if_true]
    split <;> split <;> rfl
  · have years : yearOf (count + 11) = yearOf (count + 10) := by
      simp only [yearOf, monthOf] at february ⊢
      omega
    rw [years, monthDays, monthDays, monthLength, monthLength, month, if_neg february,
      if_neg february]

/-- Twelve months have 365 days and perhaps a leap day. -/
theorem daysBefore_add_year (count : Nat) :
    daysBefore monthDays (count + 12) =
      daysBefore monthDays count + 365 + if LeapYear (yearOf (count + 10)) then 1 else 0 := by
  induction count with
  | zero => decide
  | succ count induction =>
      have next := daysBefore_succ monthDays (count + 12)
      have first := daysBefore_succ monthDays count
      have change := monthDays_add_year count
      have february : count + 1 + 10 = count + 11 := by omega
      rw [Nat.add_right_comm count 1 12, february, next, first, induction]
      omega

theorem daysBefore_add_years (count years : Nat) :
    daysBefore monthDays (count + 12 * years) =
      daysBefore monthDays count + 365 * years + leapDays count years := by
  induction years with
  | zero => rfl
  | succ years induction =>
      have year := daysBefore_add_year (count + 12 * years)
      rw [leapDays, List.range_succ, List.countP_append, List.countP_singleton, ← leapDays]
      simp only [decide_eq_true_eq]
      rw [Nat.mul_succ, ← Nat.add_assoc, year, induction]
      omega

end DataStructAlgorithm.Foundation
