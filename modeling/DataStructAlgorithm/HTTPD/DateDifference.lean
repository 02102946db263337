import DataStructAlgorithm.HTTPD.DateOrder

/-! # The days between two dates

The operator `-` of `data.h` for two dates. -/

namespace DataStructAlgorithm.HTTPD

open Foundation

namespace Date

/-- The variables of the loops of `-`. -/
structure Months where
  newDate : Date
  sum : Int

/-- Both loops of `-`, which differ in the month that they end at. -/
def monthsPass (month : Int) (state : Months) : Outcome (Pass Months Int) :=
  if state.newDate.month ≠ month then
    .ok (.again ⟨{ state.newDate with month := state.newDate.month + 1 },
      state.sum + getDay state.newDate.year state.newDate.month⟩)
  else .ok (.leave state.sum)

/-- `date - other`, `none` where the function ends without a value. -/
def difference (fuel : Nat) (date other : Date) : Outcome (Option Int) :=
  if date.year ≥ other.year then
    let addYear := date.year - other.year
    if date.month ≥ other.month then do
      let sum ← repeatLoop (monthsPass date.month) fuel ⟨other, 0⟩
      pure (some (sum + (addYear * 365 + date.day - other.day)))
    else if date.month < other.month then do
      let sum ← repeatLoop (monthsPass other.month) fuel ⟨date, 0⟩
      pure (some (addYear * 365 - sum + date.day - other.day))
    else pure none
  else pure none

/-- The loops are left after a year at most, and the operator returns the number. -/
def Returns (date other : Date) (result : Int) : Prop :=
  ∀ fuel, 12 ≤ fuel → difference fuel date other = .ok (some result)

/-- The leap days that the operator leaves out: those between the years of the two dates, counted
from the first day of the later one of their months on. -/
def skipped (date other : Date) : Nat :=
  leapDays (monthCount other.year (max date.month other.month)) (date.year - other.year).toNat

/-- The loop adds up the days of the months in between. -/
theorem months_sum (months count : Nat) (day sum : Int)
    (inYear : monthOf count + months ≤ 12) {fuel : Nat} (enough : months < fuel) :
    repeatLoop (monthsPass (monthOf (count + months))) fuel ⟨inMonth count day, sum⟩ =
      .ok (sum + daysBefore monthDays (count + months) - daysBefore monthDays count) := by
  rcases Nat.exists_eq_add_of_lt enough with ⟨rest, rfl⟩
  induction months generalizing count sum with
  | zero =>
      have stops : monthsPass (monthOf count) ⟨inMonth count day, sum⟩ = .ok (.leave sum) :=
        if_neg (not_not.mpr rfl)
      rw [Nat.add_zero, Int.add_sub_cancel, repeatLoop_leave _ stops]
  | succ months induction =>
      have same : yearOf (count + 1) = yearOf count ∧ monthOf (count + 1) = monthOf count + 1 := by
        simp only [yearOf, monthOf] at inYear ⊢
        omega
      have apart : (inMonth count day).month ≠ monthOf (count + (months + 1)) := by
        show monthOf count ≠ monthOf (count + (months + 1))
        simp only [monthOf] at inYear ⊢
        omega
      have again : monthsPass (monthOf (count + (months + 1))) ⟨inMonth count day, sum⟩ =
          .ok (.again ⟨inMonth (count + 1) day, sum + monthDays count⟩) := by
        rw [monthsPass, if_pos apart, getDay_eq]
        simp only [inMonth, monthDays, same.1, same.2]
      have shift : count + (months + 1) = count + 1 + months := by omega
      have lessFuel : months + 1 + rest = months + rest + 1 := by omega
      have later : repeatLoop (monthsPass (monthOf (count + 1 + months))) (months + rest + 1)
          ⟨inMonth (count + 1) day, sum + monthDays count⟩ = _ :=
        induction (count + 1) (sum + monthDays count) (by rw [same.2]; omega) (by omega)
      have counted := daysBefore_succ monthDays count
      rw [repeatLoop_again _ again, lessFuel, shift, later, counted]
      apply congrArg
      omega

section Valid

variable {date other : Date} {fuel : Nat} {sum : Int}

theorem difference_later (years : date.year ≥ other.year) (order : date.month ≥ other.month)
    (added : repeatLoop (monthsPass date.month) fuel ⟨other, 0⟩ = .ok sum) :
    difference fuel date other =
      .ok (some (sum + ((date.year - other.year) * 365 + date.day - other.day))) := by
  simp only [difference, if_pos years, if_pos order, added]
  rfl

theorem difference_earlier (years : date.year ≥ other.year) (order : date.month < other.month)
    (added : repeatLoop (monthsPass other.month) fuel ⟨date, 0⟩ = .ok sum) :
    difference fuel date other =
      .ok (some ((date.year - other.year) * 365 - sum + date.day - other.day)) := by
  simp only [difference, if_pos years, if_neg (Int.not_le_of_gt order), if_pos order, added]
  rfl

/-- Every year counts as 365 days. -/
theorem returns_skipped (isDate : date.Exists) (otherIs : other.Exists)
    (notBefore : ¬ date.Before other) :
    Returns date other (date.number - other.number - skipped date other) := by
  rcases isDate.eq_inMonth with ⟨count, day, rfl, _, _⟩
  rcases otherIs.eq_inMonth with ⟨otherCount, otherDay, rfl, _, _⟩
  intro fuel enough
  have years : yearOf count ≥ yearOf otherCount := by
    simp only [Before, inMonth, yearOf, monthOf] at notBefore ⊢
    omega
  let addYear := count / 12 - otherCount / 12
  have isAddYear : yearOf count - yearOf otherCount = addYear := by
    simp only [yearOf] at years ⊢
    omega
  rw [number_inMonth, number_inMonth]
  rcases Int.lt_or_le (monthOf count) (monthOf otherCount) with order | order
  · let months := otherCount % 12 - count % 12
    have inYear : monthOf count + months ≤ 12 := by
      simp only [monthOf] at order ⊢
      omega
    have target : monthOf (count + months) = monthOf otherCount := by
      simp only [monthOf] at order ⊢
      omega
    have added := months_sum months count day 0 inYear (by omega : months < fuel)
    rw [target] at added
    have isSkipped : skipped (inMonth count day) (inMonth otherCount otherDay) =
        leapDays otherCount addYear := by
      show leapDays (monthCount (yearOf otherCount) (max (monthOf count) (monthOf otherCount)))
        (yearOf count - yearOf otherCount).toNat = _
      rw [max_eq_right (Int.le_of_lt order), monthCount_of, isAddYear, Int.toNat_natCast]
    have whole : count + months = otherCount + 12 * addYear := by
      simp only [yearOf, monthOf] at years order
      omega
    have total := daysBefore_add_years otherCount addYear
    rw [← whole] at total
    rw [difference_earlier years order added, isSkipped, total]
    show Except.ok (some ((yearOf count - yearOf otherCount) * 365 - _ + day - otherDay)) = _
    rw [isAddYear]
    apply congrArg
    apply congrArg
    omega
  · let months := count % 12 - otherCount % 12
    have inYear : monthOf otherCount + months ≤ 12 := by
      simp only [monthOf] at order ⊢
      omega
    have target : monthOf (otherCount + months) = monthOf count := by
      simp only [monthOf] at order ⊢
      omega
    have added := months_sum months otherCount otherDay 0 inYear (by omega : months < fuel)
    rw [target] at added
    have start : monthCount (yearOf otherCount) (monthOf count) = otherCount + months := by
      simp only [monthCount, yearOf, monthOf] at order ⊢
      omega
    have isSkipped : skipped (inMonth count day) (inMonth otherCount otherDay) =
        leapDays (otherCount + months) addYear := by
      show leapDays (monthCount (yearOf otherCount) (max (monthOf count) (monthOf otherCount)))
        (yearOf count - yearOf otherCount).toNat = _
      rw [max_eq_left order, start, isAddYear, Int.toNat_natCast]
    have whole : count = otherCount + months + 12 * addYear := by
      simp only [yearOf, monthOf] at years order
      omega
    have total := daysBefore_add_years (otherCount + months) addYear
    rw [← whole] at total
    rw [difference_later years order added, isSkipped, total]
    show Except.ok (some (_ + ((yearOf count - yearOf otherCount) * 365 + day - otherDay))) = _
    rw [isAddYear]
    apply congrArg
    apply congrArg
    omega

/-- The operator returns one number only. -/
theorem returns_iff (isDate : date.Exists) (otherIs : other.Exists)
    (notBefore : ¬ date.Before other) (result : Int) :
    Returns date other result ↔ result = date.number - other.number - skipped date other := by
  have returned := returns_skipped isDate otherIs notBefore
  constructor
  · intro same
    have twice := (same 12 (Nat.le_refl 12)).symm.trans (returned 12 (Nat.le_refl 12))
    exact Option.some.inj (Except.ok.inj twice)
  · rintro rfl
    exact returned

theorem not_before_trans {third : Date} (notBefore : ¬ date.Before other)
    (thirdNot : ¬ other.Before third) : ¬ date.Before third := by
  simp only [Before] at notBefore thirdNot ⊢
  omega

end Valid

/-- The operator returns the days from one date to a later one exactly if it leaves out no leap
day, and the days to a date in between can be added exactly if no leap day is left out of only one
of the sides. -/
theorem difference_exact {date other third : Date} (isDate : date.Exists) (otherIs : other.Exists)
    (thirdIs : third.Exists) (notBefore : ¬ date.Before other) (thirdNot : ¬ other.Before third) :
    (∃ result, Returns date other result) ∧
      (Returns date other (date.number - other.number) ↔ skipped date other = 0) ∧
      ((∃ first second, Returns date other first ∧ Returns other third second ∧
          Returns date third (first + second)) ↔
        skipped date other + skipped other third = skipped date third) := by
  simp only [returns_iff isDate otherIs notBefore, returns_iff otherIs thirdIs thirdNot,
    returns_iff isDate thirdIs (not_before_trans notBefore thirdNot)]
  refine ⟨⟨_, rfl⟩, by omega, ?_⟩
  constructor
  · rintro ⟨first, second, rfl, rfl, sum⟩
    omega
  · intro same
    exact ⟨_, _, rfl, rfl, by omega⟩

/-- From 1 March 2020 to 1 January 2021 no leap day is left out, nor in the months before. -/
theorem difference_exact_year :
    (∃ result, Returns ⟨2021, 1, 1⟩ ⟨2020, 3, 1⟩ result) ∧
      (Returns ⟨2021, 1, 1⟩ ⟨2020, 3, 1⟩
        ((⟨2021, 1, 1⟩ : Date).number - (⟨2020, 3, 1⟩ : Date).number) ↔
          skipped ⟨2021, 1, 1⟩ ⟨2020, 3, 1⟩ = 0) ∧
      ((∃ first second, Returns ⟨2021, 1, 1⟩ ⟨2020, 3, 1⟩ first ∧
          Returns ⟨2020, 3, 1⟩ ⟨2020, 1, 1⟩ second ∧
          Returns ⟨2021, 1, 1⟩ ⟨2020, 1, 1⟩ (first + second)) ↔
        skipped ⟨2021, 1, 1⟩ ⟨2020, 3, 1⟩ + skipped ⟨2020, 3, 1⟩ ⟨2020, 1, 1⟩ =
          skipped ⟨2021, 1, 1⟩ ⟨2020, 1, 1⟩) :=
  difference_exact ⟨by decide, by decide, by decide⟩ ⟨by decide, by decide, by decide⟩
    ⟨by decide, by decide, by decide⟩ (by simp [Before]) (by simp [Before])

/-- The leap year 2020 has 365 days, but the two parts of it have 366. -/
theorem leap_day_skipped :
    difference 12 ⟨2021, 1, 1⟩ ⟨2020, 1, 1⟩ = .ok (some 365) ∧
    difference 12 ⟨2021, 1, 1⟩ ⟨2020, 3, 1⟩ = .ok (some 306) ∧
    difference 12 ⟨2020, 3, 1⟩ ⟨2020, 1, 1⟩ = .ok (some 60) ∧
    ¬ Returns ⟨2021, 1, 1⟩ ⟨2020, 1, 1⟩
      ((⟨2021, 1, 1⟩ : Date).number - (⟨2020, 1, 1⟩ : Date).number) := by
  refine ⟨by decide, by decide, by decide, fun returned => ?_⟩
  have last : (⟨2021, 1, 1⟩ : Date).Exists := ⟨by decide, by decide, by decide⟩
  have first : (⟨2020, 1, 1⟩ : Date).Exists := ⟨by decide, by decide, by decide⟩
  rw [returns_iff last first (by simp [Before])] at returned
  have skips : skipped ⟨2021, 1, 1⟩ ⟨2020, 1, 1⟩ = 1 := by decide
  omega

end Date

end DataStructAlgorithm.HTTPD
