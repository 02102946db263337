import Mathlib.Data.Set.Insert
import DataStructAlgorithm.HTTPD.Date

/-! # The order of dates

The six comparison operators of `data.h`. -/

namespace DataStructAlgorithm.HTTPD

open Foundation

namespace Date

/-- `<` -/
def less (date other : Date) : Bool :=
  if date.year < other.year ∨ (date.year = other.year ∧ date.month < other.month) ∨
      (date.month = other.month ∧ date.day < other.day) then true
  else false

/-- `<=` -/
def lessEqual (date other : Date) : Bool :=
  if date.less other ∨ (date.year = other.year ∧ date.month = other.month ∧
      date.day = other.day) then true
  else false

/-- `>` -/
def greater (date other : Date) : Bool :=
  if date.year > other.year ∨ (date.year = other.year ∧ date.month > other.month) ∨
      (date.month = other.month ∧ date.day > other.day) then true
  else false

/-- `>=` -/
def greaterEqual (date other : Date) : Bool :=
  if date.greater other ∨ (date.year = other.year ∧ date.month = other.month ∧
      date.day = other.day) then true
  else false

/-- `==` -/
def equal (date other : Date) : Bool :=
  if date.year = other.year ∧ date.month = other.month ∧ date.day = other.day then true
  else false

/-- `!=` -/
def notEqual (date other : Date) : Bool :=
  if date.year ≠ other.year ∨ (date.year = other.year ∧ date.month ≠ other.month) ∨
      (date.month = other.month ∧ date.day ≠ other.day) then true
  else false

/-! ## The chronological order -/

/-- The date is earlier than the other one. -/
def Before (date other : Date) : Prop :=
  date.year < other.year ∨ date.year = other.year ∧
    (date.month < other.month ∨ date.month = other.month ∧ date.day < other.day)

/-- Of two dates that exist, the earlier one has the lower number. -/
theorem Exists.before_iff {date other : Date} (isDate : date.Exists) (otherIs : other.Exists) :
    date.Before other ↔ date.number < other.number := by
  rcases isDate.eq_inMonth with ⟨count, day, rfl, low, high⟩
  rcases otherIs.eq_inMonth with ⟨otherCount, otherDay, rfl, otherLow, otherHigh⟩
  have order : (inMonth count day).Before (inMonth otherCount otherDay) ↔
      count < otherCount ∨ count = otherCount ∧ day < otherDay := by
    simp only [Before, inMonth, yearOf, monthOf]
    omega
  rw [order, number_inMonth, number_inMonth]
  rcases Nat.lt_trichotomy count otherCount with before | same | behind
  · have apart := daysBefore_add_le monthDays before
    omega
  · subst same
    omega
  · have apart := daysBefore_add_le monthDays behind
    omega

/-- The dates are in one month of different years, and the one in the later year has the lower
day. -/
def Crossed (date other : Date) : Prop :=
  date.month = other.month ∧
    (date.year < other.year ∧ other.day < date.day ∨ other.year < date.year ∧ date.day < other.day)

instance (date other : Date) : Decidable (date.Crossed other) :=
  inferInstanceAs (Decidable (_ ∧ _))

section Pairs

variable (date other : Date)

theorem less_iff : date.less other = true ↔
    date.Before other ∨ date.month = other.month ∧ date.day < other.day := by
  simp only [less, Before, ite_eq_left_iff, Bool.false_eq_true, imp_false, not_not]
  omega

theorem greater_iff : date.greater other = true ↔
    other.Before date ∨ date.month = other.month ∧ other.day < date.day := by
  simp only [greater, Before, ite_eq_left_iff, Bool.false_eq_true, imp_false, not_not]
  omega

theorem equal_iff : date.equal other = true ↔
    date.year = other.year ∧ date.month = other.month ∧ date.day = other.day := by
  simp only [equal, ite_eq_left_iff, Bool.false_eq_true, imp_false, not_not]

theorem lessEqual_iff :
    date.lessEqual other = true ↔ date.less other = true ∨ date.equal other = true := by
  rw [equal_iff]
  simp only [lessEqual, ite_eq_left_iff, Bool.false_eq_true, imp_false, not_not]

theorem greaterEqual_iff :
    date.greaterEqual other = true ↔ date.greater other = true ∨ date.equal other = true := by
  rw [equal_iff]
  simp only [greaterEqual, ite_eq_left_iff, Bool.false_eq_true, imp_false, not_not]

theorem notEqual_iff : date.notEqual other = true ↔ ¬ date.equal other = true := by
  rw [equal_iff]
  simp only [notEqual, ite_eq_left_iff, Bool.false_eq_true, imp_false, not_not]
  omega

theorem less_iff_before : (date.less other = true ↔ date.Before other) ↔
    ¬ (date.month = other.month ∧ other.year < date.year ∧ date.day < other.day) := by
  rw [less_iff]
  simp only [Before]
  omega

end Pairs

/-- What the operators say of two dates is right. -/
structure Compared (date other : Date) : Prop where
  less : date.less other = true ↔ date.Before other
  one : date.less other = true ∧ ¬ date.equal other = true ∧ ¬ other.less date = true ∨
    ¬ date.less other = true ∧ date.equal other = true ∧ ¬ other.less date = true ∨
    ¬ date.less other = true ∧ ¬ date.equal other = true ∧ other.less date = true
  greater : date.greater other = true ↔ other.less date = true
  lessEqual : date.lessEqual other = true ↔ ¬ other.less date = true
  greaterEqual : date.greaterEqual other = true ↔ ¬ date.less other = true
  notEqual : date.notEqual other = true ↔ ¬ date.equal other = true

theorem compared_iff (date other : Date) : Compared date other ↔ ¬ date.Crossed other := by
  have forth := less_iff_before date other
  have back := less_iff_before other date
  constructor
  · intro compared crossed
    have one := compared.one
    rw [less_iff, less_iff other date] at one
    simp only [Before, Crossed] at one crossed
    omega
  · intro straight
    have chronological : date.less other = true ↔ date.Before other := by
      rw [forth]
      simp only [Crossed] at straight
      omega
    have reversed : other.less date = true ↔ other.Before date := by
      rw [back]
      simp only [Crossed] at straight
      omega
    refine ⟨chronological, ?_, ?_, ?_, ?_, notEqual_iff date other⟩
    · rw [chronological, reversed, equal_iff]
      simp only [Before]
      omega
    · rw [greater_iff, less_iff, @eq_comm Int date.month]
    · rw [lessEqual_iff, chronological, reversed, equal_iff]
      simp only [Before]
      omega
    · rw [greaterEqual_iff, chronological, greater_iff, equal_iff]
      simp only [Before, Crossed] at straight ⊢
      omega

/-- On some dates the operators form one strict total order, the chronological one. -/
structure Ordered (dates : Set Date) : Prop where
  compared : ∀ date ∈ dates, ∀ other ∈ dates, Compared date other
  trans : ∀ first ∈ dates, ∀ second ∈ dates, ∀ third ∈ dates,
    first.less second = true → second.less third = true → first.less third = true

/-- The operators order some dates exactly if no two of them are crossed. -/
theorem comparisons_ordered_iff (dates : Set Date) :
    Ordered dates ↔ ∀ date ∈ dates, ∀ other ∈ dates, ¬ date.Crossed other := by
  constructor
  · intro ordered date member other otherMember
    exact (compared_iff date other).mp (ordered.compared date member other otherMember)
  · intro straight
    have compared : ∀ date ∈ dates, ∀ other ∈ dates, Compared date other :=
      fun date member other otherMember =>
        (compared_iff date other).mpr (straight date member other otherMember)
    refine ⟨compared, ?_⟩
    intro first isFirst second isSecond third isThird
    rw [(compared first isFirst second isSecond).less,
      (compared second isSecond third isThird).less,
      (compared first isFirst third isThird).less]
    simp only [Before]
    omega

/-- 10 May 2020 and 20 May 2019 are both less than the other one. -/
theorem not_ordered : (⟨2020, 5, 10⟩ : Date).less ⟨2019, 5, 20⟩ = true ∧
    (⟨2019, 5, 20⟩ : Date).less ⟨2020, 5, 10⟩ = true ∧ ¬ Ordered {date | date.Exists} := by
  refine ⟨by decide, by decide, fun ordered => ?_⟩
  have later : (⟨2020, 5, 10⟩ : Date).Exists := ⟨by decide, by decide, by decide⟩
  have earlier : (⟨2019, 5, 20⟩ : Date).Exists := ⟨by decide, by decide, by decide⟩
  have compared := ordered.compared _ later _ earlier
  exact (compared_iff _ _).mp compared (by decide)

end Date

end DataStructAlgorithm.HTTPD
