import DataStructAlgorithm.Foundation.Calendar
import DataStructAlgorithm.Foundation.Outcome

/-! # The date of `HTTPD/exc_cgi/method/date/data.h`

The members are unbounded integers. The loops of `+` and `+=` are the same, and so are those
of `-` and `-=`. -/

namespace DataStructAlgorithm.HTTPD

open Foundation

structure Date where
  year : Int
  month : Int
  day : Int
  deriving DecidableEq, Repr

namespace Date

def getDay (year month : Int) : Int :=
  if month = 4 ∨ month = 6 ∨ month = 9 ∨ month = 11 then 30
  else if month = 2 then
    let isLeapYear := (Int.tmod year 4 = 0 ∧ Int.tmod year 100 ≠ 0) ∨ Int.tmod year 400 = 0
    if isLeapYear then 29 else 28
  else 31

def judgeDay (date : Date) : Bool :=
  if date.year ≥ 1900 ∧ date.month > 0 ∧ date.month < 12 ∧ date.day > 0 ∧
      date.day ≤ getDay date.year date.month then true
  else false

/-- The loop of `+` and `+=`. -/
def forwardPass (date : Date) : Outcome (Pass Date Date) :=
  if date.judgeDay = false then
    let day := date.day - getDay date.year date.month
    if date.month = 12 then .ok (.again ⟨date.year + 1, 1, day⟩)
    else .ok (.again ⟨date.year, date.month + 1, day⟩)
  else .ok (.leave date)

/-- The loop of `-` and `-=`. -/
def backwardPass (date : Date) : Outcome (Pass Date Date) :=
  if date.judgeDay = false then
    let (year, month) := if date.month = 1 then (date.year - 1, 12) else (date.year, date.month - 1)
    .ok (.again ⟨year, month, date.day + getDay year month⟩)
  else .ok (.leave date)

def forward (fuel : Nat) (date : Date) (day : Int) : Outcome Date :=
  repeatLoop forwardPass fuel { date with day := date.day + day }

def backward (fuel : Nat) (date : Date) (day : Int) : Outcome Date :=
  repeatLoop backwardPass fuel { date with day := date.day - day }

/-- `date + day`; the operator that a negative number is passed on to gets a positive one. -/
def plus (fuel : Nat) (date : Date) (day : Int) : Outcome Date :=
  if day < 0 then backward fuel date (-day) else forward fuel date day

/-- `date - day` -/
def minus (fuel : Nat) (date : Date) (day : Int) : Outcome Date :=
  if day < 0 then forward fuel date (-day) else backward fuel date day

/-- `date += day` -/
def plusAssign (fuel : Nat) (date : Date) (day : Int) : Outcome Date :=
  if day < 0 then backward fuel date (-day) else forward fuel date day

/-- `date -= day` -/
def minusAssign (fuel : Nat) (date : Date) (day : Int) : Outcome Date :=
  if day < 0 then forward fuel date (-day) else backward fuel date day

/-! ## Months -/

/-- A day of a month, which may be too large or too small for it. -/
def inMonth (count : Nat) (day : Int) : Date := ⟨yearOf count, monthOf count, day⟩

theorem getDay_eq (year month : Int) : getDay year month = monthLength year month := by
  have leap : ((Int.tmod year 4 = 0 ∧ Int.tmod year 100 ≠ 0) ∨ Int.tmod year 400 = 0) ↔
      LeapYear year := by
    simp only [LeapYear, Int.dvd_iff_tmod_eq_zero, ne_eq]
  rw [getDay, monthLength]
  simp only [leap]
  split
  · rfl
  · split
    · split <;> rfl
    · rfl

theorem getDay_nonneg (year month : Int) : 0 ≤ getDay year month := by
  rw [getDay_eq]
  exact Int.natCast_nonneg _

theorem judgeDay_iff (date : Date) : date.judgeDay = true ↔
    date.year ≥ 1900 ∧ date.month > 0 ∧ date.month < 12 ∧ date.day > 0 ∧
      date.day ≤ getDay date.year date.month := by
  rw [judgeDay]
  split
  · rename_i accepted
    exact ⟨fun _ => accepted, fun _ => rfl⟩
  · rename_i rejected
    exact ⟨nofun, fun accepted => absurd accepted rejected⟩

theorem judgeDay_inMonth (count : Nat) (day : Int) :
    (inMonth count day).judgeDay = true ↔
      monthOf count ≠ 12 ∧ 1 ≤ day ∧ day ≤ monthDays count := by
  have range : 1900 ≤ yearOf count ∧ 1 ≤ monthOf count ∧ monthOf count ≤ 12 := by
    simp only [yearOf, monthOf]
    omega
  rw [judgeDay_iff, getDay_eq]
  simp only [inMonth, monthDays]
  omega

theorem forwardPass_inMonth {count : Nat} {day : Int}
    (rejected : (inMonth count day).judgeDay = false) :
    forwardPass (inMonth count day) =
      .ok (.again (inMonth (count + 1) (day - monthDays count))) := by
  rw [forwardPass, if_pos rejected, getDay_eq]
  by_cases december : monthOf count = 12
  · have year : yearOf count + 1 = yearOf (count + 1) ∧ 1 = monthOf (count + 1) := by
      simp only [yearOf, monthOf] at december ⊢
      omega
    simp only [inMonth, monthDays, december, if_true, ← year.1, ← year.2]
  · have year : yearOf count = yearOf (count + 1) ∧ monthOf count + 1 = monthOf (count + 1) := by
      simp only [yearOf, monthOf] at december ⊢
      omega
    simp only [inMonth, monthDays, december, if_false, ← year.1, ← year.2]

theorem backwardPass_inMonth {count : Nat} {day : Int}
    (rejected : (inMonth (count + 1) day).judgeDay = false) :
    backwardPass (inMonth (count + 1) day) =
      .ok (.again (inMonth count (day + monthDays count))) := by
  rw [backwardPass, if_pos rejected]
  by_cases january : monthOf (count + 1) = 1
  · have year : yearOf (count + 1) - 1 = yearOf count ∧ 12 = monthOf count := by
      simp only [yearOf, monthOf] at january ⊢
      omega
    simp only [inMonth, january, if_true, year.1, getDay_eq, monthDays, ← year.2]
  · have year : yearOf (count + 1) = yearOf count ∧ monthOf (count + 1) - 1 = monthOf count := by
      simp only [yearOf, monthOf] at january ⊢
      omega
    simp only [inMonth, january, if_false, year.1, year.2, getDay_eq, monthDays]

/-! ## The loops -/

/-- Once there are no days left, the loop goes on forever. -/
theorem forward_endless (fuel : Nat) {date : Date} (noDays : date.day ≤ 0) :
    repeatLoop forwardPass fuel date = .error .outOfFuel := by
  apply repeatLoop_endless (fun date => date.day ≤ 0)
  · intro date few
    have rejected : date.judgeDay = false := by
      rw [Bool.eq_false_iff, ne_eq, judgeDay_iff]
      omega
    have some := getDay_nonneg date.year date.month
    by_cases december : date.month = 12
    · refine ⟨⟨date.year + 1, 1, date.day - getDay date.year date.month⟩, ?_, ?_⟩
      · rw [forwardPass, if_pos rejected]
        exact if_pos december
      · show date.day - getDay date.year date.month ≤ 0
        omega
    · refine ⟨⟨date.year, date.month + 1, date.day - getDay date.year date.month⟩, ?_, ?_⟩
      · rw [forwardPass, if_pos rejected]
        exact if_neg december
      · show date.day - getDay date.year date.month ≤ 0
        omega
  · exact noDays

/-- Once there are more days than the month has, the loop goes on forever. -/
theorem backward_endless (fuel : Nat) {date : Date} (many : getDay date.year date.month < date.day) :
    repeatLoop backwardPass fuel date = .error .outOfFuel := by
  apply repeatLoop_endless (fun date => getDay date.year date.month < date.day)
  · intro date more
    have rejected : date.judgeDay = false := by
      rw [Bool.eq_false_iff, ne_eq, judgeDay_iff]
      omega
    have some := getDay_nonneg date.year date.month
    by_cases january : date.month = 1
    · refine ⟨⟨date.year - 1, 12, date.day + getDay (date.year - 1) 12⟩, ?_, ?_⟩
      · simp only [backwardPass, rejected, if_true, january]
      · show getDay (date.year - 1) 12 < date.day + getDay (date.year - 1) 12
        omega
    · refine ⟨⟨date.year, date.month - 1, date.day + getDay date.year (date.month - 1)⟩, ?_, ?_⟩
      · simp only [backwardPass, rejected, if_true, january, if_false]
      · show getDay date.year (date.month - 1) < date.day + getDay date.year (date.month - 1)
        omega
  · exact many

/-- From a month before the right one the loop gets to the right one. -/
theorem forward_reaches {target : Nat} {day : Int} (positive : 1 ≤ day) (months : Nat)
    (start : Nat) (isTarget : start + months = target) :
    ∃ passes, ∀ fuel, repeatLoop forwardPass (fuel + passes)
        (inMonth start (day + daysBefore monthDays target - daysBefore monthDays start)) =
      repeatLoop forwardPass fuel (inMonth target day) := by
  induction months generalizing start with
  | zero =>
      have same : start = target := isTarget
      subst same
      refine ⟨0, fun fuel => ?_⟩
      rw [Int.add_sub_cancel]
      rfl
  | succ months induction =>
      rcases induction (start + 1) (by omega) with ⟨passes, run⟩
      have counted := daysBefore_succ monthDays start
      have further := daysBefore_add_le monthDays (by omega : start < target)
      have rejected : (inMonth start
          (day + daysBefore monthDays target - daysBefore monthDays start)).judgeDay = false := by
        rw [Bool.eq_false_iff, ne_eq, judgeDay_inMonth]
        omega
      have left : day + daysBefore monthDays target - daysBefore monthDays start - monthDays start =
          day + daysBefore monthDays target - daysBefore monthDays (start + 1) := by
        omega
      refine ⟨passes + 1, fun fuel => ?_⟩
      rw [← Nat.add_assoc, repeatLoop_again _ (forwardPass_inMonth rejected), left, run]

/-- From a month behind the right one the loop gets to the right one. -/
theorem backward_reaches {target : Nat} {day : Int} (few : day ≤ monthDays target) (months : Nat)
    (start : Nat) (isStart : target + months = start) :
    ∃ passes, ∀ fuel, repeatLoop backwardPass (fuel + passes)
        (inMonth start (day + daysBefore monthDays target - daysBefore monthDays start)) =
      repeatLoop backwardPass fuel (inMonth target day) := by
  induction months generalizing start with
  | zero =>
      have same : target = start := isStart
      subst same
      refine ⟨0, fun fuel => ?_⟩
      rw [Int.add_sub_cancel]
      rfl
  | succ months induction =>
      have isNext : start = target + months + 1 := by omega
      subst isNext
      rcases induction (target + months) rfl with ⟨passes, run⟩
      have counted := daysBefore_succ monthDays (target + months)
      have further := daysBefore_add_le monthDays
        (by omega : target < target + months + 1)
      have rejected : (inMonth (target + months + 1) (day + daysBefore monthDays target -
          daysBefore monthDays (target + months + 1))).judgeDay = false := by
        rw [Bool.eq_false_iff, ne_eq, judgeDay_inMonth]
        omega
      have left : day + daysBefore monthDays target - daysBefore monthDays (target + months + 1) +
          monthDays (target + months) =
          day + daysBefore monthDays target - daysBefore monthDays (target + months) := by
        omega
      refine ⟨passes + 1, fun fuel => ?_⟩
      rw [← Nat.add_assoc, repeatLoop_again _ (backwardPass_inMonth rejected), left, run]

section Target

variable {target : Nat} {day : Int}

theorem leave_target (dayIn : 1 ≤ day ∧ day ≤ monthDays target) (notDecember : monthOf target ≠ 12) :
    forwardPass (inMonth target day) = .ok (.leave (inMonth target day)) ∧
      backwardPass (inMonth target day) = .ok (.leave (inMonth target day)) := by
  have accepted := (judgeDay_inMonth target day).mpr ⟨notDecember, dayIn⟩
  simp [forwardPass, backwardPass, accepted]

/-- The loop gets to a day behind the first one, unless that is in December. -/
theorem forward_returns (dayIn : 1 ≤ day ∧ day ≤ monthDays target) {start : Nat}
    (before : start ≤ target) (result : Date) :
    (∃ fuel, repeatLoop forwardPass fuel
      (inMonth start (day + daysBefore monthDays target - daysBefore monthDays start)) =
        .ok result) ↔ monthOf target ≠ 12 ∧ result = inMonth target day := by
  have isTarget : start + (target - start) = target := Nat.add_sub_of_le before
  rcases forward_reaches dayIn.1 (target - start) start isTarget with ⟨passes, reaches⟩
  rw [repeatLoop_returns_iff reaches]
  by_cases december : monthOf target = 12
  · have rejected : (inMonth target day).judgeDay = false := by
      rw [Bool.eq_false_iff, ne_eq, judgeDay_inMonth]
      exact fun accepted => accepted.1 december
    have noDays : (inMonth (target + 1) (day - monthDays target)).day ≤ 0 :=
      Int.sub_nonpos_of_le dayIn.2
    have never : ∀ fuel, repeatLoop forwardPass fuel (inMonth target day) = .error .outOfFuel := by
      intro fuel
      cases fuel with
      | zero => rfl
      | succ fuel =>
          rw [repeatLoop_again _ (forwardPass_inMonth rejected), forward_endless fuel noDays]
    simp [never, december]
  · rw [repeatLoop_leave_iff (leave_target dayIn december).1]
    exact ⟨fun same => ⟨december, same⟩, And.right⟩

/-- The loop gets to a day before the first one, unless that is in December. -/
theorem backward_returns (dayIn : 1 ≤ day ∧ day ≤ monthDays target) {start : Nat}
    (behind : target ≤ start) (result : Date) :
    (∃ fuel, repeatLoop backwardPass fuel
      (inMonth start (day + daysBefore monthDays target - daysBefore monthDays start)) =
        .ok result) ↔ monthOf target ≠ 12 ∧ result = inMonth target day := by
  have isStart : target + (start - target) = start := Nat.add_sub_of_le behind
  rcases backward_reaches dayIn.2 (start - target) start isStart with ⟨passes, reaches⟩
  rw [repeatLoop_returns_iff reaches]
  by_cases december : monthOf target = 12
  · have rejected : (inMonth target day).judgeDay = false := by
      rw [Bool.eq_false_iff, ne_eq, judgeDay_inMonth]
      exact fun accepted => accepted.1 december
    have november : ∃ earlier, target = earlier + 1 := by
      refine ⟨target - 1, ?_⟩
      simp only [monthOf] at december
      omega
    rcases november with ⟨earlier, rfl⟩
    have many : getDay (inMonth earlier (day + monthDays earlier)).year
        (inMonth earlier (day + monthDays earlier)).month <
          (inMonth earlier (day + monthDays earlier)).day := by
      rw [getDay_eq]
      show (monthDays earlier : Int) < day + monthDays earlier
      omega
    have never : ∀ fuel, repeatLoop backwardPass fuel (inMonth (earlier + 1) day) =
        .error .outOfFuel := by
      intro fuel
      cases fuel with
      | zero => rfl
      | succ fuel =>
          rw [repeatLoop_again _ (backwardPass_inMonth rejected), backward_endless fuel many]
    simp [never, december]
  · rw [repeatLoop_leave_iff (leave_target dayIn december).2]
    exact ⟨fun same => ⟨december, same⟩, And.right⟩

end Target

/-! ## The operators -/

/-- The date exists in the calendar and is not before 1900. -/
structure Exists (date : Date) : Prop where
  modern : 1900 ≤ date.year
  month : 1 ≤ date.month ∧ date.month ≤ 12
  day : 1 ≤ date.day ∧ date.day ≤ monthLength date.year date.month

def number (date : Date) : Int := dayNumber date.year date.month date.day

/-- A date is the one exactly `days` days after another one, or before it. -/
def DaysAfter (date : Date) (days : Int) (other : Date) : Prop :=
  other.Exists ∧ other.number = date.number + days

theorem inMonth_exists {count : Nat} {day : Int} (dayIn : 1 ≤ day ∧ day ≤ monthDays count) :
    (inMonth count day).Exists := by
  refine ⟨?_, ?_, dayIn⟩
  · show 1900 ≤ yearOf count
    rw [yearOf]
    omega
  · show 1 ≤ monthOf count ∧ monthOf count ≤ 12
    rw [monthOf]
    omega

theorem number_inMonth (count : Nat) (day : Int) :
    (inMonth count day).number = daysBefore monthDays count + day := by
  show dayNumber (yearOf count) (monthOf count) day = _
  rw [dayNumber, monthCount_of]

theorem Exists.eq_inMonth {date : Date} (isDate : date.Exists) : ∃ count day,
    date = inMonth count day ∧ 1 ≤ day ∧ day ≤ monthDays count := by
  rcases of_monthCount isDate.modern isDate.month with ⟨year, month⟩
  refine ⟨monthCount date.year date.month, date.day, ?_, isDate.day.1, ?_⟩
  · rw [inMonth, year, month]
  · rw [monthDays, year, month]
    exact isDate.day.2

/-- Two dates with one number are the same. -/
theorem Exists.unique {date other : Date} (isDate : date.Exists) (otherIs : other.Exists)
    (same : date.number = other.number) : date = other := by
  rcases isDate.eq_inMonth with ⟨count, day, rfl, low, high⟩
  rcases otherIs.eq_inMonth with ⟨otherCount, otherDay, rfl, otherLow, otherHigh⟩
  rw [number_inMonth, number_inMonth] at same
  rcases Int.eq_ofNat_of_zero_le (by omega : 0 ≤ day) with ⟨dayNat, rfl⟩
  rcases Int.eq_ofNat_of_zero_le (by omega : 0 ≤ otherDay) with ⟨otherNat, rfl⟩
  have dayIn : 1 ≤ dayNat ∧ dayNat ≤ monthDays count := by omega
  have otherIn : 1 ≤ otherNat ∧ otherNat ≤ monthDays otherCount := by omega
  rcases period_unique monthDays dayIn otherIn (by omega) with ⟨rfl, rfl⟩
  rfl

/-- There is a date for every number of days that does not lead before 1900. -/
theorem exists_daysAfter {date : Date} {days : Int} (notBefore : 1 ≤ date.number + days) :
    ∃ other, DaysAfter date days other := by
  have positive : ∀ count, 0 < monthDays count := fun count => monthLength_pos _ _
  rcases exists_period positive (date.number + days - 1).toNat with ⟨count, day, dayIn, counted⟩
  refine ⟨inMonth count day, inMonth_exists (by omega), ?_⟩
  rw [number_inMonth]
  omega

section Operators

variable {date other : Date} {days : Int}

theorem forward_daysAfter (isDate : date.Exists) (after : DaysAfter date days other)
    (notNegative : 0 ≤ days) (result : Date) :
    (∃ fuel, forward fuel date days = .ok result) ↔ other.month ≠ 12 ∧ result = other := by
  rcases after with ⟨otherIs, counted⟩
  rcases isDate.eq_inMonth with ⟨count, day, rfl, low, high⟩
  rcases otherIs.eq_inMonth with ⟨target, otherDay, rfl, otherLow, otherHigh⟩
  rw [number_inMonth, number_inMonth] at counted
  have before : count ≤ target := by
    apply Nat.le_of_not_lt
    intro behind
    have apart := daysBefore_add_le monthDays behind
    omega
  have moved : day + days =
      otherDay + daysBefore monthDays target - daysBefore monthDays count := by
    omega
  have returns := forward_returns ⟨otherLow, otherHigh⟩ before result
  rw [← moved] at returns
  exact returns

theorem backward_daysAfter (isDate : date.Exists) (after : DaysAfter date (-days) other)
    (notNegative : 0 ≤ days) (result : Date) :
    (∃ fuel, backward fuel date days = .ok result) ↔ other.month ≠ 12 ∧ result = other := by
  rcases after with ⟨otherIs, counted⟩
  rcases isDate.eq_inMonth with ⟨count, day, rfl, low, high⟩
  rcases otherIs.eq_inMonth with ⟨target, otherDay, rfl, otherLow, otherHigh⟩
  rw [number_inMonth, number_inMonth] at counted
  have behind : target ≤ count := by
    apply Nat.le_of_not_lt
    intro before
    have apart := daysBefore_add_le monthDays before
    omega
  have moved : day - days =
      otherDay + daysBefore monthDays target - daysBefore monthDays count := by
    omega
  have returns := backward_returns ⟨otherLow, otherHigh⟩ behind result
  rw [← moved] at returns
  exact returns

/-- What `+` and `+=` return. -/
theorem plus_returns (isDate : date.Exists) (after : DaysAfter date days other) (result : Date) :
    (∃ fuel, plus fuel date days = .ok result) ↔ other.month ≠ 12 ∧ result = other := by
  by_cases negative : days < 0
  · simp only [plus, if_pos negative]
    rw [← Int.neg_neg days] at after
    exact backward_daysAfter isDate after (by omega) result
  · simp only [plus, if_neg negative]
    exact forward_daysAfter isDate after (by omega) result

/-- What `-` and `-=` return. -/
theorem minus_returns (isDate : date.Exists) (after : DaysAfter date (-days) other)
    (result : Date) :
    (∃ fuel, minus fuel date days = .ok result) ↔ other.month ≠ 12 ∧ result = other := by
  by_cases negative : days < 0
  · simp only [minus, if_pos negative]
    exact forward_daysAfter isDate after (by omega) result
  · simp only [minus, if_neg negative]
    exact backward_daysAfter isDate after (by omega) result

theorem DaysAfter.back (isDate : date.Exists) (after : DaysAfter date days other) :
    DaysAfter other (-days) date := by
  refine ⟨isDate, ?_⟩
  rw [after.2]
  omega

theorem DaysAfter.trans {more : Int} {third : Date} (after : DaysAfter date days other)
    (next : DaysAfter other more third) : DaysAfter date (days + more) third := by
  refine ⟨next.1, ?_⟩
  rw [next.2, after.2]
  omega

end Operators

/-- The operators all lead to a date that is `days` days after another one. -/
def Leads (date : Date) (days : Int) (other : Date) : Prop :=
  (∃ fuel, plus fuel date days = .ok other) ∧ (∃ fuel, minus fuel date (-days) = .ok other) ∧
    (∃ fuel, plusAssign fuel date days = .ok other) ∧
    ∃ fuel, minusAssign fuel date (-days) = .ok other

/-- When the operators do what is expected of them, for two dates `days` apart. -/
structure Arithmetic (date : Date) (days : Int) (other : Date) : Prop where
  leads : Leads date days other ↔ other.month ≠ 12
  back : (∃ there, (∃ fuel, plus fuel date days = .ok there) ∧
    ∃ fuel, minus fuel there days = .ok date) ↔ other.month ≠ 12 ∧ date.month ≠ 12
  assoc : ∀ more third, DaysAfter other more third →
    ((∃ middle final, (∃ fuel, plus fuel date days = .ok middle) ∧
      (∃ fuel, plus fuel middle more = .ok final) ∧
      ∃ fuel, plus fuel date (days + more) = .ok final) ↔
        other.month ≠ 12 ∧ third.month ≠ 12)

theorem DaysAfter.arithmetic {date other : Date} {days : Int} (isDate : date.Exists)
    (after : DaysAfter date days other) : Arithmetic date days other where
  leads := by
    have afterBack : DaysAfter date (-(-days)) other := by
      rw [Int.neg_neg]
      exact after
    constructor
    · rintro ⟨added, _⟩
      exact ((plus_returns isDate after other).mp added).1
    · intro notDecember
      have added := (plus_returns isDate after other).mpr ⟨notDecember, rfl⟩
      have subtracted := (minus_returns isDate afterBack other).mpr ⟨notDecember, rfl⟩
      exact ⟨added, subtracted, added, subtracted⟩
  back := by
    simp only [plus_returns isDate after]
    have returns := minus_returns after.1 (after.back isDate) date
    constructor
    · rintro ⟨there, ⟨notDecember, rfl⟩, back⟩
      exact ⟨notDecember, (returns.mp back).1⟩
    · rintro ⟨notDecember, dateNot⟩
      exact ⟨other, ⟨notDecember, rfl⟩, returns.mpr ⟨dateNot, rfl⟩⟩
  assoc := by
    intro more third next
    simp only [plus_returns isDate after, plus_returns isDate (after.trans next)]
    constructor
    · rintro ⟨middle, final, ⟨notDecember, _⟩, _, finalNot, _⟩
      exact ⟨notDecember, finalNot⟩
    · rintro ⟨notDecember, thirdNot⟩
      exact ⟨other, third, ⟨notDecember, rfl⟩,
        (plus_returns after.1 next third).mpr ⟨thirdNot, rfl⟩, thirdNot, rfl⟩

/-- The operators lead to the right date exactly when it is not in December. Going there and
back, or on to a third date, works exactly when none of the dates reached is. -/
theorem date_arithmetic (date : Date) (isDate : date.Exists) (days : Int)
    (notBefore : 1 ≤ date.number + days) :
    ∃ other, DaysAfter date days other ∧ (∀ same, DaysAfter date days same → same = other) ∧
      Arithmetic date days other := by
  rcases exists_daysAfter notBefore with ⟨other, after⟩
  refine ⟨other, after, fun same sameAfter => ?_, after.arithmetic isDate⟩
  exact sameAfter.1.unique after.1 (sameAfter.2.trans after.2.symm)

theorem date_arithmetic_leap_day :
    ∃ other, DaysAfter ⟨1904, 1, 31⟩ 29 other ∧
      (∀ same, DaysAfter ⟨1904, 1, 31⟩ 29 same → same = other) ∧
      Arithmetic ⟨1904, 1, 31⟩ 29 other :=
  date_arithmetic ⟨1904, 1, 31⟩ ⟨by decide, by decide, by decide⟩ 29 (by decide)

/-- The day after 30 November 2024 is never found. -/
theorem december_endless : DaysAfter ⟨2024, 11, 30⟩ 1 ⟨2024, 12, 1⟩ ∧
    ∀ fuel, plus fuel ⟨2024, 11, 30⟩ 1 = .error .outOfFuel := by
  constructor
  · refine ⟨⟨by decide, by decide, by decide⟩, ?_⟩
    have counted : daysBefore monthDays 1499 = daysBefore monthDays 1498 + monthDays 1498 :=
      daysBefore_succ monthDays 1498
    have long : monthDays 1498 = 30 := by decide
    show (daysBefore monthDays 1499 : Int) + 1 = daysBefore monthDays 1498 + 30 + 1
    omega
  · intro fuel
    have toDecember : forwardPass ⟨2024, 11, 31⟩ = .ok (.again ⟨2024, 12, 1⟩) := rfl
    have toJanuary : forwardPass ⟨2024, 12, 1⟩ = .ok (.again ⟨2025, 1, -30⟩) := rfl
    show repeatLoop forwardPass fuel ⟨2024, 11, 31⟩ = _
    cases fuel with
    | zero => rfl
    | succ fuel =>
        rw [repeatLoop_again _ toDecember]
        cases fuel with
        | zero => rfl
        | succ fuel =>
            rw [repeatLoop_again _ toJanuary]
            exact forward_endless fuel (by decide)

end Date

end DataStructAlgorithm.HTTPD
