import DataStructAlgorithm.Algorithm.Sort.QuickSort

/-! # `QuickSort`

A range of at most sixteen elements goes to `InsertSort`, which always sorts from the start of
the array. -/

namespace DataStructAlgorithm.Algorithm.Sort

open Foundation

variable {span : Span} {a : Contents Int}

/-- A condition on the array and the range holds in every call that a call leads to, itself
included. -/
def EveryCall (span : Span) (holds : Contents Int → (left right : Nat) → Prop) :
    (fuel : Nat) → Contents Int → (left right : Nat) → Prop
  | 0, _, _, _ => True
  | fuel + 1, a, left, right =>
      holds a left right ∧ (16 ≤ toSize (right - left) → ∀ divided div,
        partSort1 span fuel a left right = .ok (divided, div) →
        EveryCall span holds fuel divided left (toSize (toInt div - 1)) ∧
        ∀ first, quickSort span fuel divided left (toSize (toInt div - 1)) = .ok first →
          EveryCall span holds fuel first (toSize (toInt div + 1)) right)

/-- A range that the code treats as it should: it is not empty; a short one starts at the start
of the array or is in order, as is what `InsertSort` sorts in its place; in a long one the pivot
is chosen without harm. -/
structure Manageable (span : Span) (a : Contents Int) (left right : Nat) : Prop where
  ordered : left ≤ right
  short : right - left < 16 → left = 0 ∨ left = right ∨
    span.Covers 0 (right - left) ∧ MonotoneOn a (Set.Icc 0 (right - left : Int)) ∧
      MonotoneOn a (Set.Icc (left : Int) right)
  long : 16 ≤ right - left → right < 2 ^ 31 ∧ Harmless span a left right

/-! ## Short ranges -/

theorem quickSort_short {left right : Nat} (ordered : left ≤ right) (short : right - left < 16)
    (fuel : Nat) (a : Contents Int) :
    quickSort span (fuel + 1) a left right = insertSort span fuel a (right - left + 1) := by
  have width : toSize (right - left) = right - left := toSize_sub ordered (by omega)
  have length : toSize ((right - left : Nat) + 1) = right - left + 1 := toSize_succ (by omega)
  rw [quickSort, width, if_pos short, length]

theorem insertSort_single (a : Contents Int) (fuel : Nat) (enough : 0 < fuel) :
    insertSort span fuel a 1 = .ok a := by
  have positive : ∃ rest, fuel = rest + 1 := ⟨fuel - 1, by omega⟩
  rcases positive with ⟨rest, rfl⟩
  exact repeatLoop_leave rest rfl

theorem insertSort_ordered {sz : Nat} (covers : span.Covers 0 (sz - 1)) (positive : 1 ≤ sz)
    (small : sz < 2 ^ 31) (monotone : MonotoneOn a (Set.Icc 0 (sz - 1 : Int))) (fuel : Nat)
    (enough : sz + 1 < fuel) : insertSort span fuel a sz = .ok a := by
  rcases insertSort_spec (a := a) covers positive small fuel enough with ⟨after, ran, sorted⟩
  rw [ran, sorted.unique ⟨.refl _ _ a, monotone⟩]

theorem Manageable.insert {left right : Nat} (manageable : Manageable span a left right)
    (covers : span.Covers left right) (short : right - left < 16) (fuel : Nat)
    (enough : 17 < fuel) :
    ∃ after, insertSort span fuel a (right - left + 1) = .ok after ∧
      SortedFrom left right a after := by
  have ordered := manageable.ordered
  rcases manageable.short short with rfl | rfl | ⟨prefixCovers, prefixSorted, sorted⟩
  · have whole : span.Covers 0 ((right - 0 + 1 : Nat) - 1 : Int) := by
      rw [show ((right - 0 + 1 : Nat) - 1 : Int) = right by omega]
      exact covers
    rcases insertSort_spec (a := a) whole (by omega) (by omega) fuel (by omega) with
      ⟨after, ran, sorted⟩
    rw [show ((right - 0 + 1 : Nat) - 1 : Int) = right by omega] at sorted
    exact ⟨after, ran, sorted⟩
  · rw [Nat.sub_self]
    exact ⟨a, insertSort_single a fuel (by omega), .refl _ _ a, monotoneOn_single a (le_refl _)⟩
  · have last : ((right - left + 1 : Nat) - 1 : Int) = right - left := by omega
    rw [← last] at prefixCovers prefixSorted
    exact ⟨a, insertSort_ordered prefixCovers (by omega) (by omega) prefixSorted fuel (by omega),
      .refl _ _ a, sorted⟩

/-! ## Long ranges -/

theorem quickSort_long {left right : Nat} (ordered : left ≤ right) (isSize : right < 2 ^ 64)
    (long : ¬right - left < 16) (fuel : Nat) (a : Contents Int) :
    quickSort span (fuel + 1) a left right =
      partSort1 span fuel a left right >>= fun (a, div) =>
        quickSort span fuel a left (toSize (toInt div - 1)) >>= fun a =>
          addInt (toInt div) 1 >>= fun next => quickSort span fuel a (toSize next) right := by
  have width : toSize (right - left) = right - left := toSize_sub ordered (by omega)
  rw [quickSort, width, if_neg long]

theorem partSort1_spec {left right : Nat} (covers : span.Covers left right) (proper : left ≤ right)
    (small : right < 2 ^ 31) (harmless : Harmless span a left right) (fuel : Nat)
    (enough : right - left + 1 < fuel) :
    ∃ after pivot, partSort1 span fuel a left right = .ok (after, pivot) ∧
      Rearranges left right a after ∧ Partitioned left right after pivot := by
  rcases harmless.index covers proper small with ⟨mid, found, accessed, exchanged⟩
  rcases partSort1From_ran (a := a) covers proper accessed small fuel enough with
    ⟨now, begin, ran, crossing⟩
  rcases crossing.partitioned small with ⟨rearranges, partitioned⟩
  rw [exchangeAt_comm] at rearranges
  refine ⟨_, _, ?_, exchanged.trans rearranges, partitioned⟩
  rw [partSort1, found, Outcome.ok_bind]
  exact ran

theorem EveryCall.here {holds : Contents Int → (left right : Nat) → Prop} {fuel left right : Nat}
    (every : EveryCall span holds fuel a left right) (enough : 0 < fuel) : holds a left right := by
  cases fuel with
  | zero => omega
  | succ fuel => exact every.1

/-- The range before a pivot is only manageable when the pivot is not the first element. -/
theorem Manageable.pivot_after {left pivot : Nat}
    (manageable : Manageable span a left (toSize (pivot - 1))) (behind : (left : Int) ≤ pivot)
    (small : pivot < 2 ^ 31) : left < pivot := by
  by_contra first
  have same : pivot = left := by omega
  subst same
  rcases Nat.eq_zero_or_pos pivot with rfl | positive
  · have wrapped : (toSize ((0 : Nat) - 1) : Int) = (0 : Nat) - 1 + 2 ^ 64 :=
      toSize_neg (by omega) (by omega)
    have high := (manageable.long (by omega)).1
    omega
  · have size : (toSize (pivot - 1) : Int) = pivot - 1 := toSize_eq (by omega) (by omega)
    have ordered := manageable.ordered
    omega

/-- A run whose calls are all manageable sorts. -/
theorem quickSort_ran (fuel : Nat) : ∀ {a : Contents Int} {left right : Nat},
    span.Covers left right → EveryCall span (Manageable span) fuel a left right →
      right - left + 20 < fuel →
      ∃ after, quickSort span fuel a left right = .ok after ∧ SortedFrom left right a after := by
  induction fuel with
  | zero =>
      intro a left right _ _ enough
      omega
  | succ fuel induction =>
      intro a left right covers every enough
      rcases every with ⟨manageable, inner⟩
      have ordered := manageable.ordered
      by_cases short : right - left < 16
      · rw [quickSort_short ordered short]
        exact manageable.insert covers short fuel (by omega)
      · rcases manageable.long (by omega) with ⟨small, harmless⟩
        have width : toSize (right - left) = right - left := toSize_sub ordered (by omega)
        rcases partSort1_spec covers ordered small harmless fuel (by omega) with
          ⟨divided, pivot, ran, rearranges, partitioned⟩
        have between := partitioned.inside
        have pivotInt : toInt pivot = pivot := toInt_eq (by omega) (by omega)
        rw [width, ran] at inner
        rcases inner (by omega) divided pivot rfl with ⟨leftCalls, rightCalls⟩
        rw [pivotInt] at leftCalls rightCalls
        have before := (leftCalls.here (by omega)).pivot_after between.1 (by omega)
        have leftSize : (toSize (pivot - 1) : Int) = pivot - 1 := toSize_eq (by omega) (by omega)
        have leftCovers : span.Covers left (toSize (pivot - 1)) := by
          rw [leftSize]
          exact ⟨covers.1, Int.le_trans (by omega) covers.2⟩
        rcases induction leftCovers leftCalls (by omega) with ⟨first, firstRan, firstSorted⟩
        have rightCalls := rightCalls first firstRan
        have rightSize : (toSize (pivot + 1) : Int) = pivot + 1 := toSize_eq (by omega) (by omega)
        have rightOrdered := (rightCalls.here (by omega)).ordered
        have rightCovers : span.Covers (toSize (pivot + 1)) right := by
          rw [rightSize]
          exact ⟨Int.le_trans covers.1 (by omega), covers.2⟩
        rcases induction rightCovers rightCalls (by omega) with ⟨second, secondRan, secondSorted⟩
        have next : addInt pivot 1 = .ok (pivot + 1 : Int) := addInt_eq (by omega) (by omega)
        rw [leftSize] at firstSorted
        rw [rightSize] at secondSorted
        have sorted := partitioned.sorted firstSorted secondSorted
        refine ⟨second, ?_, rearranges.trans sorted.rearranges, sorted.monotone⟩
        rw [quickSort_long ordered (by omega) short, ran, Outcome.ok_bind]
        simp only [pivotInt]
        rw [firstRan, Outcome.ok_bind, next, Outcome.ok_bind]
        exact secondRan

/-! ## Ranges that do not start at the start of the array -/

/-- `InsertSort` accesses the start of the array. -/
theorem insertSort_accesses {sz : Nat} (outside : 0 < span.first) (more : 2 ≤ sz)
    (isSize : sz < 2 ^ 64) (fuel : Nat) (after : Contents Int) :
    insertSort span fuel a sz ≠ .ok after := by
  intro returned
  cases fuel with
  | zero => cases returned
  | succ fuel =>
      have limit : (toSize (sz - 1) : Int) = sz - 1 := toSize_eq (by omega) (by omega)
      have started : 0 < toSize (sz - 1) := by omega
      have failed : ∀ inserted, insertAt span (fuel + 1) 1 a 0 ≠ .ok inserted := by
        intro inserted ran
        rcases Outcome.bind_eq_ok ran with ⟨source, _, rest⟩
        rcases Outcome.bind_eq_ok rest with ⟨tamp, _, rest⟩
        rcases Outcome.bind_eq_ok rest with ⟨result, shifted, _⟩
        have loaded : load span a 0 = .error .outOfRange := load_outside (Or.inl outside)
        have pass : shiftPass span 1 tamp (a, 0) = .error .outOfRange := by
          rw [shiftPass, if_pos (le_refl _), loaded]
          rfl
        have index : toInt (0 : Nat) = 0 := rfl
        rw [index, repeatLoop_error fuel pass] at shifted
        cases shifted
      cases inserted : insertAt span (fuel + 1) 1 a 0 with
      | ok next => exact failed next inserted
      | error fault =>
          have pass : gapPass span (fuel + 1) sz 1 (a, 0) = .error fault := by
            rw [gapPass, if_pos started, inserted]
            rfl
          rw [insertSort, repeatLoop_error fuel pass] at returned
          cases returned

theorem quickSort_short_accesses {left right : Nat} (outside : 0 < span.first)
    (proper : left < right) (short : right - left < 16) (fuel : Nat) (after : Contents Int) :
    quickSort span fuel a left right ≠ .ok after := by
  intro returned
  cases fuel with
  | zero => cases returned
  | succ fuel =>
      rw [quickSort_short (by omega) short] at returned
      exact insertSort_accesses outside (by omega) (by omega) fuel after returned

/-- The call for the range before a pivot at the left edge does not return. -/
theorem quickSort_empty {left : Nat} (positive : 0 < left) (small : left < 2 ^ 31) (fuel : Nat) :
    ∀ (a after : Contents Int), quickSort span fuel a left (left - 1) ≠ .ok after := by
  have leftInt : toInt left = left := toInt_eq (by omega) (by omega)
  have rightInt : toInt ((left - 1 : Nat) : Int) = left - 1 := by
    have cast : ((left - 1 : Nat) : Int) = left - 1 := by omega
    rw [cast]
    exact toInt_eq (by omega) (by omega)
  have back : toSize (left - 1) = left - 1 := by
    have size : (toSize (left - 1) : Int) = left - 1 := toSize_eq (by omega) (by omega)
    omega
  have wide : ¬toSize ((left - 1 : Nat) - left) < 16 := by
    have wrapped : (toSize ((left - 1 : Nat) - left) : Int) = (left - 1 : Nat) - left + 2 ^ 64 :=
      toSize_neg (by omega) (by omega)
    omega
  induction fuel with
  | zero =>
      intro a after returned
      cases returned
  | succ fuel induction =>
      intro a after returned
      rw [quickSort, if_neg wide] at returned
      rcases Outcome.bind_eq_ok returned with ⟨⟨divided, div⟩, parted, rest⟩
      rcases Outcome.bind_eq_ok rest with ⟨first, firstRan, _⟩
      rcases Outcome.bind_eq_ok parted with ⟨mid, _, parted⟩
      rcases Outcome.bind_eq_ok parted with ⟨swapped, _, parted⟩
      rcases Outcome.bind_eq_ok parted with ⟨key, _, parted⟩
      rcases Outcome.bind_eq_ok parted with ⟨⟨now, begin⟩, looped, parted⟩
      rcases Outcome.bind_eq_ok parted with ⟨last, _, parted⟩
      have pivot : begin = left := by
        cases fuel with
        | zero => cases looped
        | succ fuel =>
            have pass : crossPass span (fuel + 1) key
                (swapped, toInt left, toInt (left - 1 : Nat)) =
                .ok (.leave (swapped, toInt left)) := by
              rw [crossPass, if_neg (by omega)]
            rw [repeatLoop_leave fuel pass] at looped
            cases looped
            exact leftInt
      have div_eq : div = left := by
        cases parted
        rw [pivot]
        exact toSize_natCast (by omega)
      simp only [div_eq, leftInt, back] at firstRan
      exact induction divided first firstRan

theorem partSort1_inside {left right fuel div : Nat} {after : Contents Int}
    (covers : span.Covers left right) (proper : left ≤ right) (small : right < 2 ^ 31)
    (enough : right - left + 1 < fuel)
    (returned : partSort1 span fuel a left right = .ok (after, div)) :
    left ≤ div ∧ div ≤ right := by
  rcases Outcome.bind_eq_ok returned with ⟨mid, _, parted⟩
  have unfolded := parted
  rcases Outcome.bind_eq_ok unfolded with ⟨swapped, swap, _⟩
  have accessed := (swapAt_eq_ok swap).2.1
  rcases partSort1From_ran (a := a) covers proper accessed small fuel enough with
    ⟨now, begin, ran, crossing⟩
  rw [ran] at parted
  cases parted
  have inside := (crossing.partitioned small).2.inside
  omega

/-- Where the start of the array may not be accessed, no range of two elements or more is
sorted. -/
theorem quickSort_elsewhere (outside : 0 < span.first) (small : span.last < (2 ^ 31 : Int))
    (fuel : Nat) : ∀ (a after : Contents Int) (left right : Nat), span.Covers left right →
      left < right → right - left + 2 < fuel → quickSort span fuel a left right ≠ .ok after := by
  induction fuel with
  | zero =>
      intro a after left right _ _ enough
      omega
  | succ fuel induction =>
      intro a after left right covers proper enough returned
      have first := covers.1
      have last := covers.2
      by_cases short : right - left < 16
      · exact quickSort_short_accesses outside proper short (fuel + 1) after returned
      · rw [quickSort_long (by omega) (by omega) short] at returned
        rcases Outcome.bind_eq_ok returned with ⟨⟨divided, div⟩, parted, rest⟩
        rcases Outcome.bind_eq_ok rest with ⟨sorted, leftRan, rest⟩
        rcases Outcome.bind_eq_ok rest with ⟨next, added, rightRan⟩
        have between := partSort1_inside covers (by omega) (by omega) (by omega) parted
        have divInt : toInt div = div := toInt_eq (by omega) (by omega)
        have leftSize : (toSize (div - 1) : Int) = div - 1 := toSize_eq (by omega) (by omega)
        have sum := (addInt_eq_ok added).1
        simp only [divInt] at leftRan sum
        rw [sum] at rightRan
        have rightSize : (toSize (div + 1) : Int) = div + 1 := toSize_eq (by omega) (by omega)
        rcases Nat.lt_trichotomy div (left + 1) with atEdge | second | further
        · have empty : toSize (div - 1) = left - 1 := by omega
          rw [empty] at leftRan
          exact quickSort_empty (by omega) (by omega) fuel divided sorted leftRan
        · exact induction sorted after (toSize (div + 1)) right ⟨by omega, by omega⟩ (by omega)
            (by omega) rightRan
        · exact induction divided sorted left (toSize (div - 1)) ⟨by omega, by omega⟩ (by omega)
            (by omega) leftRan

/-! ## The contract -/

/-- An array whose entries lead `GetMiddleIndex` to return one of them. -/
def lowAt (right place : Int) : Int := if place = right then -2 else -1

theorem partSort1_lowAt {left right : Nat} (proper : left < right) (isSize : right < 2 ^ 64)
    (fuel : Nat) (result : Contents Int × Nat) :
    partSort1 ⟨left, right⟩ fuel (lowAt right) left right ≠ .ok result := by
  intro returned
  rcases Outcome.bind_eq_ok returned with ⟨mid, found, rest⟩
  rcases Outcome.bind_eq_ok rest with ⟨swapped, swap, _⟩
  have accessed : left ≤ toInt mid := (swapAt_eq_ok swap).2.1.1
  rcases Outcome.bind_eq_ok found with ⟨atMid, midLoaded, found⟩
  rcases Outcome.bind_eq_ok found with ⟨atRight, rightLoaded, found⟩
  rcases Outcome.bind_eq_ok found with ⟨atLeft, leftLoaded, found⟩
  have width : (toSize (right - left) : Int) = right - left := toSize_eq (by omega) (by omega)
  have index : (toSize (left + toSize (right - left) / 2) : Int) =
      left + toSize (right - left) / 2 := toSize_eq (by omega) (by omega)
  have below := toInt_le (Int.natCast_nonneg (toSize (left + toSize (right - left) / 2)))
  have mid_eq : atMid = -1 := (load_eq_ok midLoaded).2.trans (if_neg (by omega))
  have right_eq : atRight = -2 := (load_eq_ok rightLoaded).2.trans (if_pos rfl)
  have left_eq : atLeft = -1 := (load_eq_ok leftLoaded).2.trans (if_neg (by omega))
  subst mid_eq right_eq left_eq
  cases found
  have element : toInt (toSize (-1)) = -1 := rfl
  rw [element] at accessed
  omega

theorem everyCall_of_short {left right : Nat} (ordered : left ≤ right)
    (short : left = right ∨ left = 0 ∧ right < 16) (fuel : Nat) (a : Contents Int) :
    EveryCall span (Manageable span) fuel a left right := by
  cases fuel with
  | zero => trivial
  | succ fuel =>
      have width : toSize (right - left) = right - left := toSize_sub ordered (by omega)
      refine ⟨⟨ordered, fun _ => ?_, fun long => by omega⟩, fun long => by omega⟩
      rcases short with same | ⟨first, _⟩
      · exact Or.inr (Or.inl same)
      · exact Or.inl first

/-- `QuickSort` sorts when all calls are manageable. It sorts every array only for ranges of one
element, and of up to sixteen at the start of the array; elsewhere it sorts none. -/
theorem quickSort_sorts {left right : Nat} (ordered : left ≤ right) (isSize : right < 2 ^ 64) :
    (∀ a, (∃ enough, ∀ fuel, enough ≤ fuel →
        EveryCall ⟨left, right⟩ (Manageable ⟨left, right⟩) fuel a left right) →
      Sorts (fun fuel a => quickSort ⟨left, right⟩ fuel a left right) left right a) ∧
    ((∀ a, Sorts (fun fuel a => quickSort ⟨left, right⟩ fuel a left right) left right a) ↔
      left = right ∨ left = 0 ∧ right < 16) ∧
    (0 < left → right < 2 ^ 31 → ∀ a,
      (Sorts (fun fuel a => quickSort ⟨left, right⟩ fuel a left right) left right a ↔
        left = right)) := by
  have enough : ∀ a, (∃ enough, ∀ fuel, enough ≤ fuel →
        EveryCall ⟨left, right⟩ (Manageable ⟨left, right⟩) fuel a left right) →
      Sorts (fun fuel a => quickSort ⟨left, right⟩ fuel a left right) left right a := by
    rintro a ⟨enough, every⟩
    refine ⟨max enough (right + 21), fun fuel larger => ?_⟩
    exact quickSort_ran fuel ⟨le_refl _, le_refl _⟩ (every fuel (by omega)) (by omega)
  have short : left = right ∨ left = 0 ∧ right < 16 → ∀ a,
      Sorts (fun fuel a => quickSort ⟨left, right⟩ fuel a left right) left right a :=
    fun short a => enough a ⟨0, fun fuel _ => everyCall_of_short ordered short fuel a⟩
  refine ⟨enough, ⟨?_, short⟩, ?_⟩
  · intro sorts
    by_contra long
    rcases sorts (lowAt right) with ⟨enough, sorted⟩
    rcases sorted (enough + 1) (by omega) with ⟨after, returned, _⟩
    by_cases few : right - left < 16
    · have outside : 0 < (⟨left, right⟩ : Span).first := by
        simp only
        omega
      exact quickSort_short_accesses outside (by omega) few _ after returned
    · simp only [quickSort_long ordered isSize few] at returned
      rcases Outcome.bind_eq_ok returned with ⟨divided, parted, _⟩
      exact partSort1_lowAt (by omega) isSize enough divided parted
  · intro positive small a
    constructor
    · rintro ⟨enough, sorted⟩
      by_contra different
      rcases sorted (enough + right + 3) (by omega) with ⟨after, returned, _⟩
      have outside : 0 < (⟨left, right⟩ : Span).first := by
        simp only
        omega
      have high : (⟨left, right⟩ : Span).last < 2 ^ 31 := by
        simp only
        omega
      exact quickSort_elsewhere outside high _ a after left right ⟨le_refl _, le_refl _⟩ (by omega)
        (by omega) returned
    · intro same
      exact short (Or.inl same) a

theorem quickSort_sorts_three :
    Sorts (fun fuel a => quickSort ⟨(0 : Nat), (2 : Nat)⟩ fuel a 0 2) (0 : Nat) (2 : Nat)
        (fun place => -place) ∧
      ¬Sorts (fun fuel a => quickSort ⟨(1 : Nat), (2 : Nat)⟩ fuel a 1 2) (1 : Nat) (2 : Nat) id := by
  have first := quickSort_sorts (show 0 ≤ 2 by decide) (by decide)
  have second := quickSort_sorts (show 1 ≤ 2 by decide) (by decide)
  exact ⟨first.2.1.mpr (by decide) _,
    fun sorts => absurd ((second.2.2 (by decide) (by decide) id).mp sorts) (by decide)⟩

/-- The last two of the entries 3, 2 and 1. -/
theorem quickSort_of_decreasing :
    ¬Sorts (fun fuel a => quickSort ⟨(1 : Nat), (2 : Nat)⟩ fuel a 1 2) (1 : Nat) (2 : Nat)
      (fun place => 3 - place) := by
  rintro ⟨enough, sorts⟩
  rcases sorts enough (le_refl _) with ⟨after, returned, _⟩
  exact quickSort_short_accesses (by decide) (by decide) (by decide) enough after returned

end DataStructAlgorithm.Algorithm.Sort
