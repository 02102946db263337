import DataStructAlgorithm.Foundation.Ordering
import DataStructAlgorithm.Algorithm.Sort.Sort

/-! # `SelectSort`

A round finds the greatest and the least entry of the window and takes them to its ends. -/

namespace DataStructAlgorithm.Algorithm.Sort

open Foundation

variable {span : Span} {a : Contents Int} {left right : Nat}

/-- The indices of a greatest and of a least entry of the window. -/
structure Extremes (a : Contents Int) (left right max min : Nat) : Prop where
  maxInside : left ≤ max ∧ max ≤ right
  minInside : left ≤ min ∧ min ≤ right
  greatest : ∀ place : Int, left ≤ place → place ≤ right → a place ≤ a max
  least : ∀ place : Int, left ≤ place → place ≤ right → a min ≤ a place

/-- The loop has looked at the entries before `i`; the first one counts as seen. -/
structure Scanned (a : Contents Int) (left right i max min : Nat) : Prop where
  index : left ≤ i ∧ i ≤ right + 1
  maxInside : left ≤ max ∧ max ≤ right
  minInside : left ≤ min ∧ min ≤ right
  greatest : ∀ place : Int, left ≤ place → place < i → a place ≤ a max
  least : ∀ place : Int, left ≤ place → place < i → a min ≤ a place

theorem Scanned.next {i max min : Nat} (scanned : Scanned a left right i max min)
    (more : i ≤ right) :
    Scanned a left right (i + 1) (if a max < a i then i else max)
      (if a min > a i then i else min) := by
  have started := scanned.index.1
  refine ⟨by omega, ?_, ?_, ?_, ?_⟩
  · split
    · exact ⟨started, more⟩
    · exact scanned.maxInside
  · split
    · exact ⟨started, more⟩
    · exact scanned.minInside
  · intro place above seen
    rcases eq_or_lt_of_le (show place ≤ i by omega) with rfl | before
    · split
      next => exact le_refl _
      next notGreater => exact not_lt.mp notGreater
    · have known := scanned.greatest place above before
      split
      next greater => exact known.trans (le_of_lt greater)
      next => exact known
  · intro place above seen
    rcases eq_or_lt_of_le (show place ≤ i by omega) with rfl | before
    · split
      next => exact le_refl _
      next notLess => exact not_lt.mp notLess
    · have known := scanned.least place above before
      split
      next less => exact (le_of_lt less).trans known
      next => exact known

theorem extremes_spec (covers : span.Covers left right) (nonempty : left ≤ right) (fuel : Nat)
    (enough : right + 1 - left < fuel) :
    ∃ max min, repeatLoop (extremesPass span a right) fuel (left, left, left) = .ok (max, min) ∧
      Extremes a left right max min := by
  have looped : ∃ result : Nat × Nat,
      repeatLoop (extremesPass span a right) fuel (left, left, left) = .ok result ∧
        Extremes a left right result.1 result.2 := by
    refine repeatLoop_total
      (fun bound (state : Nat × Nat × Nat) => right + 1 - state.1 = bound ∧
        Scanned a left right state.1 state.2.1 state.2.2)
      (fun result : Nat × Nat => Extremes a left right result.1 result.2) ?_ fuel
      (right + 1 - left) (left, left, left)
      ⟨rfl, ⟨le_refl _, by omega⟩, ⟨le_refl _, nonempty⟩, ⟨le_refl _, nonempty⟩,
        fun _ above before => absurd before (not_lt.mpr above),
        fun _ above before => absurd before (not_lt.mpr above)⟩ enough
    rintro bound ⟨i, max, min⟩ ⟨rfl, scanned⟩
    simp only at scanned
    have index := scanned.index
    have maxInside := scanned.maxInside
    have minInside := scanned.minInside
    by_cases more : i ≤ right
    · left
      have maxLoaded := covers.load_eq a max (Int.ofNat_le.mpr maxInside.1)
        (Int.ofNat_le.mpr maxInside.2)
      have minLoaded := covers.load_eq a min (Int.ofNat_le.mpr minInside.1)
        (Int.ofNat_le.mpr minInside.2)
      have loaded := covers.load_eq a i (Int.ofNat_le.mpr index.1) (Int.ofNat_le.mpr more)
      simp only [extremesPass, if_pos more, maxLoaded, minLoaded, loaded, Outcome.ok_bind]
      exact ⟨_, _, rfl, by omega, rfl, scanned.next more⟩
    · right
      simp only [extremesPass, if_neg more]
      exact ⟨_, rfl, maxInside, minInside,
        fun place above below => scanned.greatest place above (by omega),
        fun place above below => scanned.least place above (by omega)⟩
  rcases looped with ⟨⟨max, min⟩, ran, extremes⟩
  exact ⟨max, min, ran, extremes⟩

/-- The array after both swaps of a round. -/
def settled (a : Contents Int) (left right max min : Nat) : Contents Int :=
  exchangeAt (exchangeAt a min left) (if max = left then min else max : Nat) right

/-- Wherever the first swap has taken the greatest entry, the second swap finds it. -/
theorem settled_right {max min : Nat} (extremes : Extremes a left right max min)
    (proper : left < right) : settled a left right max min right = a max := by
  rw [settled, exchangeAt_right]
  by_cases atLeft : max = left
  · rw [if_pos atLeft, atLeft, exchangeAt_left]
  · rw [if_neg atLeft]
    by_cases same : max = min
    · -- then all entries are equal
      subst same
      rw [exchangeAt_left]
      have atMost := extremes.greatest left (le_refl _) (by omega)
      have atLeast := extremes.least left (le_refl _) (by omega)
      exact le_antisymm atMost atLeast
    · exact exchangeAt_of_ne (by omega) (by omega)

theorem settled_left {max min : Nat} (extremes : Extremes a left right max min)
    (proper : left < right) : settled a left right max min left = a min := by
  have apart : (left : Int) ≠ right := by omega
  rw [settled]
  by_cases atLeft : max = left
  · rw [if_pos atLeft]
    by_cases same : min = left
    · -- then all entries are equal
      subst atLeft
      rw [same, exchangeAt_self, exchangeAt_left]
      have atMost := extremes.greatest right (by omega) (le_refl _)
      have atLeast := extremes.least right (by omega) (le_refl _)
      rw [same] at atLeast
      exact le_antisymm atMost atLeast
    · rw [exchangeAt_of_ne (by omega) apart, exchangeAt_right]
  · rw [if_neg atLeft, exchangeAt_of_ne (by omega) apart, exchangeAt_right]

theorem settled_rearranges {max min : Nat} (extremes : Extremes a left right max min)
    (proper : left < right) : Rearranges left right a (settled a left right max min) := by
  have maxInside := extremes.maxInside
  have minInside := extremes.minInside
  refine (Rearranges.exchange ?_ ?_ ?_ ?_ a).trans (.exchange ?_ ?_ ?_ ?_ _)
  · omega
  · omega
  · omega
  · omega
  · split <;> omega
  · split <;> omega
  · omega
  · omega

/-- One round. -/
theorem selectPass_again (covers : span.Covers left right) (proper : left < right) (fuel : Nat)
    (enough : right + 1 - left < fuel) :
    ∃ after, selectPass span fuel (a, left, right) = .ok (.again (after, left + 1, right - 1)) ∧
      Rearranges left right a after ∧
      (∀ place : Int, left ≤ place → place ≤ right → after left ≤ after place) ∧
      ∀ place : Int, left ≤ place → place ≤ right → after place ≤ after right := by
  rcases extremes_spec (a := a) covers (le_of_lt proper) fuel enough with
    ⟨max, min, found, extremes⟩
  have maxInside := extremes.maxInside
  have minInside := extremes.minInside
  have rearranges := settled_rearranges extremes proper
  have firstSwap := covers.swapAt_eq a min left (by omega) (by omega)
    (by omega) (by omega)
  have secondSwap := covers.swapAt_eq (exchangeAt a min left)
    (if max = left then min else max : Nat) right
    (by split <;> omega) (by split <;> omega) (by omega) (by omega)
  refine ⟨settled a left right max min, ?_, rearranges, ?_, ?_⟩
  · simp only [selectPass, if_pos proper, found, firstSwap, secondSwap, Outcome.ok_bind]
    rfl
  · rw [settled_left extremes proper]
    exact rearranges.forall_inside (fun entry => a min ≤ entry) extremes.least
  · rw [settled_right extremes proper]
    exact rearranges.forall_inside (fun entry => entry ≤ a max) extremes.greatest

/-- `SelectSort` sorts every array. -/
theorem selectSort_sorts (a : Contents Int) (sz : Nat) (positive : 1 ≤ sz) (isSize : sz < 2 ^ 64) :
    Sorts (fun fuel a => selectSort (.ofLength sz) fuel a sz) 0 (sz - 1) a := by
  refine ⟨sz + 2, fun fuel enough => ?_⟩
  have start : (toSize (sz - 1) : Int) = sz - 1 := toSize_eq (by omega) (by omega)
  have covers : (Span.ofLength sz).Covers 0 (sz - 1) := ⟨le_refl _, le_refl _⟩
  refine repeatLoop_total
    (fun bound (state : Contents Int × Nat × Nat) => state.2.2 = bound ∧
      (state.2.2 : Int) ≤ sz - 1 ∧ Rearranges 0 (sz - 1) a state.1 ∧
      Pending 0 (sz - 1) state.1 (unsorted state.2.1 state.2.2))
    (fun after => SortedFrom 0 (sz - 1) a after) ?_ fuel (toSize (sz - 1)) (a, 0, toSize (sz - 1))
    ⟨rfl, le_of_eq start, .refl _ _ a, ?_⟩ (by omega)
  · rintro bound ⟨now, left, right⟩ ⟨rfl, high, rearranges, pending⟩
    simp only at high rearranges pending
    by_cases proper : left < right
    · left
      have inner : (Span.ofLength sz).Covers left right := ⟨Int.natCast_nonneg left, high⟩
      rcases selectPass_again (a := now) inner proper fuel (by omega) with
        ⟨after, pass, moved, least, greatest⟩
      rw [unsorted, if_pos (by omega)] at pending
      have shrunk := pending.shrink moved least greatest
      rw [List.append_nil] at shrunk
      have lower : ((right - 1 : Nat) : Int) = right - 1 := by omega
      rw [← lower] at shrunk
      have less : right - 1 < right := by omega
      have lowerHigh : ((right - 1 : Nat) : Int) ≤ sz - 1 := by omega
      exact ⟨_, right - 1, pass, less, rfl, lowerHigh,
        rearranges.trans (moved.mono (Int.natCast_nonneg left) high), shrunk⟩
    · right
      rw [unsorted, if_neg (by omega)] at pending
      exact ⟨now, if_neg proper, rearranges, pending.monotone⟩
  · rw [start]
    exact .whole _ _ a

theorem selectSort_sorts_three :
    Sorts (fun fuel a => selectSort (.ofLength 3) fuel a 3) 0 ((3 : Nat) - 1)
      (fun place => -place) :=
  selectSort_sorts (fun place => -place) 3 (by decide) (by decide)

end DataStructAlgorithm.Algorithm.Sort
