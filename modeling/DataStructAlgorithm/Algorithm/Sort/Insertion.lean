import DataStructAlgorithm.Foundation.Ordering
import DataStructAlgorithm.Algorithm.Sort.Sort

/-! # `InsertSort` and `ShellSort`

Every pass of `ShellSort` rearranges the array, and the last one is `InsertSort`. -/

namespace DataStructAlgorithm.Algorithm.Sort

open Foundation

variable {span : Span} {a : Contents Int} {gap : Int}

/-! ## One entry -/

/-- The loop that shifts entries: with the held entry put into the hole, the array is a
rearrangement of the one before, and with a gap of one a sorted start stays in order. -/
structure Shifting (before : Contents Int) (gap : Int) (start : Nat) (tamp : Int)
    (now : Contents Int) (last : Int) : Prop where
  low : -gap ≤ last
  high : last ≤ start
  rearranges : Rearranges 0 (start + gap) before (Function.update now (last + gap) tamp)
  opened : gap = 1 → MonotoneOn before (Set.Icc 0 (start : Int)) →
    Opened 0 (start + 1) now (last + 1) tamp

theorem Shifting.start (a : Contents Int) (positive : 1 ≤ gap) (i : Nat) :
    Shifting a gap i (a (i + gap)) a i := by
  refine ⟨by omega, le_refl _, ?_, ?_⟩
  · rw [Function.update_eq_self]
    exact .refl _ _ a
  · rintro rfl sorted
    constructor
    · intro x y above le below xNe yNe
      exact sorted ⟨above, by omega⟩ ⟨by omega, by omega⟩ le
    · intro y behind below
      omega

theorem Shifting.shift {now : Contents Int} {i : Nat} {last tamp : Int}
    (shifting : Shifting a gap i tamp now last) (positive : 1 ≤ gap) (started : 0 ≤ last)
    (greater : tamp < now last) :
    Shifting a gap i tamp (Function.update now (last + gap) (now last)) (last - gap) := by
  have high := shifting.high
  refine ⟨by omega, by omega, ?_, ?_⟩
  · rw [Int.sub_add_cancel, update_update now (by omega)]
    exact shifting.rearranges.trans
      (.exchange started (by omega) (by omega) (by omega) _)
  · rintro rfl sorted
    have moved := (shifting.opened rfl sorted).move (by omega) (by omega) (by
      rw [Int.add_sub_cancel]
      exact greater)
    rw [Int.add_sub_cancel] at moved
    rw [Int.sub_add_cancel]
    exact moved

theorem insertAt_spec {i : Nat} (covers : span.Covers 0 (i + gap)) (positive : 1 ≤ gap)
    (small : i + gap < 2 ^ 31) (fuel : Nat) (enough : i + 1 < fuel) :
    ∃ after, insertAt span fuel gap a i = .ok after ∧ Rearranges 0 (i + gap) a after ∧
      (gap = 1 → MonotoneOn a (Set.Icc 0 (i : Int)) →
        MonotoneOn after (Set.Icc 0 (i + 1 : Int))) := by
  have index : toInt i = i := toInt_eq (by omega) (by omega)
  have looped : ∃ result : Contents Int × Int,
      repeatLoop (shiftPass span gap (a (i + gap))) fuel (a, (i : Int)) = .ok result ∧
        Shifting a gap i (a (i + gap)) result.1 result.2 ∧
        (0 ≤ result.2 → result.1 result.2 ≤ a (i + gap)) := by
    refine repeatLoop_total
      (fun bound (state : Contents Int × Int) =>
        Shifting a gap i (a (i + gap)) state.1 state.2 ∧ (state.2 + 1).toNat = bound)
      (fun result : Contents Int × Int => Shifting a gap i (a (i + gap)) result.1 result.2 ∧
        (0 ≤ result.2 → result.1 result.2 ≤ a (i + gap))) ?_ fuel (i + 1) (a, (i : Int))
      ⟨.start a positive i, by simp⟩ enough
    rintro bound ⟨now, last⟩ ⟨shifting, rfl⟩
    have high := shifting.high
    simp only at shifting high
    by_cases started : last ≥ 0
    · have loaded := covers.load_eq now last started (by omega)
      simp only [shiftPass, if_pos started, loaded, Outcome.ok_bind]
      by_cases greater : now last > a (i + gap)
      · left
        have target : addInt last gap = .ok (last + gap) := addInt_eq (by omega) (by omega)
        have stored := covers.store_eq now (last + gap) (now last) (by omega) (by omega)
        simp only [if_pos greater, target, Outcome.ok_bind, stored]
        exact ⟨_, _, rfl, by omega, shifting.shift positive started greater, rfl⟩
      · right
        simp only [if_neg greater]
        exact ⟨_, rfl, shifting, fun _ => not_lt.mp greater⟩
    · right
      simp only [shiftPass, if_neg started]
      exact ⟨_, rfl, shifting, fun impossible => absurd impossible started⟩
  rcases looped with ⟨⟨now, last⟩, ran, shifting, stops⟩
  have low := shifting.low
  have high := shifting.high
  simp only at low high stops
  have source : addInt i gap = .ok (i + gap) := addInt_eq (by omega) small
  have target : addInt last gap = .ok (last + gap) := addInt_eq (by omega) (by omega)
  have loaded := covers.load_eq a (i + gap) (by omega) (le_refl _)
  have stored := covers.store_eq now (last + gap) (a (i + gap)) (by omega) (by omega)
  refine ⟨Function.update now (last + gap) (a (i + gap)), ?_, shifting.rearranges, ?_⟩
  · simp only [insertAt, index, source, Outcome.ok_bind, loaded, ran, target, stored]
  · rintro rfl sorted
    refine (shifting.opened rfl sorted).finish fun _ => ?_
    rw [Int.add_sub_cancel]
    exact stops (by omega)

/-! ## One pass -/

/-- A pass with a gap rearranges the array, and with a gap of one it sorts. -/
theorem gapLoop_spec {sz : Nat} (gap : Int) (covers : span.Covers 0 (sz - 1)) (positive : 1 ≤ gap)
    (fits : gap ≤ sz) (small : sz < 2 ^ 31) (fuel : Nat) (enough : sz + 1 < fuel) :
    ∃ after, repeatLoop (gapPass span fuel sz gap) fuel (a, 0) = .ok after ∧
      Rearranges 0 (sz - 1) a after ∧
      (gap = 1 → MonotoneOn after (Set.Icc 0 (sz - 1 : Int))) := by
  have limit : (toSize (sz - gap) : Int) = sz - gap := toSize_eq (by omega) (by omega)
  refine repeatLoop_total
    (fun bound (state : Contents Int × Nat) => state.2 ≤ (sz : Int) - gap ∧ sz - state.2 = bound ∧
      Rearranges 0 (sz - 1) a state.1 ∧
      (gap = 1 → MonotoneOn state.1 (Set.Icc 0 (state.2 : Int))))
    (fun after => Rearranges 0 (sz - 1) a after ∧
      (gap = 1 → MonotoneOn after (Set.Icc 0 (sz - 1 : Int)))) ?_ fuel sz (a, 0)
    ⟨by simp only [Nat.cast_zero]; omega, rfl, .refl _ _ a,
      fun _ => monotoneOn_single a (le_refl _)⟩ (by omega)
  rintro bound ⟨now, i⟩ ⟨within, rfl, rearranges, sorted⟩
  simp only at within rearranges sorted
  by_cases more : i < toSize (sz - gap)
  · left
    have inner : span.Covers 0 (i + gap) := ⟨covers.1, by
      have := covers.2
      omega⟩
    rcases insertAt_spec (a := now) inner positive (by omega) fuel (by omega) with
      ⟨after, ran, moved, kept⟩
    simp only [gapPass, if_pos more, ran, Outcome.ok_bind]
    refine ⟨_, sz - (i + 1), rfl, by omega, by push_cast; omega, rfl,
      rearranges.trans (moved.mono (le_refl _) (by omega)), ?_⟩
    rintro rfl
    exact kept rfl (sorted rfl)
  · right
    simp only [gapPass, if_neg more]
    refine ⟨now, rfl, rearranges, ?_⟩
    rintro rfl
    have last : (i : Int) = sz - 1 := by omega
    rw [← last]
    exact sorted rfl

theorem insertSort_spec {sz : Nat} (covers : span.Covers 0 (sz - 1)) (positive : 1 ≤ sz)
    (small : sz < 2 ^ 31) (fuel : Nat) (enough : sz + 1 < fuel) :
    ∃ after, insertSort span fuel a sz = .ok after ∧ SortedFrom 0 (sz - 1) a after := by
  rcases gapLoop_spec (a := a) 1 covers (le_refl 1) (by omega) small fuel enough with
    ⟨after, ran, rearranges, sorted⟩
  exact ⟨after, ran, rearranges, sorted rfl⟩

/-! ## All passes -/

theorem shellSort_spec {sz : Nat} (covers : span.Covers 0 (sz - 1)) (positive : 1 ≤ sz)
    (small : sz < 2 ^ 31) (fuel : Nat) (enough : sz + 1 < fuel) :
    ∃ after, shellSort span fuel a sz = .ok after ∧ SortedFrom 0 (sz - 1) a after := by
  have start : toInt sz = sz := toInt_eq (by omega) (by omega)
  rw [shellSort, start]
  refine repeatLoop_total
    (fun bound (state : Contents Int × Int) => 1 ≤ state.2 ∧ state.2 ≤ sz ∧
      state.2.toNat = bound ∧ Rearranges 0 (sz - 1) a state.1 ∧
      (state.2 = 1 → MonotoneOn state.1 (Set.Icc 0 (sz - 1 : Int))))
    (fun after => SortedFrom 0 (sz - 1) a after) ?_ fuel sz (a, (sz : Int))
    ⟨by simp only; omega, le_refl _, by simp, .refl _ _ a, ?_⟩ (by omega)
  · rintro bound ⟨now, gap⟩ ⟨low, high, rfl, rearranges, sorted⟩
    simp only at low high rearranges sorted
    by_cases wide : gap > 1
    · left
      have third : gap.tdiv 3 = gap / 3 := Int.tdiv_eq_ediv_of_nonneg (by omega)
      rcases gapLoop_spec (a := now) (gap / 3 + 1) covers (by omega) (by omega) small fuel
        enough with ⟨after, ran, moved, ordered⟩
      simp only [shellPass, if_pos wide, third, ran, Outcome.ok_bind]
      exact ⟨_, (gap / 3 + 1).toNat, rfl, by omega, by simp only; omega, by simp only; omega, rfl,
        rearranges.trans moved, ordered⟩
    · right
      simp only [shellPass, if_neg wide]
      exact ⟨now, rfl, rearranges, sorted (by omega)⟩
  · intro single
    exact monotoneOn_single a (by
      simp only at single
      omega)

/-- Both functions stay inside the array, and leave the same array: the sorted one. -/
theorem shellSort_eq_insertSort (a : Contents Int) (sz : Nat) (positive : 1 ≤ sz)
    (small : sz < 2 ^ 31) :
    ∃ after enough, SortedFrom 0 (sz - 1) a after ∧ ∀ fuel, enough ≤ fuel →
      shellSort (.ofLength sz) fuel a sz = .ok after ∧
        insertSort (.ofLength sz) fuel a sz = .ok after := by
  have covers : (Span.ofLength sz).Covers 0 (sz - 1) := ⟨le_refl _, le_refl _⟩
  rcases insertSort_spec (a := a) covers positive small (sz + 2) (by omega) with
    ⟨after, _, sorted⟩
  refine ⟨after, sz + 2, sorted, ?_⟩
  intro fuel enough
  rcases shellSort_spec (a := a) covers positive small fuel (by omega) with
    ⟨shell, shellRan, shellSorted⟩
  rcases insertSort_spec (a := a) covers positive small fuel (by omega) with
    ⟨insert, insertRan, insertSorted⟩
  rw [shellRan, insertRan, shellSorted.unique sorted, insertSorted.unique sorted]
  exact ⟨rfl, rfl⟩

theorem shellSort_eq_insertSort_three :
    ∃ after enough, SortedFrom 0 ((3 : Nat) - 1) (fun place => -place) after ∧
      ∀ fuel, enough ≤ fuel →
        shellSort (.ofLength 3) fuel (fun place => -place) 3 = .ok after ∧
          insertSort (.ofLength 3) fuel (fun place => -place) 3 = .ok after :=
  shellSort_eq_insertSort (fun place => -place) 3 (by decide) (by decide)

end DataStructAlgorithm.Algorithm.Sort
