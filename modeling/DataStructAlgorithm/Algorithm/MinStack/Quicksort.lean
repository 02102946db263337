import DataStructAlgorithm.Foundation.Ordering

/-! # `quicksort` of the namespace `fun` in `Algorithm/MinStack/MinStack.hpp`

The indices are of type `int`. They stay between `begin` and `end`, so that no sum leaves the
range of `int`. `last` is the variable `end` of the source. -/

namespace DataStructAlgorithm.Algorithm.MinStack

open Foundation

/-- One pass of `while (i < j)`. -/
def splitPass (span : Span) (begin : Int) (state : Contents Int × Int × Int) :
    Outcome (Pass (Contents Int × Int × Int) (Contents Int × Int × Int)) :=
  match state with
  | (array, i, j) =>
      if i < j then do
        let entry ← load span array i
        let key ← load span array begin
        if entry > key then do
          let array ← swapAt span array i j
          pure (.again (array, i, j - 1))
        else pure (.again (array, i + 1, j))
      else .ok (.leave (array, i, j))

/-- `quicksort`. The fuel also bounds the depth of the recursion. -/
def quicksort (span : Span) : (fuel : Nat) → (array : Contents Int) → (maxlen begin last : Int) →
    Outcome (Contents Int)
  | 0, _, _, _, _ => .error .outOfFuel
  | fuel + 1, array, maxlen, begin, last =>
      if begin < last then do
        let (array, i, j) ← repeatLoop (splitPass span begin) fuel (array, begin + 1, last)
        let entry ← load span array i
        let key ← load span array begin
        let i := if entry ≥ key then i - 1 else i
        let array ← swapAt span array begin i
        let array ← quicksort span fuel array maxlen begin i
        quicksort span fuel array maxlen j last
      else .ok array

variable {span : Span}

/-! ## Splitting -/

/-- What the loop has compared is on its side of the key. The last entry stays until the upper
index moves. -/
structure Splitting (before : Contents Int) (begin last : Int) (now : Contents Int) (i j : Int) :
    Prop where
  indices : begin < i ∧ i ≤ j ∧ j ≤ last
  rearranges : Rearranges begin last before now
  key : now begin = before begin
  lower : ∀ place, begin ≤ place → place < i → now place ≤ before begin
  upper : ∀ place, j < place → place ≤ last → before begin ≤ now place
  untouched : j = last → now last = before last

theorem Splitting.pass {before now : Contents Int} {begin last i j : Int}
    (covers : span.Covers begin last) (splitting : Splitting before begin last now i j)
    (more : i < j) :
    ∃ next nextI nextJ, splitPass span begin (now, i, j) = .ok (.again (next, nextI, nextJ)) ∧
      nextJ - nextI < j - i ∧ Splitting before begin last next nextI nextJ := by
  rcases splitting.indices with ⟨above, _, below⟩
  have entryLoaded := covers.load_eq now i (by omega) (by omega)
  have keyLoaded := covers.load_eq now begin (le_refl _) (by omega)
  by_cases greater : now i > now begin
  · have swapped := covers.swapAt_eq now i j (by omega) (by omega) (by omega) below
    refine ⟨exchangeAt now i j, i, j - 1, ?_, by omega, ⟨above, by omega, by omega⟩,
      splitting.rearranges.trans (.exchange (by omega) (by omega) (by omega) below _),
      ?_, ?_, ?_, ?_⟩
    · simp only [splitPass, if_pos more, entryLoaded, keyLoaded, Outcome.ok_bind, if_pos greater,
        swapped]
      rfl
    · rw [exchangeAt_of_ne (by omega) (by omega)]
      exact splitting.key
    · intro place placeAbove placeBelow
      rw [exchangeAt_of_ne (by omega) (by omega)]
      exact splitting.lower place placeAbove placeBelow
    · intro place placeAbove placeBelow
      rcases eq_or_lt_of_le (show j ≤ place by omega) with rfl | behind
      · rw [exchangeAt_right, ← splitting.key]
        exact le_of_lt greater
      · rw [exchangeAt_of_ne (by omega) (by omega)]
        exact splitting.upper place behind placeBelow
    · intro atLast
      omega
  · refine ⟨now, i + 1, j, ?_, by omega, ⟨by omega, by omega, below⟩, splitting.rearranges,
      splitting.key, ?_, splitting.upper, splitting.untouched⟩
    · simp only [splitPass, if_pos more, entryLoaded, keyLoaded, Outcome.ok_bind, if_neg greater]
      rfl
    · intro place placeAbove placeBelow
      rcases eq_or_lt_of_le (show place ≤ i by omega) with rfl | before
      · rw [← splitting.key]
        exact not_lt.mp greater
      · exact splitting.lower place placeAbove before

theorem split_spec (array : Contents Int) {begin last : Int} (covers : span.Covers begin last)
    (proper : begin < last) (fuel : Nat) (enough : (last - begin).toNat < fuel) :
    ∃ now middle, repeatLoop (splitPass span begin) fuel (array, begin + 1, last) =
        .ok (now, middle, middle) ∧
      Splitting array begin last now middle middle := by
  have start : Splitting array begin last array (begin + 1) last := by
    refine ⟨⟨by omega, by omega, le_refl _⟩, .refl _ _ array, rfl, ?_, ?_, fun _ => rfl⟩
    · intro place above below
      have same : place = begin := by omega
      rw [same]
    · intro place above below
      omega
  have looped : ∃ result : Contents Int × Int × Int,
      repeatLoop (splitPass span begin) fuel (array, begin + 1, last) = .ok result ∧
        result.2.1 = result.2.2 ∧
        Splitting array begin last result.1 result.2.1 result.2.2 := by
    refine repeatLoop_total
      (fun bound (state : Contents Int × Int × Int) => (state.2.2 - state.2.1).toNat = bound ∧
        Splitting array begin last state.1 state.2.1 state.2.2)
      (fun result : Contents Int × Int × Int => result.2.1 = result.2.2 ∧
        Splitting array begin last result.1 result.2.1 result.2.2) ?_ fuel
      (last - (begin + 1)).toNat (array, begin + 1, last) ⟨rfl, start⟩ (by omega)
    rintro bound ⟨now, i, j⟩ ⟨rfl, splitting⟩
    simp only at splitting
    by_cases more : i < j
    · rcases splitting.pass covers more with ⟨next, nextI, nextJ, pass, shorter, kept⟩
      exact Or.inl ⟨_, (nextJ - nextI).toNat, pass, by simp only; omega, rfl, kept⟩
    · have indices := splitting.indices
      exact Or.inr ⟨(now, i, j), if_neg more, by simp only; omega, splitting⟩
  rcases looped with ⟨⟨now, i, j⟩, ran, met, splitting⟩
  simp only at met splitting
  subst met
  exact ⟨now, i, ran, splitting⟩

/-- The array for the two recursive calls, which sort up to `i` and from `middle` on. -/
structure Split (before : Contents Int) (begin last : Int) (after : Contents Int)
    (i middle : Int) : Prop where
  indices : begin ≤ i ∧ begin < middle ∧ middle ≤ i + 1 ∧ i ≤ middle ∧ middle ≤ last
  rearranges : Rearranges begin last before after
  lower : ∀ place, begin ≤ place → place ≤ i → after place ≤ before begin
  upper : ∀ place, middle ≤ place → place ≤ last → before begin ≤ after place
  repeated : i = last → before last < before begin ∧ after begin ≤ after last

theorem Splitting.split {before now : Contents Int} {begin last middle : Int}
    (splitting : Splitting before begin last now middle middle) :
    Split before begin last
      (exchangeAt now begin (if now middle ≥ now begin then middle - 1 else middle))
      (if now middle ≥ now begin then middle - 1 else middle) middle := by
  rcases splitting.indices with ⟨above, _, below⟩
  by_cases greater : now middle ≥ now begin
  · rw [if_pos greater]
    refine ⟨by omega, splitting.rearranges.trans (.exchange (by omega) (by omega) (by omega)
      (by omega) _), ?_, ?_, fun atLast => by omega⟩
    · refine (Rearranges.exchange (le_refl begin) (by omega) (by omega) (le_refl _)
        now).forall_inside (fun entry => entry ≤ before begin) ?_
      intro place placeAbove placeBelow
      exact splitting.lower place placeAbove (by omega)
    · intro place placeAbove placeBelow
      rw [exchangeAt_of_ne (by omega) (by omega)]
      rcases eq_or_lt_of_le placeAbove with rfl | behind
      · rw [← splitting.key]
        exact greater
      · exact splitting.upper place behind placeBelow
  · rw [if_neg greater]
    have less : now middle < before begin := by
      rw [← splitting.key]
      exact not_le.mp greater
    refine ⟨by omega, splitting.rearranges.trans (.exchange (by omega) (by omega) (by omega)
      below _), ?_, ?_, ?_⟩
    · refine (Rearranges.exchange (le_refl begin) (by omega) (by omega) (le_refl _)
        now).forall_inside (fun entry => entry ≤ before begin) ?_
      intro place placeAbove placeBelow
      rcases eq_or_lt_of_le placeBelow with rfl | earlier
      · exact le_of_lt less
      · exact splitting.lower place placeAbove earlier
    · intro place placeAbove placeBelow
      rcases eq_or_lt_of_le placeAbove with rfl | behind
      · rw [exchangeAt_right, splitting.key]
      · rw [exchangeAt_of_ne (by omega) (by omega)]
        exact splitting.upper place behind placeBelow
    · rintro rfl
      rw [exchangeAt_left, exchangeAt_right]
      refine ⟨?_, le_of_lt (not_le.mp greater)⟩
      rw [← splitting.untouched rfl]
      exact less

/-! ## The recursion -/

/-- What decreases in the recursive calls: the first call may be for the same range, but then its
last entry is no longer less than its first one. -/
def effort (array : Contents Int) (begin last : Int) : Nat :=
  2 * (last - begin).toNat + if array last < array begin then 1 else 0

theorem effort_le (array : Contents Int) (begin last : Int) :
    effort array begin last ≤ 2 * (last - begin).toNat + 1 := by
  rw [effort]
  split <;> omega

theorem Split.first_less {before after : Contents Int} {begin last i middle : Int}
    (split : Split before begin last after i middle) :
    effort after begin i < effort before begin last := by
  have indices := split.indices
  by_cases same : i = last
  · rcases split.repeated same with ⟨less, ordered⟩
    rw [same, effort, effort, if_pos less, if_neg (not_lt.mpr ordered)]
    omega
  · have atMost := effort_le after begin i
    rw [effort] at atMost ⊢
    have width : 2 * (i - begin).toNat + 1 < 2 * (last - begin).toNat := by omega
    have total : 2 * (last - begin).toNat ≤ effort before begin last := Nat.le_add_right _ _
    omega

theorem Split.second_less {before after sorted : Contents Int} {begin last i middle : Int}
    (split : Split before begin last after i middle) :
    effort sorted middle last < effort before begin last := by
  have indices := split.indices
  have atMost := effort_le sorted middle last
  have total : 2 * (last - begin).toNat ≤ effort before begin last := Nat.le_add_right _ _
  omega

theorem quicksort_spec (maxlen : Int) (fuel : Nat) : ∀ (array : Contents Int) (begin last : Int),
    span.Covers begin last → effort array begin last + 1 < fuel →
      ∃ after, quicksort span fuel array maxlen begin last = .ok after ∧
        SortedFrom begin last array after := by
  induction fuel with
  | zero =>
      intro array begin last _ enough
      omega
  | succ fuel induction =>
      intro array begin last covers enough
      by_cases proper : begin < last
      · have total : 2 * (last - begin).toNat ≤ effort array begin last := Nat.le_add_right _ _
        rcases split_spec array covers proper fuel (by omega) with
          ⟨now, middle, ran, splitting⟩
        rcases splitting.indices with ⟨above, _, below⟩
        have entryLoaded := covers.load_eq now middle (by omega) below
        have keyLoaded := covers.load_eq now begin (le_refl _) (by omega)
        have split := splitting.split
        generalize found : (if now middle ≥ now begin then middle - 1 else middle) = i at split
        have indices := split.indices
        have swapped := covers.swapAt_eq now begin i (le_refl _) (by omega) indices.1 (by omega)
        have firstLess := split.first_less
        have firstCovers : span.Covers begin i := ⟨covers.1, Int.le_trans (by omega) covers.2⟩
        rcases induction (exchangeAt now begin i) begin i firstCovers (by omega) with
          ⟨first, firstRan, firstSorted⟩
        have secondLess : effort first middle last < effort array begin last := split.second_less
        have secondCovers : span.Covers middle last := ⟨Int.le_trans covers.1 (by omega), covers.2⟩
        rcases induction first middle last secondCovers (by omega) with
          ⟨second, secondRan, secondSorted⟩
        have sorted := firstSorted.join secondSorted (by omega) indices.2.2.1 (by omega)
          split.lower split.upper
        refine ⟨second, ?_, split.rearranges.trans sorted.rearranges, sorted.monotone⟩
        simp only [quicksort, if_pos proper, ran, entryLoaded, keyLoaded, Outcome.ok_bind, found,
          swapped, firstRan]
        exact secondRan
      · refine ⟨array, if_neg proper, .refl _ _ array, monotoneOn_single array (by omega)⟩

/-- The function sorts every range of every array, without accessing anything outside the
range. -/
theorem quicksort_sorts (array : Contents Int) (maxlen : Int) {begin last : Int}
    (covers : span.Covers begin last) :
    Sorts (fun fuel array => quicksort span fuel array maxlen begin last) begin last array :=
  ⟨effort array begin last + 2, fun fuel enough =>
    quicksort_spec maxlen fuel array begin last covers (by omega)⟩

theorem quicksort_sorts_three :
    Sorts (fun fuel array => quicksort (.ofLength 3) fuel array 3 1 2) 1 2 fun place => -place :=
  quicksort_sorts (fun place => -place) 3 (Span.ofLength_covers (by decide) (by decide))

end DataStructAlgorithm.Algorithm.MinStack
