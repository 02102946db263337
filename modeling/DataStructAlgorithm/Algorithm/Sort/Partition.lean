import DataStructAlgorithm.Foundation.Ordering
import DataStructAlgorithm.Algorithm.Sort.Sort

/-! # `PartSort1` and `PartSort3`

Both are described from the index of the pivot on, whatever index that is. -/

namespace DataStructAlgorithm.Algorithm.Sort

open Foundation

variable {span : Span} {a : Contents Int}

/-- With enough fuel the code returns an array whose entries from `left` to `right` are
rearranged around the index it returns. -/
def Partitions (code : (fuel : Nat) → Contents Int → Outcome (Contents Int × Nat))
    (left right : Nat) (a : Contents Int) : Prop :=
  ∃ enough, ∀ fuel, enough ≤ fuel → ∃ after pivot, code fuel a = .ok (after, pivot) ∧
    Rearranges left right a after ∧ Partitioned left right after pivot

theorem Partitions.congr {code other : (fuel : Nat) → Contents Int → Outcome (Contents Int × Nat)}
    {left right : Nat} (same : ∀ fuel, code fuel a = other fuel a) :
    Partitions code left right a ↔ Partitions other left right a := by
  rw [Partitions, Partitions]
  simp only [same]

/-! ## Moving one index -/

theorem rise_spec (test : Int → Bool) (a : Contents Int) {start limit : Int}
    (covers : span.Covers start limit) (ordered : start ≤ limit) (fuel : Nat)
    (enough : (limit - start).toNat < fuel) :
    ∃ stop, repeatLoop (risePass span test a limit) fuel start = .ok stop ∧ start ≤ stop ∧
      stop ≤ limit ∧ (∀ place, start ≤ place → place < stop → test (a place) = true) ∧
      (stop < limit → test (a stop) = false) := by
  refine repeatLoop_total
    (fun bound (index : Int) => (limit - index).toNat = bound ∧ start ≤ index ∧ index ≤ limit ∧
      ∀ place, start ≤ place → place < index → test (a place) = true)
    (fun stop => start ≤ stop ∧ stop ≤ limit ∧
      (∀ place, start ≤ place → place < stop → test (a place) = true) ∧
      (stop < limit → test (a stop) = false)) ?_ fuel _ start
    ⟨rfl, le_refl _, ordered, fun _ above below => absurd above (not_le.mpr below)⟩ enough
  rintro bound index ⟨rfl, above, below, passed⟩
  by_cases more : index < limit
  · rw [risePass, if_pos more, covers.load_eq a index above below, Outcome.ok_bind]
    cases tested : test (a index) with
    | true =>
        left
        refine ⟨index + 1, _, rfl, by omega, rfl, by omega, by omega, ?_⟩
        intro place placeAbove placeBelow
        rcases eq_or_lt_of_le (show place ≤ index by omega) with rfl | before
        · exact tested
        · exact passed place placeAbove before
    | false => exact Or.inr ⟨index, rfl, above, below, passed, fun _ => tested⟩
  · right
    exact ⟨index, if_neg more, above, below, passed, fun impossible => absurd impossible more⟩

theorem fall_spec (test : Int → Bool) (a : Contents Int) {start limit : Int}
    (covers : span.Covers limit start) (ordered : limit ≤ start) (fuel : Nat)
    (enough : (start - limit).toNat < fuel) :
    ∃ stop, repeatLoop (fallPass span test a limit) fuel start = .ok stop ∧ limit ≤ stop ∧
      stop ≤ start ∧ (∀ place, stop < place → place ≤ start → test (a place) = true) ∧
      (limit < stop → test (a stop) = false) := by
  refine repeatLoop_total
    (fun bound (index : Int) => (index - limit).toNat = bound ∧ limit ≤ index ∧ index ≤ start ∧
      ∀ place, index < place → place ≤ start → test (a place) = true)
    (fun stop => limit ≤ stop ∧ stop ≤ start ∧
      (∀ place, stop < place → place ≤ start → test (a place) = true) ∧
      (limit < stop → test (a stop) = false)) ?_ fuel _ start
    ⟨rfl, ordered, le_refl _, fun _ above below => absurd below (not_le.mpr above)⟩ enough
  rintro bound index ⟨rfl, above, below, passed⟩
  by_cases more : limit < index
  · rw [fallPass, if_pos more, covers.load_eq a index above below, Outcome.ok_bind]
    cases tested : test (a index) with
    | true =>
        left
        refine ⟨index - 1, _, rfl, by omega, rfl, by omega, by omega, ?_⟩
        intro place placeAbove placeBelow
        rcases eq_or_lt_of_le (show index ≤ place by omega) with rfl | behind
        · exact tested
        · exact passed place behind placeBelow
    | false => exact Or.inr ⟨index, rfl, above, below, passed, fun _ => tested⟩
  · right
    exact ⟨index, if_neg more, above, below, passed, fun impossible => absurd impossible more⟩

/-! ## Two indices that meet -/

/-- The loop of `PartSort1`: what it has passed is on the right side of the key, and so is the
entry at the upper index. -/
structure Crossing (before : Contents Int) (left right : Nat) (key : Int) (now : Contents Int)
    (begin last : Int) : Prop where
  indices : left ≤ begin ∧ begin ≤ last ∧ last ≤ right
  rearranges : Rearranges left right before now
  pivot : now right = key
  lower : ∀ place : Int, left ≤ place → place < begin → now place ≤ key
  upper : ∀ place : Int, last ≤ place → place ≤ right → key ≤ now place

theorem Crossing.pass {before now : Contents Int} {left right : Nat} {key begin last : Int}
    (covers : span.Covers left right) (crossing : Crossing before left right key now begin last)
    (apart : begin < last) (fuel : Nat) (enough : right - left < fuel) :
    ∃ after nextBegin nextLast, crossPass span fuel key (now, begin, last) =
        .ok (.again (after, nextBegin, nextLast)) ∧
      nextLast - nextBegin < last - begin ∧
      Crossing before left right key after nextBegin nextLast := by
  rcases crossing.indices with ⟨above, _, below⟩
  have inner : span.Covers begin last := ⟨covers.1.trans above, below.trans covers.2⟩
  rcases rise_spec (· ≤ key) now inner (le_of_lt apart) fuel (by omega) with
    ⟨risen, rose, risenAbove, risenBelow, passedUp, stoppedUp⟩
  have upper : span.Covers risen last := ⟨inner.1.trans risenAbove, inner.2⟩
  rcases fall_spec (· ≥ key) now upper risenBelow fuel (by omega) with
    ⟨fallen, fell, fallenAbove, fallenBelow, passedDown, stoppedDown⟩
  simp only [decide_eq_true_eq, decide_eq_false_iff_not, not_le] at passedUp stoppedUp
  simp only [decide_eq_true_eq, decide_eq_false_iff_not, not_le, ge_iff_le] at passedDown stoppedDown
  have lower : ∀ place : Int, left ≤ place → place < risen → now place ≤ key := by
    intro place placeAbove placeBelow
    rcases Int.lt_or_le place begin with old | new
    · exact crossing.lower place placeAbove old
    · exact passedUp place new placeBelow
  have behind : ∀ place : Int, fallen < place → place ≤ right → key ≤ now place := by
    intro place placeAbove placeBelow
    rcases Int.lt_or_le last place with old | new
    · exact crossing.upper place (le_of_lt old) placeBelow
    · exact passedDown place placeAbove new
  have pass : crossPass span fuel key (now, begin, last) =
      if risen < fallen then do
        let a ← swapAt span now risen fallen
        pure (Pass.again (a, risen, fallen))
      else pure (Pass.again (now, risen, fallen)) := by
    simp only [crossPass, if_pos apart, rose, fell, Outcome.ok_bind]
  by_cases crossed : risen < fallen
  · have fallenLess := stoppedDown crossed
    have risenGreater := stoppedUp (by omega)
    have notPivot : fallen ≠ right := by
      intro same
      rw [same, crossing.pivot] at fallenLess
      exact lt_irrefl _ fallenLess
    have shorter : fallen < last := by
      rcases eq_or_lt_of_le fallenBelow with same | less
      · have atLast := crossing.upper last (le_refl _) below
        rw [same] at fallenLess
        omega
      · exact less
    have swapped := covers.swapAt_eq now risen fallen (by omega)
      (by omega) (by omega) (by omega)
    rw [if_pos crossed, swapped, Outcome.ok_bind] at pass
    refine ⟨exchangeAt now risen fallen, risen, fallen, pass, by omega,
      ⟨by omega, by omega, by omega⟩,
      crossing.rearranges.trans (.exchange (by omega) (by omega) (by omega) (by omega) _),
      ?_, ?_, ?_⟩
    · rw [exchangeAt_of_ne (by omega) (by omega), crossing.pivot]
    · intro place placeAbove placeBelow
      rw [exchangeAt_of_ne (by omega) (by omega)]
      exact lower place placeAbove placeBelow
    · intro place placeAbove placeBelow
      rcases eq_or_lt_of_le placeAbove with rfl | later
      · rw [exchangeAt_right]
        exact le_of_lt risenGreater
      · rw [exchangeAt_of_ne (by omega) (by omega)]
        exact behind place later placeBelow
  · have met : fallen = risen := by omega
    subst met
    rw [if_neg crossed] at pass
    refine ⟨now, fallen, fallen, pass, by omega, ⟨by omega, le_refl _, by omega⟩,
      crossing.rearranges, crossing.pivot, lower, ?_⟩
    intro place placeAbove placeBelow
    rcases eq_or_lt_of_le placeAbove with rfl | later
    · rcases eq_or_lt_of_le risenBelow with same | before
      · exact crossing.upper _ (le_of_eq same.symm) placeBelow
      · exact le_of_lt (stoppedUp before)
    · exact behind place later placeBelow

theorem cross_spec {left right : Nat} (covers : span.Covers left right) (proper : left ≤ right)
    (fuel : Nat) (enough : right - left + 1 < fuel) :
    ∃ now begin, repeatLoop (crossPass span fuel (a right)) fuel (a, (left : Int), (right : Int)) =
        .ok (now, begin) ∧
      Crossing a left right (a right) now begin begin := by
  have start : Crossing a left right (a right) a left right := by
    refine ⟨by omega, .refl _ _ a, rfl, ?_, ?_⟩
    · intro place above below
      exact absurd above (not_le.mpr below)
    · intro place above below
      have same : place = right := by omega
      rw [same]
  have looped : ∃ result : Contents Int × Int,
      repeatLoop (crossPass span fuel (a right)) fuel (a, (left : Int), (right : Int)) =
        .ok result ∧
      Crossing a left right (a right) result.1 result.2 result.2 := by
    refine repeatLoop_total
      (fun bound (state : Contents Int × Int × Int) => (state.2.2 - state.2.1).toNat = bound ∧
        Crossing a left right (a right) state.1 state.2.1 state.2.2)
      (fun result : Contents Int × Int => Crossing a left right (a right) result.1 result.2 result.2)
      ?_ fuel (right - left) (a, (left : Int), (right : Int)) ⟨by simp only; omega, start⟩ (by omega)
    rintro bound ⟨now, begin, last⟩ ⟨rfl, crossing⟩
    simp only at crossing
    by_cases apart : begin < last
    · rcases crossing.pass covers apart fuel (by omega) with
        ⟨after, nextBegin, nextLast, pass, shorter, next⟩
      exact Or.inl ⟨_, (nextLast - nextBegin).toNat, pass, by simp only; omega, rfl, next⟩
    · have indices := crossing.indices
      have met : last = begin := by omega
      subst met
      exact Or.inr ⟨(now, last), if_neg apart, crossing⟩
  rcases looped with ⟨⟨now, begin⟩, ran, crossing⟩
  exact ⟨now, begin, ran, crossing⟩

/-- The function returns as soon as its index may be accessed. -/
theorem partSort1From_ran {left right mid : Nat} (covers : span.Covers left right)
    (proper : left ≤ right) (accessed : span.first ≤ toInt mid ∧ toInt mid ≤ span.last)
    (small : right < 2 ^ 31) (fuel : Nat) (enough : right - left + 1 < fuel) :
    ∃ now begin, partSort1From span fuel a left right mid =
        .ok (exchangeAt now begin right, toSize begin) ∧
      Crossing (exchangeAt a right (toInt mid)) left right (exchangeAt a right (toInt mid) right) now
        begin begin := by
  have leftInt : toInt left = left := toInt_eq (by omega) (by omega)
  have rightInt : toInt right = right := toInt_eq (by omega) (by omega)
  have whole : span.Covers span.first span.last := ⟨le_refl _, le_refl _⟩
  have rightAbove : span.first ≤ right := covers.1.trans (Int.ofNat_le.mpr proper)
  have swapped := whole.swapAt_eq a right (toInt mid) rightAbove covers.2 accessed.1 accessed.2
  have keyLoaded := whole.load_eq (exchangeAt a right (toInt mid)) right rightAbove covers.2
  rcases cross_spec (a := exchangeAt a right (toInt mid)) covers proper fuel enough with
    ⟨now, begin, ran, crossing⟩
  rcases crossing.indices with ⟨above, _, below⟩
  have lastSwap := covers.swapAt_eq now begin right above below (by omega) (le_refl _)
  refine ⟨now, begin, ?_, crossing⟩
  simp only [partSort1From, leftInt, rightInt, swapped, keyLoaded, Outcome.ok_bind, ran, lastSwap]
  rfl

theorem Crossing.partitioned {before now : Contents Int} {left right : Nat} {key begin : Int}
    (crossing : Crossing before left right key now begin begin) (small : right < 2 ^ 31) :
    Rearranges left right before (exchangeAt now begin right) ∧
      Partitioned left right (exchangeAt now begin right) (toSize begin) := by
  rcases crossing.indices with ⟨above, _, below⟩
  have pivotCast : (toSize begin : Int) = begin := toSize_eq (by omega) (by omega)
  refine ⟨crossing.rearranges.trans (.exchange above below (by omega) (by omega) _), ?_⟩
  rw [pivotCast]
  refine ⟨⟨above, below⟩, ?_, ?_⟩
  · intro place placeAbove placeBelow
    rw [exchangeAt_left, crossing.pivot, exchangeAt_of_ne (by omega) (by omega)]
    exact crossing.lower place placeAbove placeBelow
  · intro place placeAbove placeBelow
    rw [exchangeAt_left, crossing.pivot]
    rcases eq_or_lt_of_le placeBelow with rfl | before
    · rw [exchangeAt_right]
      exact crossing.upper begin (le_refl _) below
    · have stays : exchangeAt now begin right place = now place :=
        exchangeAt_of_ne (by omega) (by omega)
      rw [stays]
      exact crossing.upper place (le_of_lt placeAbove) placeBelow

theorem partSort1From_spec {left right mid : Nat} (covers : span.Covers left right)
    (inside : left ≤ mid ∧ mid ≤ right) (small : right < 2 ^ 31) (fuel : Nat)
    (enough : right - left + 1 < fuel) :
    ∃ after pivot, partSort1From span fuel a left right mid = .ok (after, pivot) ∧
      Rearranges left right a after ∧ Partitioned left right after pivot := by
  have midInt : toInt mid = mid := toInt_eq (by omega) (by omega)
  have accessed : span.first ≤ toInt mid ∧ toInt mid ≤ span.last := by
    have first := covers.1
    have last := covers.2
    omega
  rcases partSort1From_ran (a := a) covers (by omega) accessed small fuel enough with
    ⟨now, begin, ran, crossing⟩
  rcases crossing.partitioned small with ⟨rearranges, partitioned⟩
  refine ⟨_, _, ran, .trans ?_ rearranges, partitioned⟩
  rw [midInt]
  exact .exchange (by omega) (by omega) (by omega) (by omega) a

/-! ## An index that trails -/

/-- The loop of `PartSort3`: the entries up to `prev` are less than the key, those between it
and `cur` are not. -/
structure Trailing (before : Contents Int) (left right : Nat) (key : Int) (now : Contents Int)
    (prev cur : Int) : Prop where
  indices : left ≤ prev + 1 ∧ prev + 1 ≤ cur ∧ cur ≤ right
  rearranges : Rearranges left right before now
  pivot : now right = key
  lower : ∀ place : Int, left ≤ place → place ≤ prev → now place < key
  upper : ∀ place : Int, prev < place → place < cur → key ≤ now place

theorem Trailing.keep {before now : Contents Int} {left right : Nat} {key prev cur : Int}
    (trailing : Trailing before left right key now prev cur) (more : cur < right)
    (notLess : key ≤ now cur) : Trailing before left right key now prev (cur + 1) := by
  rcases trailing.indices with ⟨above, between, _⟩
  refine ⟨⟨above, by omega, by omega⟩, trailing.rearranges, trailing.pivot, trailing.lower, ?_⟩
  intro place placeAbove placeBelow
  rcases eq_or_lt_of_le (show place ≤ cur by omega) with rfl | before
  · exact notLess
  · exact trailing.upper place placeAbove before

theorem Trailing.take {before now : Contents Int} {left right : Nat} {key prev cur : Int}
    (trailing : Trailing before left right key now prev cur) (more : cur < right)
    (less : now cur < key) :
    Trailing before left right key (exchangeAt now (prev + 1) cur) (prev + 1) (cur + 1) := by
  rcases trailing.indices with ⟨above, between, _⟩
  refine ⟨⟨by omega, by omega, by omega⟩,
    trailing.rearranges.trans (.exchange above (by omega) (by omega) (by omega) _), ?_, ?_, ?_⟩
  · rw [exchangeAt_of_ne (by omega) (by omega), trailing.pivot]
  · intro place placeAbove placeBelow
    rcases eq_or_lt_of_le placeBelow with rfl | earlier
    · rw [exchangeAt_left]
      exact less
    · rw [exchangeAt_of_ne (by omega) (by omega)]
      exact trailing.lower place placeAbove (by omega)
  · intro place placeAbove placeBelow
    rcases eq_or_lt_of_le (show place ≤ cur by omega) with rfl | earlier
    · rw [exchangeAt_right]
      exact trailing.upper (prev + 1) (by omega) (by omega)
    · rw [exchangeAt_of_ne (by omega) (by omega)]
      exact trailing.upper place (by omega) earlier

/-- The inner loop makes at most one swap: the entry that comes back is not less than the
key. -/
theorem trail_spec {before now : Contents Int} {left right : Nat} {key prev cur : Int}
    (covers : span.Covers left right) (trailing : Trailing before left right key now prev cur)
    (more : cur < right) (small : right < 2 ^ 31) (fuel : Nat) (enough : 1 < fuel) :
    ∃ after next, repeatLoop (trailPass span key cur) fuel (now, prev) = .ok (after, next) ∧
      Trailing before left right key after next (cur + 1) := by
  rcases trailing.indices with ⟨above, between, _⟩
  have two : ∃ rest, fuel = rest + 2 := ⟨fuel - 2, by omega⟩
  rcases two with ⟨fuel, rfl⟩
  have loaded := covers.load_eq now cur (by omega) (by omega)
  by_cases less : now cur < key
  · have stepped : addInt prev 1 = .ok (prev + 1) := addInt_eq (by omega) (by omega)
    by_cases apart : prev + 1 = cur
    · have pass : trailPass span key cur (now, prev) = .ok (.leave (now, prev + 1)) := by
        simp [trailPass, loaded, less, stepped, apart]
      have taken := trailing.take more less
      rw [apart, exchangeAt_self] at taken
      rw [apart] at pass
      exact ⟨now, cur, repeatLoop_leave _ pass, taken⟩
    · have swapped := covers.swapAt_eq now (prev + 1) cur above
        (by omega) (by omega) (by omega)
      have pass : trailPass span key cur (now, prev) =
          .ok (.again (exchangeAt now (prev + 1) cur, prev + 1)) := by
        simp [trailPass, loaded, less, stepped, apart, swapped]
      have back : ¬exchangeAt now (prev + 1) cur cur < key := by
        rw [exchangeAt_right]
        exact not_lt.mpr (trailing.upper _ (by omega) (by omega))
      have loadedBack := covers.load_eq (exchangeAt now (prev + 1) cur) cur (by omega) (by omega)
      have last : trailPass span key cur (exchangeAt now (prev + 1) cur, prev + 1) =
          .ok (.leave (exchangeAt now (prev + 1) cur, prev + 1)) := by
        simp only [trailPass, loadedBack, Outcome.ok_bind, if_neg back]
        rfl
      exact ⟨_, _, (repeatLoop_again _ pass).trans (repeatLoop_leave _ last),
        trailing.take more less⟩
  · have pass : trailPass span key cur (now, prev) = .ok (.leave (now, prev)) := by
      simp [trailPass, loaded, less]
    exact ⟨now, prev, repeatLoop_leave _ pass, trailing.keep more (not_lt.mp less)⟩

theorem sweep_spec {left right : Nat} (covers : span.Covers left right) (proper : left ≤ right)
    (small : right < 2 ^ 31) (fuel : Nat) (enough : right - left + 1 < fuel) :
    ∃ now prev, repeatLoop (sweepPass span fuel (a right) right) fuel
        (a, (left - 1 : Int), (left : Int)) = .ok (now, prev) ∧
      Trailing a left right (a right) now prev right := by
  have start : Trailing a left right (a right) a (left - 1) left := by
    refine ⟨by omega, .refl _ _ a, rfl, ?_, ?_⟩
    · intro place above below
      omega
    · intro place above below
      omega
  have looped : ∃ result : Contents Int × Int,
      repeatLoop (sweepPass span fuel (a right) right) fuel (a, (left - 1 : Int), (left : Int)) =
        .ok result ∧
      Trailing a left right (a right) result.1 result.2 right := by
    refine repeatLoop_total
      (fun bound (state : Contents Int × Int × Int) => (right - state.2.2).toNat = bound ∧
        Trailing a left right (a right) state.1 state.2.1 state.2.2)
      (fun result : Contents Int × Int => Trailing a left right (a right) result.1 result.2 right)
      ?_ fuel (right - left) (a, (left - 1 : Int), (left : Int)) ⟨by simp only; omega, start⟩
      (by omega)
    rintro bound ⟨now, prev, cur⟩ ⟨rfl, trailing⟩
    simp only at trailing
    rcases trailing.indices with ⟨above, between, below⟩
    have curCast : (toSize cur : Int) = cur := toSize_eq (by omega) (by omega)
    by_cases more : toSize cur < right
    · have curLess : cur < right := by omega
      rcases trail_spec covers trailing curLess small fuel (by omega) with
        ⟨after, next, ran, moved⟩
      have stepped : addInt cur 1 = .ok (cur + 1) := addInt_eq (by omega) (by omega)
      left
      refine ⟨(after, next, cur + 1), (right - (cur + 1)).toNat, ?_, by simp only; omega, rfl, moved⟩
      simp only [sweepPass, if_pos more, ran, stepped, Outcome.ok_bind]
      rfl
    · have atEnd : cur = right := by omega
      subst atEnd
      exact Or.inr ⟨(now, prev), if_neg more, trailing⟩
  rcases looped with ⟨⟨now, prev⟩, ran, trailing⟩
  exact ⟨now, prev, ran, trailing⟩

/-- The function returns as soon as its index may be accessed. -/
theorem partSort3From_ran {left right mid : Nat} (covers : span.Covers left right)
    (proper : left ≤ right) (accessed : span.first ≤ toInt mid ∧ toInt mid ≤ span.last)
    (small : right < 2 ^ 31) (fuel : Nat) (enough : right - left + 1 < fuel) :
    ∃ now prev, partSort3From span fuel a left right mid =
        .ok (exchangeAt now (prev + 1) right, toSize (prev + 1)) ∧
      Trailing (exchangeAt a (toInt mid) right) left right (exchangeAt a (toInt mid) right right) now
        prev right := by
  have leftInt : toInt left = left := toInt_eq (by omega) (by omega)
  have beforeLeft : toInt (toSize (left - 1)) = left - 1 := toInt_toSize (by omega) (by omega)
  have whole : span.Covers span.first span.last := ⟨le_refl _, le_refl _⟩
  have rightAbove : span.first ≤ right := covers.1.trans (Int.ofNat_le.mpr proper)
  have swapped := whole.swapAt_eq a (toInt mid) right accessed.1 accessed.2 rightAbove covers.2
  have keyLoaded := whole.load_eq (exchangeAt a (toInt mid) right) right rightAbove covers.2
  rcases sweep_spec (a := exchangeAt a (toInt mid) right) covers proper small fuel enough with
    ⟨now, prev, ran, trailing⟩
  rcases trailing.indices with ⟨above, below, _⟩
  have stepped : addInt prev 1 = .ok (prev + 1) := addInt_eq (by omega) (by omega)
  have lastSwap := covers.swapAt_eq now (prev + 1) right above below (by omega) (le_refl _)
  refine ⟨now, prev, ?_, trailing⟩
  simp only [partSort3From, leftInt, beforeLeft, swapped, keyLoaded, Outcome.ok_bind, ran, stepped,
    lastSwap]
  rfl

theorem Trailing.partitioned {before now : Contents Int} {left right : Nat} {key prev : Int}
    (trailing : Trailing before left right key now prev right) (small : right < 2 ^ 31) :
    Rearranges left right before (exchangeAt now (prev + 1) right) ∧
      Partitioned left right (exchangeAt now (prev + 1) right) (toSize (prev + 1)) := by
  rcases trailing.indices with ⟨above, below, _⟩
  have pivotCast : (toSize (prev + 1) : Int) = prev + 1 := toSize_eq (by omega) (by omega)
  refine ⟨trailing.rearranges.trans (.exchange above below (by omega) (by omega) _), ?_⟩
  rw [pivotCast]
  refine ⟨⟨above, below⟩, ?_, ?_⟩
  · intro place placeAbove placeBelow
    rw [exchangeAt_left, trailing.pivot, exchangeAt_of_ne (by omega) (by omega)]
    exact le_of_lt (trailing.lower place placeAbove (by omega))
  · intro place placeAbove placeBelow
    rw [exchangeAt_left, trailing.pivot]
    rcases eq_or_lt_of_le placeBelow with rfl | before
    · have moved : exchangeAt now (prev + 1) right right = now (prev + 1) := exchangeAt_right ..
      rw [moved]
      exact trailing.upper (prev + 1) (by omega) (by omega)
    · have stays : exchangeAt now (prev + 1) right place = now place :=
        exchangeAt_of_ne (by omega) (by omega)
      rw [stays]
      exact trailing.upper place (by omega) before

theorem partSort3From_spec {left right mid : Nat} (covers : span.Covers left right)
    (inside : left ≤ mid ∧ mid ≤ right) (small : right < 2 ^ 31) (fuel : Nat)
    (enough : right - left + 1 < fuel) :
    ∃ after pivot, partSort3From span fuel a left right mid = .ok (after, pivot) ∧
      Rearranges left right a after ∧ Partitioned left right after pivot := by
  have midInt : toInt mid = mid := toInt_eq (by omega) (by omega)
  have accessed : span.first ≤ toInt mid ∧ toInt mid ≤ span.last := by
    have first := covers.1
    have last := covers.2
    omega
  rcases partSort3From_ran (a := a) covers (by omega) accessed small fuel enough with
    ⟨now, prev, ran, trailing⟩
  rcases trailing.partitioned small with ⟨rearranges, partitioned⟩
  refine ⟨_, _, ran, .trans ?_ rearranges, partitioned⟩
  rw [midInt]
  exact .exchange (by omega) (by omega) (by omega) (by omega) a

/-! ## Indices beyond the range of `int` -/

/-- While `cur` is an `int` that is not negative, the loop of `PartSort3` cannot reach a bound
beyond the range of `int`. -/
theorem sweep_endless {fuel : Nat} {key : Int} {right : Nat} (large : 2 ^ 31 ≤ right)
    (passes : Nat) {now : Contents Int} {prev cur : Int} (low : 0 ≤ cur) (high : cur < 2 ^ 31)
    (result : Contents Int × Int) :
    repeatLoop (sweepPass span fuel key right) passes (now, prev, cur) ≠ .ok result := by
  intro returned
  refine repeatLoop_partial
    (fun state : Contents Int × Int × Int => 0 ≤ state.2.2 ∧ state.2.2 < 2 ^ 31)
    (fun _ => False) ?_ ?_ passes (now, prev, cur) result ⟨low, high⟩ returned
  · rintro ⟨now, prev, cur⟩ next ⟨low, high⟩ pass
    simp only at low high
    have curCast : (toSize cur : Int) = cur := toSize_eq low (by omega)
    have more : toSize cur < right := by omega
    simp only [sweepPass, if_pos more] at pass
    rcases Outcome.bind_eq_ok pass with ⟨inner, _, rest⟩
    rcases Outcome.bind_eq_ok rest with ⟨stepped, added, done⟩
    rcases addInt_eq_ok added with ⟨sum, _, inRange⟩
    cases done
    exact ⟨by simp only; omega, by simp only; omega⟩
  · rintro ⟨now, prev, cur⟩ result ⟨low, high⟩ pass
    simp only at low high
    have curCast : (toSize cur : Int) = cur := toSize_eq low (by omega)
    have more : toSize cur < right := by omega
    simp only [sweepPass, if_pos more] at pass
    rcases Outcome.bind_eq_ok pass with ⟨inner, _, rest⟩
    rcases Outcome.bind_eq_ok rest with ⟨stepped, _, done⟩
    cases done

/-- For an array whose last index is no `int`, `PartSort3` does not return. -/
theorem partSort3From_never {length left right : Nat} (large : 2 ^ 31 ≤ right) (mid fuel : Nat)
    (result : Contents Int × Nat) :
    partSort3From (.ofLength length) fuel a left right mid ≠ .ok result := by
  intro returned
  rcases Outcome.bind_eq_ok returned with ⟨swapped, _, rest⟩
  rcases Outcome.bind_eq_ok rest with ⟨key, _, rest⟩
  rcases Outcome.bind_eq_ok rest with ⟨⟨now, prev⟩, looped, rest⟩
  have range := toInt_range left
  rcases Int.lt_or_le (toInt left) 0 with negative | started
  · -- `cur` starts below the array: either it is read there, or the loop is not entered
    cases fuel with
    | zero => cases looped
    | succ fuel =>
        by_cases more : toSize (toInt left) < right
        · have outside : load (.ofLength length) swapped (toInt left) = .error .outOfRange :=
            load_outside (Or.inl negative)
          have inner : trailPass (.ofLength length) key (toInt left)
              (swapped, toInt (toSize (left - 1))) = .error .outOfRange := by
            simp only [trailPass, outside, Outcome.error_bind]
          have pass : sweepPass (.ofLength length) (fuel + 1) key right
              (swapped, toInt (toSize (left - 1)), toInt left) = .error .outOfRange := by
            simp only [sweepPass, if_pos more, repeatLoop_error fuel inner, Outcome.error_bind]
          rw [repeatLoop_error fuel pass] at looped
          cases looped
        · have pass : sweepPass (.ofLength length) (fuel + 1) key right
              (swapped, toInt (toSize (left - 1)), toInt left) =
                .ok (.leave (swapped, toInt (toSize (left - 1)))) := if_neg more
          rw [repeatLoop_leave _ pass] at looped
          cases looped
          rcases Outcome.bind_eq_ok rest with ⟨next, added, rest⟩
          rcases Outcome.bind_eq_ok rest with ⟨after, lastSwap, _⟩
          rcases addInt_eq_ok added with ⟨sum, _, inRange⟩
          have accessed := (swapAt_eq_ok lastSwap).1.1
          have reached : 0 ≤ next := accessed
          rcases toInt_congr left with ⟨wraps, wrapped⟩
          rcases toInt_congr (toSize (left - 1)) with ⟨otherWraps, otherWrapped⟩
          rcases toSize_congr (left - 1) with ⟨sizeWraps, sizeWrapped⟩
          have otherRange := toInt_range (toSize (left - 1))
          omega
  · exact sweep_endless large fuel started (by omega) _ looped

/-! ## The contract of both functions -/

/-- From any index between `left` and `right` both functions rearrange the part around the index
they return exactly when `right` is an `int`. So they do for the index of `GetMiddleIndex`. -/
theorem partSort_iff {length left right mid : Nat} (a : Contents Int) (proper : left < right)
    (within : right < length) (inside : left ≤ mid ∧ mid ≤ right) :
    (Partitions (fun fuel a => partSort1From (.ofLength length) fuel a left right mid) left right a ∧
        Partitions (fun fuel a => partSort3From (.ofLength length) fuel a left right mid) left
          right a ↔ right < 2 ^ 31) ∧
      (getMiddleIndex (.ofLength length) a left right = .ok mid →
        (Partitions (fun fuel a => partSort1 (.ofLength length) fuel a left right) left right a ∧
          Partitions (fun fuel a => partSort3 (.ofLength length) fuel a left right) left right a ↔
            right < 2 ^ 31)) := by
  have covers : (Span.ofLength length).Covers left right :=
    Span.ofLength_covers (Int.natCast_nonneg left) (by omega)
  have fromIndex :
      Partitions (fun fuel a => partSort1From (.ofLength length) fuel a left right mid) left right
          a ∧
        Partitions (fun fuel a => partSort3From (.ofLength length) fuel a left right mid) left
          right a ↔ right < 2 ^ 31 := by
    constructor
    · rintro ⟨_, ⟨enough, meets⟩⟩
      by_contra large
      rcases meets enough (le_refl _) with ⟨after, pivot, returned, _⟩
      exact partSort3From_never (by omega) mid enough (after, pivot) returned
    · intro small
      exact ⟨⟨right + 2, fun fuel enough => partSort1From_spec covers inside small fuel (by omega)⟩,
        ⟨right + 2, fun fuel enough => partSort3From_spec covers inside small fuel (by omega)⟩⟩
  refine ⟨fromIndex, fun found => ?_⟩
  have first : Partitions (fun fuel a => partSort1 (.ofLength length) fuel a left right) left
      right a ↔
      Partitions (fun fuel a => partSort1From (.ofLength length) fuel a left right mid) left right
        a := Partitions.congr fun fuel => by rw [partSort1, found, Outcome.ok_bind]
  have third : Partitions (fun fuel a => partSort3 (.ofLength length) fuel a left right) left
      right a ↔
      Partitions (fun fuel a => partSort3From (.ofLength length) fuel a left right mid) left right
        a := Partitions.congr fun fuel => by rw [partSort3, found, Outcome.ok_bind]
  rw [first, third]
  exact fromIndex

theorem partSort_iff_three :
    (Partitions (fun fuel a => partSort1From (.ofLength 3) fuel a 0 2 1) 0 2 id ∧
        Partitions (fun fuel a => partSort3From (.ofLength 3) fuel a 0 2 1) 0 2 id ↔ 2 < 2 ^ 31) ∧
      (Partitions (fun fuel a => partSort1 (.ofLength 3) fuel a 0 2) 0 2 id ∧
        Partitions (fun fuel a => partSort3 (.ofLength 3) fuel a 0 2) 0 2 id ↔ 2 < 2 ^ 31) :=
  have inside : 0 ≤ 1 ∧ 1 ≤ 2 := by decide
  have both := partSort_iff id (show 0 < 2 by decide) (show 2 < 3 by decide) inside
  ⟨both.1, both.2 (by decide)⟩

/-- An array of `2 ^ 31 + 1` equal entries. -/
theorem partSort3_of_large_array :
    getMiddleIndex (.ofLength (2 ^ 31 + 1)) (fun _ => 0) 0 (2 ^ 31) = .ok (2 ^ 30) ∧
      ¬Partitions (fun fuel a => partSort3 (.ofLength (2 ^ 31 + 1)) fuel a 0 (2 ^ 31)) 0 (2 ^ 31)
        fun _ => 0 := by
  have found : getMiddleIndex (.ofLength (2 ^ 31 + 1)) (fun _ => 0) 0 (2 ^ 31) = .ok (2 ^ 30) := by
    decide
  refine ⟨found, ?_⟩
  rintro ⟨enough, meets⟩
  rcases meets enough (le_refl _) with ⟨after, pivot, returned, _⟩
  simp only [partSort3, found, Outcome.ok_bind] at returned
  exact partSort3From_never (le_refl _) _ enough (after, pivot) returned

end DataStructAlgorithm.Algorithm.Sort
