import Mathlib.Data.Set.Monotone
import DataStructAlgorithm.Foundation.Ordering
import DataStructAlgorithm.Algorithm.Sort.Sort

/-! # `BubbleSort`

The flag stays set once an exchange has been made. It can only leave the loop early while no pass
has exchanged anything, and then nothing was out of order. -/

namespace DataStructAlgorithm.Algorithm.Sort

open Foundation

variable {span : Span} {a : Contents Int}

/-- The inner loop has come to `i`: the entry before is the greatest so far. While the flag is not
set, these entries are in order. -/
structure Bubbled (before : Contents Int) (last : Int) (now : Contents Int) (i : Int)
    (exchange : Bool) : Prop where
  index : 1 ≤ i ∧ i ≤ last
  rearranges : Rearranges 0 (last - 1) before now
  greatest : ∀ place, 0 ≤ place → place < i → now place ≤ now (i - 1)
  quiet : exchange = false → MonotoneOn now (Set.Icc 0 (i - 1))

theorem Bubbled.pass {before now : Contents Int} {last i : Int} {exchange : Bool}
    (bubbled : Bubbled before last now i exchange) (covers : span.Covers 0 (last - 1))
    (more : i < last) :
    ∃ after exchanged, neighbourPass span last (now, i, exchange) =
        .ok (.again (after, i + 1, exchanged)) ∧ Bubbled before last after (i + 1) exchanged := by
  have index := bubbled.index
  have beforeLoaded := covers.load_eq now (i - 1) (by omega) (by omega)
  have loaded := covers.load_eq now i (by omega) (by omega)
  have previous : i + 1 - 1 = i := by omega
  simp only [neighbourPass, if_pos more, beforeLoaded, loaded, Outcome.ok_bind]
  by_cases greater : now (i - 1) > now i
  · have swapped := covers.swapAt_eq now (i - 1) i (by omega) (by omega) (by omega) (by omega)
    simp only [if_pos greater, swapped, Outcome.ok_bind]
    refine ⟨_, true, rfl, by omega, ?_, ?_, nofun⟩
    · exact bubbled.rearranges.trans
        (.exchange (by omega) (by omega) (by omega) (by omega) now)
    · intro place above below
      rw [previous, exchangeAt_right]
      rcases Int.lt_trichotomy place (i - 1) with earlier | rfl | behind
      · rw [exchangeAt_of_ne (by omega) (by omega)]
        exact bubbled.greatest place above (by omega)
      · rw [exchangeAt_left]
        exact le_of_lt greater
      · have atIndex : place = i := by omega
        rw [atIndex, exchangeAt_right]
  · simp only [if_neg greater]
    have atLeast := not_lt.mp greater
    refine ⟨now, exchange, rfl, by omega, bubbled.rearranges, ?_, ?_⟩
    · intro place above below
      rw [previous]
      rcases eq_or_lt_of_le (show place ≤ i by omega) with rfl | earlier
      · exact le_refl _
      · exact (bubbled.greatest place above earlier).trans atLeast
    · intro silent
      rw [previous]
      refine monotoneOn_of_parts (bubbled.quiet silent) (monotoneOn_single now (le_refl i)) ?_
      intro x y above earlier behind within
      have atIndex : y = i := by omega
      rw [atIndex]
      exact (bubbled.greatest x above earlier).trans atLeast

theorem neighbours_spec {last : Int} (covers : span.Covers 0 (last - 1)) (several : 1 < last)
    (flag : Bool) (fuel : Nat) (enough : last < fuel) :
    ∃ after exchange, repeatLoop (neighbourPass span last) fuel (a, 1, flag) =
        .ok (after, exchange) ∧ Bubbled a last after last exchange := by
  have start : Bubbled a last a 1 flag := by
    refine ⟨by omega, .refl _ _ a, ?_, fun _ => monotoneOn_single a (by omega)⟩
    intro place above below
    have first : place = 1 - 1 := by omega
    rw [first]
  have looped : ∃ result : Contents Int × Bool,
      repeatLoop (neighbourPass span last) fuel (a, 1, flag) = .ok result ∧
        Bubbled a last result.1 last result.2 := by
    refine repeatLoop_total
      (fun bound (state : Contents Int × Int × Bool) => (last - state.2.1).toNat = bound ∧
        Bubbled a last state.1 state.2.1 state.2.2)
      (fun result : Contents Int × Bool => Bubbled a last result.1 last result.2) ?_ fuel _
      (a, 1, flag) ⟨rfl, start⟩ (by simp only; omega)
    rintro bound ⟨now, i, exchange⟩ ⟨rfl, bubbled⟩
    simp only at bubbled
    have index := bubbled.index
    by_cases more : i < last
    · rcases bubbled.pass covers more with ⟨after, exchanged, pass, next⟩
      exact Or.inl ⟨_, _, pass, by simp only; omega, rfl, next⟩
    · have atEnd : i = last := by omega
      subst atEnd
      exact Or.inr ⟨(now, exchange), if_neg more, bubbled⟩
  rcases looped with ⟨⟨after, exchange⟩, ran, bubbled⟩
  exact ⟨after, exchange, ran, bubbled⟩

/-- `BubbleSort` sorts every array. -/
theorem bubbleSort_sorts (a : Contents Int) (n : Nat) (isInt : n < 2 ^ 31) :
    Sorts (fun fuel a => bubbleSort (.ofLength n) fuel a n) 0 (n - 1) a := by
  refine ⟨n + 2, fun fuel enough => ?_⟩
  have start : toInt n = n := toInt_eq (by omega) (by omega)
  have covers : ∀ last : Int, last ≤ n → (Span.ofLength n).Covers 0 (last - 1) := fun last le =>
    ⟨le_refl _, show last - 1 ≤ (n : Int) - 1 by omega⟩
  simp only [bubbleSort, start]
  refine repeatLoop_total
    (fun bound (state : Contents Int × Int × Bool) => state.2.1.toNat = bound ∧ state.2.1 ≤ n ∧
      Rearranges 0 (n - 1) a state.1 ∧ Pending 0 (n - 1) state.1 (unsorted 0 (state.2.1 - 1)))
    (fun after => SortedFrom 0 (n - 1) a after) ?_ fuel _ (a, (n : Int), false)
    ⟨rfl, le_refl _, .refl _ _ a, .whole _ _ a⟩ (by simp only; omega)
  rintro bound ⟨now, last, flag⟩ ⟨rfl, high, rearranges, pending⟩
  simp only at high rearranges pending
  by_cases more : last - 1 > 0
  · rcases neighbours_spec (a := now) (covers last high) (by omega) flag fuel (by omega) with
      ⟨after, exchange, ran, bubbled⟩
    have moved := rearranges.trans (bubbled.rearranges.mono (le_refl 0) (by omega))
    have atEnd : Partitioned 0 (last - 1) after (last - 1) :=
      ⟨⟨by omega, le_refl _⟩, fun place above below => bubbled.greatest place above (by omega),
        fun place behind below => by omega⟩
    have nothing : unsorted (last - 1 + 1) (last - 1) = [] := if_neg (by omega)
    rw [unsorted, if_pos more] at pending
    have divided := pending.divide bubbled.rearranges atEnd
    rw [halves, nothing, List.nil_append, List.append_nil] at divided
    simp only [bubblePass, if_pos more, ran, Outcome.ok_bind]
    cases exchange with
    | true =>
        exact Or.inl ⟨_, (last - 1).toNat, rfl, by omega, rfl, by simp only; omega, moved, divided⟩
    | false =>
        have quiet : MonotoneOn after (Set.Icc 0 (last - 1)) := bubbled.quiet rfl
        refine Or.inr ⟨after, rfl, moved, ?_⟩
        by_cases several : 0 < last - 1 - 1
        · rw [unsorted, if_pos several] at divided
          exact divided.monotone_of_part
            (MonotoneOn.mono quiet (Set.Icc_subset_Icc_right (by omega)))
        · rw [unsorted, if_neg several] at divided
          exact divided.monotone
  · rw [unsorted, if_neg more] at pending
    exact Or.inr ⟨now, if_neg more, rearranges, pending.monotone⟩

theorem bubbleSort_sorts_three :
    Sorts (fun fuel a => bubbleSort (.ofLength 3) fuel a 3) 0 ((3 : Nat) - 1)
      (fun place => -place) :=
  bubbleSort_sorts (fun place => -place) 3 (by decide)

end DataStructAlgorithm.Algorithm.Sort
