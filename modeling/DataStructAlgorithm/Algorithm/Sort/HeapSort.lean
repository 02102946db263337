import Mathlib.Order.OrderDual
import DataStructAlgorithm.Foundation.HeapOrder
import DataStructAlgorithm.Foundation.Ordering
import DataStructAlgorithm.Algorithm.Sort.Sort

/-! # `HeapSort`

After each exchange the call of `AdjustDown` leaves one entry too many out of the heap. -/

namespace DataStructAlgorithm.Algorithm.Sort

open Foundation OrderDual

variable {span : Span} {a : Contents Int}

/-- The first `n` entries as the cells of a heap. -/
def occupied (a : Contents Int) (n index : Nat) : Option Int :=
  if index < n then some (a index) else none

/-- No entry is less than its children, for the parents from `floor` on and among the first `n`
entries. -/
def MaxHeap (a : Contents Int) (n floor : Nat) : Prop := HeapFrom toDual (occupied a n) floor

theorem occupied_eq_some {n index : Nat} {entry : Int} :
    occupied a n index = some entry ↔ index < n ∧ a index = entry := by
  rw [occupied]
  split
  next within => simp [within]
  next outside => simp [outside]

theorem occupied_exchange (a : Contents Int) {n hole child : Nat} (holeInside : hole < n)
    (childInside : child < n) (index : Nat) :
    occupied (exchangeAt a hole child) n index = if index = hole then some (a child)
      else if index = child then some (a hole) else occupied a n index := by
  by_cases atHole : index = hole
  · subst atHole
    rw [if_pos rfl, occupied, if_pos holeInside, exchangeAt_left]
  · rw [if_neg atHole]
    by_cases atChild : index = child
    · subst atChild
      rw [if_pos rfl, occupied, if_pos childInside, exchangeAt_right]
    · rw [if_neg atChild, occupied, occupied, exchangeAt_of_ne (by omega) (by omega)]

theorem MaxHeap.shrink {n smaller : Nat} (heap : MaxHeap a n 0) (le : smaller ≤ n) :
    MaxHeap a smaller 0 := by
  intro child positive inside upper lower upperFound lowerFound
  rw [occupied_eq_some] at upperFound lowerFound
  exact heap child positive inside upper lower
    (occupied_eq_some.mpr ⟨by omega, upperFound.2⟩) (occupied_eq_some.mpr ⟨by omega, lowerFound.2⟩)

theorem MaxHeap.greatest {n : Nat} (heap : MaxHeap a n 0) {place : Int} (above : 0 ≤ place)
    (below : place < n) : a place ≤ a 0 := by
  rcases Int.eq_ofNat_of_zero_le above with ⟨index, rfl⟩
  refine toDual_le_toDual.mp (heap.first_le ?_ (occupied_eq_some.mpr ⟨by omega, rfl⟩) index
    (occupied_eq_some.mpr ⟨by omega, rfl⟩))
  intro index value found
  rw [occupied_eq_some] at found
  exact ⟨_, occupied_eq_some.mpr ⟨by omega, rfl⟩⟩

/-! ## Moving down -/

theorem largerChild_spec {n hole : Nat} (covers : span.Covers 0 (n - 1))
    (within : hole * 2 + 1 < n) :
    ∃ child, largerChild span a (hole * 2 + 1) n = .ok child ∧ 0 < child ∧ (child - 1) / 2 = hole ∧
      child < n ∧ ∀ sibling > 0, (sibling - 1) / 2 = hole → ∀ entry,
        occupied a n sibling = some entry → entry ≤ a child := by
  have siblings : ∀ sibling > 0, (sibling - 1) / 2 = hole →
      sibling = hole * 2 + 1 ∨ sibling = hole * 2 + 1 + 1 := by
    intro sibling positive isChild
    omega
  have leftLoaded := covers.load_eq a (hole * 2 + 1 : Nat) (by omega) (by omega)
  by_cases two : hole * 2 + 1 + 1 < n
  · have rightLoaded := covers.load_eq a ((hole * 2 + 1 : Nat) + 1) (by omega) (by omega)
    have rightCast : ((hole * 2 + 1 + 1 : Nat) : Int) = (hole * 2 + 1 : Nat) + 1 := rfl
    refine ⟨if a (hole * 2 + 1 : Nat) < a ((hole * 2 + 1 : Nat) + 1) then hole * 2 + 1 + 1
      else hole * 2 + 1, ?_, by split <;> omega, by split <;> omega, by split <;> omega, ?_⟩
    · simp only [largerChild, if_pos two, leftLoaded, rightLoaded, Outcome.ok_bind]
      rfl
    · intro sibling positive isChild entry found
      rw [occupied_eq_some] at found
      rcases siblings sibling positive isChild with rfl | rfl
      · split
        next less =>
          rw [rightCast]
          omega
        next => omega
      · rw [rightCast] at found
        split
        next =>
          rw [rightCast]
          omega
        next => omega
  · refine ⟨hole * 2 + 1, if_neg two, by omega, by omega, within, ?_⟩
    intro sibling positive isChild entry found
    rw [occupied_eq_some] at found
    have same : sibling = hole * 2 + 1 := by omega
    subst same
    exact le_of_eq found.2.symm

/-- `AdjustDown` puts the entry at `parent` in order, when all parents behind it are. -/
theorem adjustDown_spec {n floor parent : Nat} (covers : span.Covers 0 (n - 1))
    (sinking : SinkingFrom toDual (occupied a n) floor parent) (fuel : Nat) (enough : n < fuel) :
    ∃ after, adjustDown span fuel a parent n = .ok after ∧ Rearranges 0 (n - 1) a after ∧
      MaxHeap after n floor := by
  refine repeatLoop_total
    (fun bound (state : Contents Int × Nat) => n - state.2 = bound ∧
      Rearranges 0 (n - 1) a state.1 ∧ SinkingFrom toDual (occupied state.1 n) floor state.2)
    (fun after => Rearranges 0 (n - 1) a after ∧ MaxHeap after n floor) ?_ fuel (n - parent)
    (a, parent) ⟨rfl, .refl _ _ a, sinking⟩ (by omega)
  rintro bound ⟨now, hole⟩ ⟨rfl, rearranges, sinking⟩
  simp only at rearranges sinking
  by_cases within : hole * 2 + 1 < n
  · rcases largerChild_spec (a := now) covers within with
      ⟨child, chosen, positive, isChild, inside, greatest⟩
    have aboveLoaded := covers.load_eq now hole (by omega) (by omega)
    have belowLoaded := covers.load_eq now child (by omega) (by omega)
    simp only [adjustPass, if_pos within, chosen, aboveLoaded, belowLoaded, Outcome.ok_bind]
    by_cases less : now hole < now child
    · left
      have swapped := covers.swapAt_eq now hole child (by omega) (by omega) (by omega) (by omega)
      simp only [if_pos less, swapped, Outcome.ok_bind]
      refine ⟨_, n - child, rfl, by omega, rfl,
        rearranges.trans (.exchange (by omega) (by omega) (by omega) (by omega) _), ?_⟩
      have foundChild : occupied now n child = some (now child) := if_pos inside
      have smaller : toDual (now child) < toDual (now hole) := toDual_lt_toDual.mpr less
      refine sinking.move positive isChild foundChild smaller ?_
        (occupied_exchange now (by omega) inside)
      intro sibling siblingPositive isSibling entry found
      exact toDual_le_toDual.mpr (greatest sibling siblingPositive isSibling entry found)
    · right
      simp only [if_neg less]
      refine ⟨now, rfl, rearranges, sinking.finish ?_⟩
      intro other otherPositive otherChild upper lower upperFound lowerFound
      rw [otherChild, occupied_eq_some] at upperFound
      have notGreater := greatest other otherPositive otherChild lower lowerFound
      rw [toDual_le_toDual]
      omega
  · right
    simp only [adjustPass, if_neg within]
    refine ⟨now, rfl, rearranges, sinking.finish ?_⟩
    intro other otherPositive otherChild upper lower _ lowerFound
    rw [occupied_eq_some] at lowerFound
    omega

/-! ## Building the heap -/

/-- The loop starts with the last parent, or not at all. -/
theorem build_start {sz : Nat} (small : sz ≤ 2 ^ 31) :
    ∃ start : Int, toInt (toSize (sz - 2) / 2) = start ∧ -1 ≤ start ∧ start ≤ sz ∧
      ∀ child > 0, (start + 1).toNat ≤ (child - 1) / 2 → sz ≤ child := by
  by_cases several : 2 ≤ sz
  · have size : (toSize (sz - 2) : Int) = sz - 2 := toSize_eq (by omega) (by omega)
    rw [size]
    exact ⟨(sz - 2) / 2, toInt_eq (by omega) (by omega), by omega, by omega, by omega⟩
  · refine ⟨-1, ?_, le_refl _, by omega, by omega⟩
    rcases (show sz = 0 ∨ sz = 1 by omega) with rfl | rfl
    · decide
    · decide

theorem build_spec {sz : Nat} (covers : span.Covers 0 (sz - 1)) (small : sz ≤ 2 ^ 31) (fuel : Nat)
    (enough : sz + 1 < fuel) :
    ∃ built, repeatLoop (buildPass span fuel sz) fuel (a, toInt (toSize (sz - 2) / 2)) = .ok built ∧
      Rearranges 0 (sz - 1) a built ∧ MaxHeap built sz 0 := by
  rcases build_start small with ⟨start, isStart, low, high, beyond⟩
  rw [isStart]
  have untouched : MaxHeap a sz (start + 1).toNat := by
    intro child positive inside upper lower _ lowerFound
    rw [occupied_eq_some] at lowerFound
    have outside := beyond child positive inside
    omega
  refine build_heap (fun now => occupied now sz) (fun now => Rearranges 0 (sz - 1) a now) ?_
    (fun _ => rfl) (.refl _ _ a) low untouched fuel (by omega)
  intro now parent below rearranges sinking
  have index : toSize parent = parent := toSize_natCast (by omega)
  rcases adjustDown_spec covers sinking fuel (by omega) with ⟨after, ran, moved, done⟩
  refine ⟨after, ?_, rearranges.trans moved, done⟩
  rw [buildPass, if_pos (Int.natCast_nonneg parent), index, ran, Outcome.ok_bind]
  rfl

/-! ## Taking the heap apart -/

/-- Before each pass the entries before `last` are a heap. The one at `last` need not belong
to it. -/
structure Loose (sz : Nat) (now : Contents Int) (last : Int) : Prop where
  range : -1 ≤ last ∧ last < sz
  heap : MaxHeap now last.toNat 0

theorem Loose.pass {sz : Nat} {now : Contents Int} {last : Int} (loose : Loose sz now last)
    (covers : span.Covers 0 (sz - 1)) (small : sz ≤ 2 ^ 31) (more : last > 0) (fuel : Nat)
    (enough : sz < fuel) :
    ∃ after, extractPass span fuel (now, last) = .ok (.again (after, last - 1)) ∧
      Rearranges 0 (last - 2) (exchangeAt now 0 last) after ∧ Loose sz after (last - 1) := by
  have range := loose.range
  have size : (toSize (last - 1) : Int) = last - 1 := toSize_eq (by omega) (by omega)
  have swapped := covers.swapAt_eq now 0 last (le_refl _) (by omega) (by omega) (by omega)
  have inner : span.Covers 0 (toSize (last - 1) - 1) := ⟨covers.1, Int.le_trans (by omega) covers.2⟩
  have sinking : SinkingFrom toDual (occupied (exchangeAt now 0 last) (toSize (last - 1))) 0 0 := by
    apply loose.heap.replace_first
    intro index positive
    by_cases within : index < toSize (last - 1)
    · left
      rw [occupied, occupied, if_pos within, if_pos (by omega),
        exchangeAt_of_ne (by omega) (by omega)]
    · exact Or.inr (if_neg within)
  rcases adjustDown_spec inner sinking fuel (by omega) with ⟨after, ran, rearranges, heap⟩
  refine ⟨after, ?_, ?_, by omega, ?_⟩
  · simp only [extractPass, if_pos more, swapped, ran, Outcome.ok_bind]
    rfl
  · have last_eq : (toSize (last - 1) : Int) - 1 = last - 2 := by omega
    rw [last_eq] at rearranges
    exact rearranges
  · have count : (last - 1).toNat = toSize (last - 1) := by omega
    rw [count]
    exact heap

theorem extractPass_again {fuel : Nat} {last : Int} {next : Contents Int × Int}
    (pass : extractPass span fuel (a, last) = .ok (.again next)) :
    last > 0 ∧ ∃ adjusted, adjustDown span fuel (exchangeAt a 0 last) 0 (toSize (last - 1)) =
      .ok adjusted ∧ next = (adjusted, last - 1) := by
  rw [extractPass] at pass
  split at pass
  next more =>
    rcases Outcome.bind_eq_ok pass with ⟨swapped, swap, rest⟩
    rcases Outcome.bind_eq_ok rest with ⟨adjusted, ran, done⟩
    cases (swapAt_eq_ok swap).2.2
    cases done
    exact ⟨more, adjusted, ran, rfl⟩
  next => cases pass

theorem extractPass_leave {fuel : Nat} {last : Int} {result : Contents Int}
    (pass : extractPass span fuel (a, last) = .ok (.leave result)) : result = a := by
  rw [extractPass] at pass
  split at pass
  next =>
    rcases Outcome.bind_eq_ok pass with ⟨swapped, _, rest⟩
    rcases Outcome.bind_eq_ok rest with ⟨adjusted, _, done⟩
    cases done
  next =>
    cases pass
    rfl

theorem Loose.next {sz : Nat} {now : Contents Int} {last : Int} (loose : Loose sz now last)
    (covers : span.Covers 0 (sz - 1)) (small : sz ≤ 2 ^ 31) {fuel : Nat} (enough : sz < fuel)
    {next : Contents Int × Int} (pass : extractPass span fuel (now, last) = .ok (.again next)) :
    last > 0 ∧ next.2 = last - 1 ∧ Rearranges 0 (last - 2) (exchangeAt now 0 last) next.1 ∧
      Loose sz next.1 next.2 := by
  have more := (extractPass_again pass).1
  rcases loose.pass covers small more fuel enough with ⟨after, again, rearranges, kept⟩
  rw [again] at pass
  cases pass
  exact ⟨more, rfl, rearranges, kept⟩

/-- The entries behind `last` are in order, and none before is greater. -/
structure Behind (sz : Nat) (now : Contents Int) (last : Int) : Prop where
  tail : MonotoneOn now (Set.Icc (last + 1) (sz - 1 : Int))
  above : ∀ x y, 0 ≤ x → x ≤ last → last < y → y < sz → now x ≤ now y

theorem Behind.pass {sz : Nat} {now after : Contents Int} {last : Int} (behind : Behind sz now last)
    (more : last > 0) (rearranges : Rearranges 0 (last - 2) (exchangeAt now 0 last) after)
    (greatest : ∀ place, 0 ≤ place → place ≤ last → now place ≤ now 0) :
    Behind sz after (last - 1) := by
  have stays : ∀ y, last < y → after y = now y := by
    intro y yBehind
    rw [rearranges.unchanged (by omega), exchangeAt_of_ne (by omega) (by omega)]
  have atLast : after last = now 0 := by
    rw [rearranges.unchanged (by omega), exchangeAt_right]
  have least : ∀ y, last ≤ y → y < sz → now 0 ≤ after y := by
    intro y yBehind yWithin
    rcases eq_or_lt_of_le yBehind with rfl | less
    · exact le_of_eq atLast.symm
    · rw [stays y less]
      exact behind.above 0 y (le_refl _) (by omega) less yWithin
  have before : ∀ x, 0 ≤ x → x ≤ last - 1 → after x ≤ now 0 := by
    refine (rearranges.mono (le_refl 0) (show last - 2 ≤ last - 1 by omega)).forall_inside
      (fun entry => entry ≤ now 0) ?_
    intro place placeAbove placeBelow
    exact (Rearranges.exchange (le_refl 0) (by omega) (by omega) (le_refl last) now).forall_inside
      (fun entry => entry ≤ now 0) greatest place placeAbove (by omega)
  refine ⟨?_, ?_⟩
  · rw [Int.sub_add_cancel]
    intro x xInside y yInside le
    rw [Set.mem_Icc] at xInside yInside
    rcases eq_or_lt_of_le xInside.1 with rfl | less
    · rw [atLast]
      exact least y le (by omega)
    · rw [stays x less, stays y (by omega)]
      exact behind.tail ⟨by omega, xInside.2⟩ ⟨by omega, yInside.2⟩ le
  · intro x y xAbove xBelow yBehind yWithin
    exact (before x xAbove xBelow).trans (least y (by omega) yWithin)

/-- The entry at `last` is not greater than the first one. -/
def Topped (state : Contents Int × Int) : Prop := state.2 > 0 → state.1 state.2 ≤ state.1 0

theorem extract_sorts {sz : Nat} {last : Int} (covers : span.Covers 0 (sz - 1))
    (small : sz ≤ 2 ^ 31) (loose : Loose sz a last) (behind : Behind sz a last) (fuel : Nat)
    (enough : sz < fuel) (every : EveryPass (extractPass span fuel) Topped fuel (a, last)) :
    ∃ after, repeatLoop (extractPass span fuel) fuel (a, last) = .ok after ∧
      SortedFrom 0 (sz - 1) a after := by
  have bounds := loose.range
  refine repeatLoop_total_every Topped
    (fun bound (state : Contents Int × Int) => state.2.toNat = bound ∧ Loose sz state.1 state.2 ∧
      Behind sz state.1 state.2 ∧ Rearranges 0 (sz - 1) a state.1)
    (fun after => SortedFrom 0 (sz - 1) a after) ?_ fuel last.toNat (a, last)
    ⟨rfl, loose, behind, .refl _ _ a⟩ (by omega) every
  rintro bound ⟨now, last⟩ ⟨rfl, loose, behind, rearranges⟩ topped
  simp only at loose behind rearranges
  have range := loose.range
  by_cases more : last > 0
  · rcases loose.pass covers small more fuel enough with ⟨after, pass, moved, kept⟩
    have greatest : ∀ place, 0 ≤ place → place ≤ last → now place ≤ now 0 := by
      intro place above below
      rcases eq_or_lt_of_le below with rfl | before
      · exact topped more
      · exact loose.heap.greatest above (by omega)
    have exchanged : Rearranges 0 (sz - 1) now (exchangeAt now 0 last) :=
      .exchange (le_refl 0) (by omega) (by omega) (by omega) now
    exact Or.inl ⟨_, (last - 1).toNat, pass, by simp only; omega, rfl, kept,
      behind.pass more moved greatest,
      (rearranges.trans exchanged).trans (moved.mono (le_refl 0) (by omega))⟩
  · refine Or.inr ⟨now, if_neg more, rearranges, monotoneOn_of_parts ?_ behind.tail ?_⟩
    · exact monotoneOn_single now (by omega)
    · intro x y xAbove xBelow yAbove yBelow
      exact behind.above x y xAbove (by omega) (by omega) (by omega)

theorem extract_rearranges {sz : Nat} {last : Int} (covers : span.Covers 0 (sz - 1))
    (small : sz ≤ 2 ^ 31) (loose : Loose sz a last) {fuel passes : Nat} (enough : sz < fuel)
    {after : Contents Int}
    (returned : repeatLoop (extractPass span fuel) passes (a, last) = .ok after) :
    Rearranges 0 last a after := by
  refine repeatLoop_partial
    (fun state : Contents Int × Int => state.2 ≤ last ∧ Loose sz state.1 state.2 ∧
      Rearranges 0 last a state.1)
    (fun after => Rearranges 0 last a after) ?_ ?_ passes (a, last) after
    ⟨le_refl _, loose, .refl _ _ a⟩ returned
  · rintro ⟨now, index⟩ next ⟨below, loose, rearranges⟩ pass
    simp only at below loose rearranges
    rcases loose.next covers small enough pass with ⟨more, before, moved, kept⟩
    have exchanged : Rearranges 0 last now (exchangeAt now 0 index) :=
      .exchange (le_refl 0) (by omega) (by omega) below now
    exact ⟨by omega, kept,
      (rearranges.trans exchanged).trans (moved.mono (le_refl 0) (by omega))⟩
  · rintro ⟨now, index⟩ result ⟨_, _, rearranges⟩ pass
    rw [extractPass_leave pass]
    exact rearranges

/-- A greater entry at `last` ends up before the entry that takes its place. -/
theorem topped_of_sorted {sz : Nat} {last : Int} (covers : span.Covers 0 (sz - 1))
    (small : sz ≤ 2 ^ 31) (loose : Loose sz a last) {fuel passes : Nat} (enough : sz < fuel)
    {result : Contents Int}
    (returned : repeatLoop (extractPass span fuel) passes (a, last) = .ok result)
    (sorted : MonotoneOn result (Set.Icc 0 (sz - 1 : Int))) : Topped (a, last) := by
  intro more
  simp only at more ⊢
  have range := loose.range
  cases passes with
  | zero => cases returned
  | succ passes =>
      rcases loose.pass covers small more fuel enough with ⟨after, again, moved, kept⟩
      rw [repeatLoop_again _ again] at returned
      have later := extract_rearranges covers small kept enough returned
      have atLast : result last = a 0 := by
        rw [later.unchanged (by omega), moved.unchanged (by omega), exchangeAt_right]
      rcases ((moved.mono (le_refl 0) (show last - 2 ≤ last - 1 by omega)).trans later).symm.origin
        (le_refl 0) (by omega) with ⟨source, above, below, same⟩
      rw [exchangeAt_left] at same
      rw [same, ← atLast]
      exact sorted ⟨above, by omega⟩ ⟨by omega, by omega⟩ (by omega)

/-! ## Lengths beyond the range of `int` -/

theorem largerChild_range {child n chosen : Nat} (inside : child < n)
    (found : largerChild span a child n = .ok chosen) : child ≤ chosen ∧ chosen < n := by
  rw [largerChild] at found
  split at found
  next two =>
    rcases Outcome.bind_eq_ok found with ⟨left, _, rest⟩
    rcases Outcome.bind_eq_ok rest with ⟨right, _, done⟩
    cases done
    split <;> omega
  next =>
    cases found
    exact ⟨le_refl _, inside⟩

/-- A pass goes round again only with an exchange among the first `n` entries, of one that is less
than the other. -/
theorem adjustPass_again {n parent : Nat} {next : Contents Int × Nat}
    (pass : adjustPass span n (a, parent) = .ok (.again next)) :
    ∃ child : Nat, parent ≤ child ∧ child < n ∧ a parent < a child ∧
      next = (exchangeAt a parent child, child) := by
  rw [adjustPass] at pass
  split at pass
  next more =>
    rcases Outcome.bind_eq_ok pass with ⟨child, chosen, rest⟩
    rcases Outcome.bind_eq_ok rest with ⟨above, aboveLoaded, rest⟩
    rcases Outcome.bind_eq_ok rest with ⟨below, belowLoaded, rest⟩
    have range := largerChild_range more chosen
    cases (load_eq_ok aboveLoaded).2
    cases (load_eq_ok belowLoaded).2
    split at rest
    next less =>
      rcases Outcome.bind_eq_ok rest with ⟨after, swapped, done⟩
      cases (swapAt_eq_ok swapped).2.2
      cases done
      exact ⟨child, by omega, range.2, less, rfl⟩
    next => cases rest
  next => cases pass

theorem adjustPass_leave {n parent : Nat} {result : Contents Int}
    (pass : adjustPass span n (a, parent) = .ok (.leave result)) : result = a := by
  rw [adjustPass] at pass
  split at pass
  next =>
    rcases Outcome.bind_eq_ok pass with ⟨child, _, rest⟩
    rcases Outcome.bind_eq_ok rest with ⟨above, _, rest⟩
    rcases Outcome.bind_eq_ok rest with ⟨below, _, rest⟩
    split at rest
    next =>
      rcases Outcome.bind_eq_ok rest with ⟨after, _, done⟩
      cases done
    next =>
      cases rest
      rfl
  next =>
    cases pass
    rfl

theorem adjustDown_outside {fuel parent n : Nat} {after : Contents Int}
    (returned : adjustDown span fuel a parent n = .ok after) (place : Int) (behind : n ≤ place) :
    after place = a place := by
  refine repeatLoop_partial (fun state : Contents Int × Nat => state.1 place = a place)
    (fun after => after place = a place) ?_ ?_ fuel (a, parent) after rfl returned
  · rintro ⟨now, hole⟩ next same pass
    rcases adjustPass_again pass with ⟨child, above, inside, _, rfl⟩
    simp only at same ⊢
    rw [exchangeAt_of_ne (by omega) (by omega), same]
  · rintro ⟨now, hole⟩ result same pass
    rw [adjustPass_leave pass]
    exact same

/-- In a falling array nothing moves. -/
theorem adjustDown_falling {fuel parent n : Nat} {after : Contents Int}
    (falling : ∀ x y, x ≤ y → a y ≤ a x) (returned : adjustDown span fuel a parent n = .ok after) :
    after = a := by
  refine repeatLoop_partial (fun state : Contents Int × Nat => state.1 = a) (fun after => after = a)
    ?_ ?_ fuel (a, parent) after rfl returned
  · rintro ⟨now, hole⟩ next same pass
    simp only at same
    subst same
    rcases adjustPass_again pass with ⟨child, above, _, less, _⟩
    have notLess := falling hole child (by omega)
    omega
  · rintro ⟨now, hole⟩ result same pass
    rw [adjustPass_leave pass]
    exact same

theorem build_falling {fuel passes sz : Nat} {start : Int} {built : Contents Int}
    (falling : ∀ x y, x ≤ y → a y ≤ a x)
    (returned : repeatLoop (buildPass span fuel sz) passes (a, start) = .ok built) : built = a := by
  refine repeatLoop_partial (fun state : Contents Int × Int => state.1 = a) (fun built => built = a)
    ?_ ?_ passes (a, start) built rfl returned
  · rintro ⟨now, i⟩ next same pass
    simp only at same
    subst same
    rw [buildPass] at pass
    split at pass
    next =>
      rcases Outcome.bind_eq_ok pass with ⟨after, ran, done⟩
      cases done
      exact adjustDown_falling falling ran
    next => cases pass
  · rintro ⟨now, i⟩ result same pass
    rw [buildPass] at pass
    split at pass
    next =>
      rcases Outcome.bind_eq_ok pass with ⟨after, _, done⟩
      cases done
    next =>
      cases pass
      exact same

/-- Entries behind the first value of `end` stay where they are. -/
theorem extract_outside {fuel passes : Nat} {last : Int} {after : Contents Int}
    (high : last < 2 ^ 31)
    (returned : repeatLoop (extractPass span fuel) passes (a, last) = .ok after)
    (place : Int) (behind : last < place) : after place = a place := by
  refine repeatLoop_partial
    (fun state : Contents Int × Int => state.2 ≤ last ∧ state.1 place = a place)
    (fun after => after place = a place) ?_ ?_ passes (a, last) after ⟨le_refl _, rfl⟩ returned
  · rintro ⟨now, index⟩ next ⟨below, same⟩ pass
    simp only at below same
    rcases extractPass_again pass with ⟨more, adjusted, ran, rfl⟩
    have size : (toSize (index - 1) : Int) = index - 1 := toSize_eq (by omega) (by omega)
    have unchanged := adjustDown_outside ran place (by omega)
    rw [exchangeAt_of_ne (by omega) (by omega)] at unchanged
    exact ⟨by simp only; omega, unchanged.trans same⟩
  · rintro ⟨now, index⟩ result ⟨_, same⟩ pass
    rw [extractPass_leave pass]
    exact same

/-! ## The contract -/

/-- In every pass that takes apart what has been built, the entry at `end` is not greater than the
first one. -/
def AlwaysTopped (sz : Nat) (a : Contents Int) : Prop :=
  ∃ enough, ∀ fuel, enough ≤ fuel → ∀ built,
    repeatLoop (buildPass (.ofLength sz) fuel sz) fuel (a, toInt (toSize (sz - 2) / 2)) =
      .ok built →
    EveryPass (extractPass (.ofLength sz) fuel) Topped fuel (built, toInt (toSize (sz - 1)))

theorem heapSort_falling {sz : Nat} (large : 2 ^ 31 < sz) (isSize : sz < 2 ^ 64) :
    ¬Sorts (fun fuel a => heapSort (.ofLength sz) fuel a sz) 0 (sz - 1) fun place => -place := by
  rintro ⟨enough, sorts⟩
  rcases sorts enough (le_refl _) with ⟨after, returned, sorted⟩
  rcases Outcome.bind_eq_ok returned with ⟨built, building, extracting⟩
  cases build_falling (fun x y le => Int.neg_le_neg le) building
  have high := (toInt_range (toSize (sz - 1))).2
  have stays := extract_outside high extracting (sz - 1) (by omega)
  rcases sorted.rearranges.symm.origin (le_refl 0) (by omega) with ⟨source, above, below, same⟩
  have ordered := sorted.monotone ⟨above, below⟩ ⟨by omega, le_refl _⟩ below
  rw [stays, ← same] at ordered
  omega

/-- Up to `2 ^ 31` elements, `HeapSort` sorts exactly the arrays that never have a greater entry at
`end`. Of the longer arrays of each length it does not sort all. -/
theorem heapSort_sorts_iff {sz : Nat} (isSize : sz < 2 ^ 64) :
    (sz ≤ 2 ^ 31 → ∀ a, (Sorts (fun fuel a => heapSort (.ofLength sz) fuel a sz) 0 (sz - 1) a ↔
      AlwaysTopped sz a)) ∧
    (2 ^ 31 < sz → ∃ a, ¬Sorts (fun fuel a => heapSort (.ofLength sz) fuel a sz) 0 (sz - 1) a) := by
  refine ⟨fun small a => ?_, fun large => ⟨_, heapSort_falling large isSize⟩⟩
  have covers : (Span.ofLength sz).Covers 0 (sz - 1) := ⟨le_refl _, le_refl _⟩
  have start : toInt (toSize (sz - 1)) = sz - 1 := toInt_toSize (by omega) (by omega)
  have loose : ∀ {built : Contents Int}, MaxHeap built sz 0 → Loose sz built (sz - 1) :=
    fun heap => ⟨by omega, heap.shrink (by omega)⟩
  constructor
  · rintro ⟨enough, sorts⟩
    refine ⟨max enough (sz + 2), fun fuel larger built building => ?_⟩
    rcases sorts fuel (by omega) with ⟨after, returned, sorted⟩
    simp only [heapSort, building, Outcome.ok_bind, start] at returned
    rcases build_spec covers small fuel (by omega) with ⟨other, otherBuilding, _, heap⟩
    cases repeatLoop_unique otherBuilding building
    rw [start]
    refine everyPass_of_returned (fun state : Contents Int × Int => Loose sz state.1 state.2) Topped
      (fun result => MonotoneOn result (Set.Icc 0 (sz - 1 : Int))) ?_ ?_ fuel (built, sz - 1) after
      (loose heap) returned sorted.monotone
    · rintro ⟨now, last⟩ next loose pass
      exact (loose.next covers small (by omega) pass).2.2.2
    · rintro passes ⟨now, last⟩ result loose ran monotone
      exact topped_of_sorted covers small loose (by omega) ran monotone
  · rintro ⟨enough, topped⟩
    refine ⟨max enough (sz + 2), fun fuel larger => ?_⟩
    rcases build_spec (a := a) covers small fuel (by omega) with ⟨built, building, rearranges, heap⟩
    have every := topped fuel (by omega) built building
    rw [start] at every
    have behind : Behind sz built (sz - 1) := by
      refine ⟨monotoneOn_single built (by omega), ?_⟩
      intro x y _ _ behind within
      omega
    rcases extract_sorts covers small (loose heap) behind fuel (by omega) every with
      ⟨after, extracting, sorted⟩
    refine ⟨after, ?_, rearranges.trans sorted.rearranges, sorted.monotone⟩
    simp only [heapSort, building, Outcome.ok_bind, start]
    exact extracting

theorem heapSort_sorts_iff_two :
    Sorts (fun fuel a => heapSort (.ofLength 2) fuel a 2) 0 ((2 : Nat) - 1)
      fun place => -place := by
  have contract :=
    (heapSort_sorts_iff (show 2 < 2 ^ 64 by decide)).1 (by decide) fun place => -place
  refine contract.mpr ⟨5, fun fuel larger built building => ?_⟩
  have positive : ∃ rest, fuel = rest + 5 := ⟨fuel - 5, by omega⟩
  rcases positive with ⟨rest, rfl⟩
  cases build_falling (fun x y le => Int.neg_le_neg le) building
  have first : ∃ after, extractPass (.ofLength 2) (rest + 5) (fun place => -place, 1) =
      .ok (.again (after, 0)) := ⟨_, rfl⟩
  refine ⟨fun _ => by decide, fun next pass => ?_⟩
  rcases first with ⟨after, again⟩
  cases again.symm.trans pass
  refine ⟨fun impossible => absurd impossible (lt_irrefl 0), fun next pass => ?_⟩
  have leave : extractPass (.ofLength 2) (rest + 5) (after, 0) = .ok (.leave after) := rfl
  cases leave.symm.trans pass

/-- The entries 3, 2 and 1. -/
theorem heapSort_of_decreasing :
    ¬Sorts (fun fuel a => heapSort (.ofLength 3) fuel a 3) 0 ((3 : Nat) - 1)
      fun place => 3 - place := by
  rintro ⟨enough, sorts⟩
  rcases sorts (enough + 5) (by omega) with ⟨after, returned, sorted⟩
  have ran : ∃ result, heapSort (.ofLength 3) (enough + 5) (fun place => 3 - place) 3 = .ok result ∧
      result 0 = 2 ∧ result 1 = 1 := ⟨_, rfl, rfl, rfl⟩
  rcases ran with ⟨result, ran, first, second⟩
  cases ran.symm.trans returned
  have ordered := sorted.monotone (a := 0) (b := 1) (by decide) (by decide) (by decide)
  omega

end DataStructAlgorithm.Algorithm.Sort
