import Mathlib.Logic.Equiv.Basic
import Mathlib.Order.Interval.Finset.Nat
import Mathlib.Data.Int.Interval
import Mathlib.Data.Int.ConditionallyCompleteOrder
import Mathlib.Order.ConditionallyCompleteLattice.Basic
import DataStructAlgorithm.Foundation.Outcome

/-! # Arrays behind a pointer

An array is what stands at the offsets from a pointer. The offsets that code may access are
a span, and access anywhere else is a fault: code that returns has not left the span. -/

namespace DataStructAlgorithm.Foundation

variable {Entry : Type u}

/-- What stands at each offset. -/
abbrev Contents (Entry : Type u) := Int → Entry

/-- The offsets that may be accessed, the last one included. -/
structure Span where
  first : Int
  last : Int
  deriving DecidableEq, Repr

/-- The offsets of an array that starts at the pointer. -/
def Span.ofLength (length : Nat) : Span := ⟨0, length - 1⟩

/-- All offsets from `low` to `high` may be accessed. -/
def Span.Covers (span : Span) (low high : Int) : Prop := span.first ≤ low ∧ high ≤ span.last

def load (span : Span) (a : Contents Entry) (offset : Int) : Outcome Entry :=
  if span.first ≤ offset ∧ offset ≤ span.last then .ok (a offset) else .error .outOfRange

def store (span : Span) (a : Contents Entry) (offset : Int) (entry : Entry) :
    Outcome (Contents Entry) :=
  if span.first ≤ offset ∧ offset ≤ span.last then .ok (Function.update a offset entry)
  else .error .outOfRange

/-- The entries of two offsets, exchanged with a third variable. -/
def swapAt (span : Span) (a : Contents Entry) (left right : Int) : Outcome (Contents Entry) := do
  let tamp ← load span a left
  let entry ← load span a right
  let a ← store span a left entry
  store span a right tamp

/-- An array with the entries of two offsets exchanged. -/
def exchangeAt (a : Contents Entry) (left right : Int) : Contents Entry := a ∘ Equiv.swap left right

theorem Span.ofLength_covers {length : Nat} {low high : Int} (above : 0 ≤ low)
    (below : high < length) : (Span.ofLength length).Covers low high :=
  ⟨above, Int.le_sub_one_of_lt below⟩

section Access

variable {span : Span} {a : Contents Entry} {low high offset left right : Int}

theorem Span.Covers.load_eq (covers : span.Covers low high) (a : Contents Entry) (offset : Int)
    (above : low ≤ offset) (below : offset ≤ high) : load span a offset = .ok (a offset) :=
  if_pos ⟨Int.le_trans covers.1 above, Int.le_trans below covers.2⟩

theorem Span.Covers.store_eq (covers : span.Covers low high) (a : Contents Entry) (offset : Int)
    (entry : Entry) (above : low ≤ offset) (below : offset ≤ high) :
    store span a offset entry = .ok (Function.update a offset entry) :=
  if_pos ⟨Int.le_trans covers.1 above, Int.le_trans below covers.2⟩

theorem load_eq_ok {entry : Entry} (loaded : load span a offset = .ok entry) :
    (span.first ≤ offset ∧ offset ≤ span.last) ∧ entry = a offset := by
  rw [load] at loaded
  split at loaded
  next inside =>
    cases loaded
    exact ⟨inside, rfl⟩
  next => cases loaded

theorem store_eq_ok {entry : Entry} {after : Contents Entry}
    (stored : store span a offset entry = .ok after) : after = Function.update a offset entry := by
  rw [store] at stored
  split at stored
  next =>
    cases stored
    rfl
  next => cases stored

theorem load_outside (outside : offset < span.first ∨ span.last < offset) :
    load span a offset = .error .outOfRange :=
  if_neg (by omega)

theorem exchangeAt_apply (a : Contents Entry) (left right place : Int) :
    exchangeAt a left right place =
      if place = left then a right else if place = right then a left else a place := by
  rw [exchangeAt, Function.comp_apply, Equiv.swap_apply_def]
  split
  · rfl
  · split <;> rfl

@[simp] theorem exchangeAt_left (a : Contents Entry) (left right : Int) :
    exchangeAt a left right left = a right :=
  congrArg a (Equiv.swap_apply_left left right)

@[simp] theorem exchangeAt_right (a : Contents Entry) (left right : Int) :
    exchangeAt a left right right = a left :=
  congrArg a (Equiv.swap_apply_right left right)

theorem exchangeAt_of_ne {place : Int} (notLeft : place ≠ left) (notRight : place ≠ right) :
    exchangeAt a left right place = a place :=
  congrArg a (Equiv.swap_apply_of_ne_of_ne notLeft notRight)

@[simp] theorem exchangeAt_self (a : Contents Entry) (place : Int) :
    exchangeAt a place place = a := by
  rw [exchangeAt, Equiv.swap_self]
  rfl

theorem exchangeAt_comm (a : Contents Entry) (left right : Int) :
    exchangeAt a left right = exchangeAt a right left :=
  congrArg (a ∘ ·) (congrArg (⇑) (Equiv.swap_comm left right))

theorem exchangeAt_of_same (same : a left = a right) : exchangeAt a left right = a := by
  funext place
  rw [exchangeAt_apply]
  split
  next atLeft => rw [atLeft, same]
  next =>
    split
    next atRight => rw [atRight, same]
    next => rfl

theorem Span.Covers.swapAt_eq (covers : span.Covers low high) (a : Contents Entry)
    (left right : Int) (leftAbove : low ≤ left) (leftBelow : left ≤ high) (rightAbove : low ≤ right)
    (rightBelow : right ≤ high) :
    swapAt span a left right = .ok (exchangeAt a left right) := by
  rw [swapAt, covers.load_eq a left leftAbove leftBelow, Outcome.ok_bind,
    covers.load_eq a right rightAbove rightBelow, Outcome.ok_bind,
    covers.store_eq _ left _ leftAbove leftBelow, Outcome.ok_bind,
    covers.store_eq _ right _ rightAbove rightBelow]
  apply congrArg
  funext place
  rw [exchangeAt_apply, Function.update_apply, Function.update_apply]
  by_cases atRight : place = right
  · by_cases atLeft : place = left
    · rw [if_pos atRight, if_pos atLeft, ← atRight, ← atLeft]
    · rw [if_pos atRight, if_neg atLeft, if_pos atRight]
  · rw [if_neg atRight, if_neg atRight]

theorem swapAt_eq_ok {after : Contents Entry} (swapped : swapAt span a left right = .ok after) :
    (span.first ≤ left ∧ left ≤ span.last) ∧ (span.first ≤ right ∧ right ≤ span.last) ∧
      after = exchangeAt a left right := by
  rcases Outcome.bind_eq_ok swapped with ⟨tamp, leftLoaded, rest⟩
  rcases Outcome.bind_eq_ok rest with ⟨entry, rightLoaded, _⟩
  have leftInside := (load_eq_ok leftLoaded).1
  have rightInside := (load_eq_ok rightLoaded).1
  have covers : span.Covers span.first span.last := ⟨Int.le_refl _, Int.le_refl _⟩
  rw [covers.swapAt_eq a left right leftInside.1 leftInside.2 rightInside.1
    rightInside.2] at swapped
  exact ⟨leftInside, rightInside, (Except.ok.inj swapped).symm⟩

end Access

/-! ## Rearrangements -/

/-- A permutation of the offsets from `low` to `high` leads from one array to the other. -/
def Rearranges (low high : Int) (before after : Contents Entry) : Prop :=
  ∃ moves : Equiv.Perm Int, (∀ place, place < low ∨ high < place → moves place = place) ∧
    after = before ∘ moves

namespace Rearranges

variable {low high : Int} {a b c : Contents Entry}

/-- What fixes all offsets outside takes no offset out. -/
theorem moves_inside {moves : Equiv.Perm Int}
    (fixed : ∀ place, place < low ∨ high < place → moves place = place) {place : Int}
    (above : low ≤ place) (below : place ≤ high) : low ≤ moves place ∧ moves place ≤ high := by
  by_contra outside
  have stays := moves.injective (fixed (moves place) (by omega))
  omega

theorem refl (low high : Int) (a : Contents Entry) : Rearranges low high a a :=
  ⟨Equiv.refl Int, fun _ _ => rfl, rfl⟩

theorem symm (rearranges : Rearranges low high a b) : Rearranges low high b a := by
  rcases rearranges with ⟨moves, fixed, rfl⟩
  refine ⟨moves.symm, ?_, ?_⟩
  · intro place outside
    rw [Equiv.symm_apply_eq, fixed place outside]
  · funext place
    simp

theorem trans (first : Rearranges low high a b) (second : Rearranges low high b c) :
    Rearranges low high a c := by
  rcases first with ⟨moves, fixed, rfl⟩
  rcases second with ⟨others, otherFixed, rfl⟩
  refine ⟨others.trans moves, ?_, rfl⟩
  intro place outside
  rw [Equiv.trans_apply, otherFixed place outside, fixed place outside]

theorem mono {innerLow innerHigh : Int} (rearranges : Rearranges innerLow innerHigh a b)
    (lowLe : low ≤ innerLow) (highLe : innerHigh ≤ high) : Rearranges low high a b := by
  rcases rearranges with ⟨moves, fixed, rfl⟩
  exact ⟨moves, fun place outside => fixed place (by omega), rfl⟩

theorem unchanged (rearranges : Rearranges low high a b) {place : Int}
    (outside : place < low ∨ high < place) : b place = a place := by
  rcases rearranges with ⟨moves, fixed, rfl⟩
  rw [Function.comp_apply, fixed place outside]

/-- Every entry inside comes from inside. -/
theorem origin (rearranges : Rearranges low high a b) {place : Int} (above : low ≤ place)
    (below : place ≤ high) : ∃ source, low ≤ source ∧ source ≤ high ∧ b place = a source := by
  rcases rearranges with ⟨moves, fixed, rfl⟩
  have inside := moves_inside fixed above below
  exact ⟨moves place, inside.1, inside.2, rfl⟩

/-- What holds of all entries inside still does. -/
theorem forall_inside (rearranges : Rearranges low high a b) (holds : Entry → Prop)
    (before : ∀ place, low ≤ place → place ≤ high → holds (a place)) (place : Int)
    (above : low ≤ place) (below : place ≤ high) : holds (b place) := by
  rcases rearranges.origin above below with ⟨source, sourceAbove, sourceBelow, same⟩
  rw [same]
  exact before source sourceAbove sourceBelow

theorem exchange {left right : Int} (leftAbove : low ≤ left) (leftBelow : left ≤ high)
    (rightAbove : low ≤ right) (rightBelow : right ≤ high) (a : Contents Entry) :
    Rearranges low high a (exchangeAt a left right) := by
  refine ⟨Equiv.swap left right, ?_, rfl⟩
  intro place outside
  apply Equiv.swap_apply_of_ne_of_ne
  · omega
  · omega

end Rearranges

/-- Moving an entry into the hole and the hole to where the entry was is an exchange. -/
theorem update_update (a : Contents Entry) {hole place : Int} (apart : place ≠ hole)
    (entry : Entry) :
    Function.update (Function.update a hole (a place)) place entry =
      exchangeAt (Function.update a hole entry) place hole := by
  funext other
  rw [exchangeAt_apply, Function.update_apply]
  by_cases atPlace : other = place
  · rw [if_pos atPlace, if_pos atPlace, Function.update_self]
  · rw [if_neg atPlace, if_neg atPlace]
    by_cases atHole : other = hole
    · rw [if_pos atHole, atHole, Function.update_self, Function.update_of_ne apart]
    · rw [if_neg atHole, Function.update_of_ne atHole, Function.update_of_ne atHole]

/-! ## Sorted arrays -/

/-- The entries from `low` to `high` are those of another array in non-decreasing order, and
all others are as they were. -/
structure SortedFrom [Preorder Entry] (low high : Int) (before after : Contents Entry) : Prop where
  rearranges : Rearranges low high before after
  monotone : MonotoneOn after (Set.Icc low high)

/-- With enough fuel the code returns the entries from `low` to `high` in order, and leaves all
others as they were. -/
def Sorts [Preorder Entry] (code : (fuel : Nat) → Contents Entry → Outcome (Contents Entry))
    (low high : Int) (a : Contents Entry) : Prop :=
  ∃ enough, ∀ fuel, enough ≤ fuel → ∃ after, code fuel a = .ok after ∧ SortedFrom low high a after

/-- There is only one way to sort. -/
theorem SortedFrom.unique [LinearOrder Entry] {low high : Int} {a b c : Contents Entry}
    (first : SortedFrom low high a b) (second : SortedFrom low high a c) : b = c := by
  -- An entry that is too great leaves too few places for the entries below it.
  have notLess : ∀ {x y : Contents Entry}, Rearranges low high x y →
      MonotoneOn x (Set.Icc low high) → MonotoneOn y (Set.Icc low high) →
      ∀ place ∈ Set.Icc low high, y place ≤ x place := by
    intro x y rearranges xMonotone yMonotone place inside
    apply le_of_not_gt
    intro less
    rcases rearranges with ⟨moves, fixed, rfl⟩
    have maps : ∀ other ∈ Finset.Icc place high, moves other ∈ Finset.Icc (place + 1) high := by
      intro other member
      rw [Finset.mem_Icc] at member
      have within := Rearranges.moves_inside fixed (inside.1.trans member.1) member.2
      have atLeast : (x ∘ moves) place ≤ (x ∘ moves) other :=
        yMonotone inside ⟨inside.1.trans member.1, member.2⟩ member.1
      rw [Finset.mem_Icc]
      refine ⟨?_, within.2⟩
      by_contra early
      have atMost := xMonotone within inside (by omega)
      exact absurd (less.trans_le (atLeast.trans atMost)) (lt_irrefl _)
    have fewer := Finset.card_le_card_of_injOn moves maps moves.injective.injOn
    rw [Int.card_Icc, Int.card_Icc] at fewer
    have placeLe := inside.2
    omega
  funext place
  by_cases inside : place ∈ Set.Icc low high
  · have between := first.rearranges.symm.trans second.rearranges
    exact le_antisymm (notLess between.symm second.monotone first.monotone place inside)
      (notLess between first.monotone second.monotone place inside)
  · have outside : place < low ∨ high < place := by
      rw [Set.mem_Icc] at inside
      omega
    rw [first.rearranges.unchanged outside, second.rearranges.unchanged outside]

end DataStructAlgorithm.Foundation
