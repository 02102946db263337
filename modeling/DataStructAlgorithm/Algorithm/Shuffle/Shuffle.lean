import Mathlib.Algebra.Group.Nat.Defs
import DataStructAlgorithm.Foundation.Shuffles
import DataStructAlgorithm.Foundation.Transition

/-! # The shuffles of `Algorithm/Shuffle/shuffle.cpp`

The number of cards is an argument, which the file fixes. The values that `rand` returns in
one call are given by the index of the loop that asks for them. -/

namespace DataStructAlgorithm.Algorithm.Shuffle

open Foundation

/-- `BUFFSIZE` -/
def buffSize : Nat := 54

/-- `RAND_MAX` -/
def randMax : Nat := 2 ^ 31 - 1

/-- The offsets of `m_v`, whose first entry is not a card. -/
def deckSpan (size : Nat) : Span := .ofLength (size + 1)

/-- The indices of the loops, which start behind the first entry. -/
def indices (size : Nat) : List Nat := List.range' 1 size

/-- `m_v[i] = i` -/
def setCard (size : Nat) (mV : Contents Int) (i : Nat) : Outcome (Contents Int) :=
  store (deckSpan size) mV i i

/-- The constructor `Solution()`, where the vector has been resized. -/
def new (size : Nat) : Outcome (Contents Int) :=
  runAll (setCard size) (fun _ => 0) (indices size)

/-- The loop of both shuffles: every card is exchanged with the one at its random index. -/
def exchangeCards (size : Nat) (randIdx : Nat → Nat) (mV : Contents Int) :
    Outcome (Contents Int) :=
  runAll (fun mV (i : Nat) => swapAt (deckSpan size) mV i (randIdx i)) mV (indices size)

/-- The index of `shuffle` for a value of `rand`. The arithmetic is the one of unsigned
numbers of 32 bits, which the values do not leave. -/
def shuffleIdx (size value : Nat) : Nat := 1 + value / ((randMax + 1) / size)

/-- `shuffle` -/
def shuffle (size : Nat) (mV : Contents Int) (rand : Nat → Nat) : Outcome (Contents Int) :=
  exchangeCards size (fun i => shuffleIdx size (rand i)) mV

/-- The index of `shuffle_pro` in one pass of the loop. -/
def shuffleProIdx (size i value : Nat) : Nat := i + value % (size - i + 1)

/-- `shuffle_pro` -/
def shufflePro (size : Nat) (mV : Contents Int) (rand : Nat → Nat) : Outcome (Contents Int) :=
  exchangeCards size (fun i => shuffleProIdx size i (rand i)) mV

/-! ## The check -/

/-- The offsets of the array `legal`. -/
def legalSpan : Span := .ofLength 55

/-- `legal[m_v[i]]++` -/
def countCard (size : Nat) (mV : Contents Int) (legal : Contents Nat) (i : Nat) :
    Outcome (Contents Nat) := do
  let card ← load (deckSpan size) mV i
  let count ← load legalSpan legal card
  store legalSpan legal card (count + 1)

/-- The second loop of `isLegal`. -/
def noneMissing (legal : Contents Nat) : List Nat → Outcome Bool
  | [] => .ok true
  | i :: rest => do
      let count ← load legalSpan legal i
      if count = 0 then pure false else noneMissing legal rest

/-- `isLegal` -/
def isLegal (size : Nat) (mV : Contents Int) : Outcome Bool := do
  let legal ← runAll (countCard size mV) (fun _ => 0) (indices size)
  noneMissing legal (indices size)

/-! ## The new deck -/

/-- The deck that the constructor makes. -/
def ordered (size : Nat) : Contents Int := fun place =>
  if 1 ≤ place ∧ place ≤ size then place else 0

variable {size : Nat}

theorem deckSpan_covers (size : Nat) : (deckSpan size).Covers 0 size :=
  Span.ofLength_covers (Int.le_refl 0) (by omega)

theorem mem_indices {i : Nat} : i ∈ indices size ↔ 1 ≤ i ∧ i ≤ size := by
  rw [indices, List.mem_range'_1]
  omega

theorem fill_spec (start count : Nat) (within : start + count ≤ size + 1) (mV : Contents Int) :
    runAll (setCard size) mV (List.range' start count) =
      .ok fun place => if start ≤ place ∧ place < start + count then place else mV place := by
  induction count generalizing start mV with
  | zero =>
      rw [List.range'_zero, runAll]
      apply congrArg
      funext place
      rw [if_neg (by omega)]
  | succ count induction =>
      have stored := (deckSpan_covers size).store_eq mV start start (by omega) (by omega)
      rw [List.range'_succ, runAll, setCard, stored, Outcome.ok_bind, induction (start + 1) (by omega)]
      apply congrArg
      funext place
      by_cases isStart : place = start
      · rw [if_neg (by omega), isStart, Function.update_self, if_pos (by omega)]
      · rw [Function.update_of_ne isStart]
        by_cases later : (start : Int) ≤ place ∧ place < (start : Int) + ((count + 1 : Nat) : Int)
        · rw [if_pos later, if_pos (by omega)]
        · rw [if_neg later, if_neg (by omega)]

theorem new_eq (size : Nat) : new size = .ok (ordered size) := by
  rw [new, indices, fill_spec 1 size (by omega)]
  apply congrArg
  funext place
  rw [ordered]
  by_cases inside : 1 ≤ place ∧ place ≤ size
  · rw [if_pos inside, if_pos (by omega)]
  · rw [if_neg inside, if_neg (by omega)]

theorem ordered_injOn (size : Nat) : Set.InjOn (ordered size) (Set.Icc 1 size) := by
  intro place within other otherWithin same
  rw [ordered, ordered, if_pos (Set.mem_Icc.mp within), if_pos (Set.mem_Icc.mp otherWithin)] at same
  exact same

/-- The cards are there, each once, and the first entry is none of them. -/
structure IsDeck (size : Nat) (mV : Contents Int) : Prop where
  first : mV 0 = 0
  cards : Set.BijOn mV (Set.Icc 1 size) (Set.Icc 1 size)

theorem isDeck_of_rearranges {mV : Contents Int} (rearranges : Rearranges 1 size (ordered size) mV) :
    IsDeck size mV := by
  refine ⟨rearranges.unchanged (Or.inl Int.zero_lt_one), ?_⟩
  rcases rearranges with ⟨moves, fixed, rfl⟩
  have inside : Set.MapsTo moves (Set.Icc 1 size) (Set.Icc 1 size) := by
    intro place within
    exact Set.mem_Icc.mpr (Rearranges.moves_inside fixed within.1 within.2)
  have same : Set.EqOn moves (ordered size ∘ moves) (Set.Icc 1 size) := by
    intro place within
    have range := Set.mem_Icc.mp (inside within)
    rw [Function.comp_apply, ordered, if_pos range]
  have onto := ((Set.finite_Icc 1 (size : Int)).injOn_iff_bijOn_of_mapsTo inside).mp
    moves.injective.injOn
  exact onto.congr same

end DataStructAlgorithm.Algorithm.Shuffle
