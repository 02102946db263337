import Mathlib.Order.Lattice
import DataStructAlgorithm.Foundation.Outcome

/-! # The order of a binary heap

The cell at `index` has its parent at `(index - 1) / 2`. Its cells may be empty, and the values in
them are compared by a key. While a heap is built from its end, only the parents from some index
on are in order. -/

namespace DataStructAlgorithm.Foundation

variable {Value : Type u} {Key : Type v} [LinearOrder Key]

/-- A parent is not greater than its child. -/
def ParentLe (key : Value → Key) (cells : Nat → Option Value) (child : Nat) : Prop :=
  ∀ upper lower, cells ((child - 1) / 2) = some upper → cells child = some lower →
    key upper ≤ key lower

/-- No parent from `floor` on is greater than its children. -/
def HeapFrom (key : Value → Key) (cells : Nat → Option Value) (floor : Nat) : Prop :=
  ∀ child > 0, floor ≤ (child - 1) / 2 → ParentLe key cells child

/-- All parents from `floor` on are in order, but the value at `hole` can be greater than its
children. -/
structure SinkingFrom (key : Value → Key) (cells : Nat → Option Value) (floor hole : Nat) :
    Prop where
  within : floor ≤ hole
  others : ∀ child > 0, floor ≤ (child - 1) / 2 → (child - 1) / 2 ≠ hole → ParentLe key cells child
  across : hole > 0 → floor ≤ (hole - 1) / 2 → ∀ child > 0, (child - 1) / 2 = hole →
    ∀ upper lower, cells ((hole - 1) / 2) = some upper → cells child = some lower →
      key upper ≤ key lower

variable {key : Value → Key} {cells after : Nat → Option Value} {floor hole : Nat}

/-- The first value of a heap is the smallest. -/
theorem HeapFrom.first_le (heap : HeapFrom key cells 0)
    (filled : ∀ index value, cells index = some value →
      ∃ upper, cells ((index - 1) / 2) = some upper)
    {first : Value} (isFirst : cells 0 = some first) (index : Nat) {value : Value}
    (found : cells index = some value) : key first ≤ key value := by
  induction index using Nat.strongRecOn generalizing value with
  | ind index induction =>
      rcases Nat.eq_zero_or_pos index with rfl | positive
      · rw [isFirst] at found
        cases found
        exact le_refl _
      · rcases filled index value found with ⟨upper, upperFound⟩
        have above := induction ((index - 1) / 2) (by omega) upperFound
        exact le_trans above (heap index positive (Nat.zero_le _) upper value upperFound found)

/-- The next parent to be put in order. -/
theorem HeapFrom.sinking (heap : HeapFrom key cells (floor + 1)) :
    SinkingFrom key cells floor floor := by
  refine ⟨Nat.le_refl _, ?_, fun positive inside => by omega⟩
  intro child positive inside notFloor
  exact heap child positive (by omega)

/-- A new first value, in a heap that may have lost some of the others. -/
theorem HeapFrom.replace_first (heap : HeapFrom key cells 0)
    (others : ∀ index > 0, after index = cells index ∨ after index = none) :
    SinkingFrom key after 0 0 := by
  refine ⟨Nat.le_refl _, ?_, fun positive => absurd positive (Nat.lt_irrefl 0)⟩
  intro child positive _ notFirst upper lower upperFound lowerFound
  have kept : ∀ index > 0, ∀ value, after index = some value → cells index = some value := by
    intro index indexPositive value found
    rcases others index indexPositive with same | nothing
    · rw [← same, found]
    · rw [nothing] at found
      cases found
  exact heap child positive (Nat.zero_le _) upper lower
    (kept _ (Nat.pos_of_ne_zero notFirst) upper upperFound) (kept child positive lower lowerFound)

/-- One step down, to the smaller child. -/
theorem SinkingFrom.move {child : Nat} (sinking : SinkingFrom key cells floor hole)
    (positive : 0 < child) (isChild : (child - 1) / 2 = hole) {moved childValue : Value}
    (foundChild : cells child = some childValue) (smaller : key childValue < key moved)
    (least : ∀ sibling > 0, (sibling - 1) / 2 = hole → ∀ value, cells sibling = some value →
      key childValue ≤ key value)
    (exchanged : ∀ index, after index = if index = hole then some childValue
      else if index = child then some moved else cells index) :
    SinkingFrom key after floor child := by
  have within := sinking.within
  refine ⟨by omega, ?_, ?_⟩
  · intro other otherPositive inside otherParent upper lower upperFound lowerFound
    rw [exchanged] at upperFound lowerFound
    rw [if_neg otherParent] at upperFound
    by_cases isSibling : (other - 1) / 2 = hole
    · have notHole : other ≠ hole := by omega
      rw [if_pos isSibling] at upperFound
      rw [if_neg notHole] at lowerFound
      cases upperFound
      by_cases same : other = child
      · rw [if_pos same] at lowerFound
        cases lowerFound
        exact le_of_lt smaller
      · rw [if_neg same] at lowerFound
        exact least other otherPositive isSibling lower lowerFound
    · rw [if_neg isSibling] at upperFound
      by_cases isHole : other = hole
      · rw [if_pos isHole] at lowerFound
        cases lowerFound
        subst isHole
        exact sinking.across otherPositive inside child positive isChild upper _ upperFound
          foundChild
      · have notChild : other ≠ child := fun same => isSibling (same ▸ isChild)
        rw [if_neg isHole, if_neg notChild] at lowerFound
        exact sinking.others other otherPositive inside isSibling upper lower upperFound lowerFound
  · intro _ _ other otherPositive otherParent upper lower upperFound lowerFound
    have notHole : other ≠ hole := by omega
    have notChild : other ≠ child := by omega
    rw [exchanged, if_pos isChild] at upperFound
    rw [exchanged, if_neg notHole, if_neg notChild] at lowerFound
    cases upperFound
    exact sinking.others other otherPositive (by omega) (by omega) _ lower
      (otherParent ▸ foundChild) lowerFound

/-- The end of the way down. -/
theorem SinkingFrom.finish (sinking : SinkingFrom key cells floor hole)
    (settled : ∀ child > 0, (child - 1) / 2 = hole → ParentLe key cells child) :
    HeapFrom key cells floor := by
  intro child positive inside
  by_cases isChild : (child - 1) / 2 = hole
  · exact settled child positive isChild
  · exact sinking.others child positive inside isChild

/-- A loop that puts one parent after the other in order, from the last one to the first. -/
theorem build_heap {State : Type w} (cells : State → Nat → Option Value) (keeps : State → Prop)
    {body : State × Int → Outcome (Pass (State × Int) State)} {last : Int}
    (again : ∀ now, ∀ parent : Nat, parent ≤ last → keeps now →
      SinkingFrom key (cells now) parent parent → ∃ next,
        body (now, parent) = .ok (.again (next, parent - 1)) ∧ keeps next ∧
          HeapFrom key (cells next) parent)
    (leave : ∀ now, body (now, -1) = .ok (.leave now)) {start : State} (kept : keeps start)
    (low : -1 ≤ last) (heap : HeapFrom key (cells start) (last + 1).toNat) (fuel : Nat)
    (enough : (last + 1).toNat < fuel) :
    ∃ built, repeatLoop body fuel (start, last) = .ok built ∧ keeps built ∧
      HeapFrom key (cells built) 0 := by
  refine repeatLoop_total
    (fun bound (state : State × Int) => (state.2 + 1).toNat = bound ∧ -1 ≤ state.2 ∧
      state.2 ≤ last ∧ keeps state.1 ∧ HeapFrom key (cells state.1) (state.2 + 1).toNat)
    (fun built => keeps built ∧ HeapFrom key (cells built) 0) ?_ fuel _ (start, last)
    ⟨rfl, low, Int.le_refl last, kept, heap⟩ enough
  rintro bound ⟨now, index⟩ ⟨rfl, low, high, kept, heap⟩
  simp only at low high kept heap
  rcases Int.lt_or_eq_of_le low with more | rfl
  · rcases Int.eq_ofNat_of_zero_le (show 0 ≤ index by omega) with ⟨parent, rfl⟩
    have floor : ((parent : Int) + 1).toNat = parent + 1 := by omega
    have next : ((parent : Int) - 1 + 1).toNat = parent := by omega
    rw [floor] at heap
    rcases again now parent high kept heap.sinking with ⟨after, pass, afterKept, done⟩
    rw [← next] at done
    exact Or.inl ⟨(after, parent - 1), parent, pass, by simp only; omega, next,
      by simp only; omega, by simp only; omega, afterKept, done⟩
  · exact Or.inr ⟨now, leave now, kept, heap⟩

end DataStructAlgorithm.Foundation
