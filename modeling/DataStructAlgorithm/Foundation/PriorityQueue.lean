import Mathlib.Order.Lattice
import Mathlib.Data.List.Perm.Basic

/-! # Priority queues

What a priority queue promises: the element on top is one that no other element is
greater than. Which one, when there are several, is left open. -/

namespace DataStructAlgorithm.Foundation

universe u

/-- A priority queue for the comparison `less`. The top of an empty queue is not
defined. -/
structure PriorityQueue (Element : Type u) (less : Element → Element → Prop) where
  State : Type u
  empty : State
  push : Element → State → State
  top : State → Option Element
  pop : State → State
  contents : State → List Element
  contents_empty : contents empty = []
  contents_push : ∀ element state, (contents (push element state)).Perm (element :: contents state)
  top_empty : ∀ state, contents state = [] → top state = none
  top_greatest : ∀ state, contents state ≠ [] → ∃ element, top state = some element ∧
    (element :: contents (pop state)).Perm (contents state) ∧
    ∀ other ∈ contents state, ¬less element other

namespace PriorityQueue

variable {Element : Type u} {less : Element → Element → Prop}

/-- The elements in the order in which the queue gives them back. -/
def popped (queue : PriorityQueue Element less) : Nat → queue.State → List Element
  | 0, _ => []
  | count + 1, state =>
      match queue.top state with
      | none => []
      | some element => element :: popped queue count (queue.pop state)

def drain (queue : PriorityQueue Element less) (state : queue.State) : List Element :=
  queue.popped (queue.contents state).length state

theorem drain_of_empty (queue : PriorityQueue Element less) {state : queue.State}
    (empty : queue.contents state = []) : queue.top state = none ∧ queue.drain state = [] := by
  refine ⟨queue.top_empty state empty, ?_⟩
  rw [drain, empty]
  rfl

/-- The first element that comes out, and the others. -/
theorem drain_of_nonempty (queue : PriorityQueue Element less) {state : queue.State}
    (nonempty : queue.contents state ≠ []) : ∃ element, queue.top state = some element ∧
      queue.drain state = element :: queue.drain (queue.pop state) ∧
      (element :: queue.contents (queue.pop state)).Perm (queue.contents state) ∧
      ∀ other ∈ queue.contents state, ¬less element other := by
  rcases queue.top_greatest state nonempty with ⟨element, onTop, same, greatest⟩
  refine ⟨element, onTop, ?_, same, greatest⟩
  rw [drain, ← same.length_eq, List.length_cons, popped, onTop]
  rfl

theorem drain_perm (queue : PriorityQueue Element less) (state : queue.State) :
    (queue.drain state).Perm (queue.contents state) := by
  generalize lengthEq : (queue.contents state).length = count
  induction count generalizing state with
  | zero =>
      have empty := List.eq_nil_of_length_eq_zero lengthEq
      rw [(queue.drain_of_empty empty).2, empty]
  | succ count induction =>
      have nonempty : queue.contents state ≠ [] := by
        intro empty
        rw [empty] at lengthEq
        cases lengthEq
      rcases queue.drain_of_nonempty nonempty with ⟨element, _, drained, same, _⟩
      have shorter : (queue.contents (queue.pop state)).length = count := by
        have sameLength := same.length_eq
        rw [List.length_cons] at sameLength
        omega
      rw [drained]
      exact ((induction (queue.pop state) shorter).cons element).trans same

/-- The elements come out in decreasing order. -/
theorem drain_pairwise (queue : PriorityQueue Element less) (state : queue.State) :
    (queue.drain state).Pairwise fun earlier later => ¬less earlier later := by
  generalize lengthEq : (queue.contents state).length = count
  induction count generalizing state with
  | zero =>
      rw [(queue.drain_of_empty (List.eq_nil_of_length_eq_zero lengthEq)).2]
      exact List.Pairwise.nil
  | succ count induction =>
      have nonempty : queue.contents state ≠ [] := by
        intro empty
        rw [empty] at lengthEq
        cases lengthEq
      rcases queue.drain_of_nonempty nonempty with ⟨element, _, drained, same, greatest⟩
      have shorter : (queue.contents (queue.pop state)).length = count := by
        have sameLength := same.length_eq
        rw [List.length_cons] at sameLength
        omega
      rw [drained, List.pairwise_cons]
      refine ⟨fun other member => ?_, induction (queue.pop state) shorter⟩
      have within := (queue.drain_perm (queue.pop state)).mem_iff.mp member
      exact greatest other (same.subset (List.mem_cons_of_mem element within))

/-! ## A queue that searches for its top -/

section Selection

variable {Key : Type u} [LinearOrder Key] (key : Element → Key)

/-- An element with the smallest key, and the others. -/
def extractLeast : List Element → Option (Element × List Element)
  | [] => none
  | element :: rest =>
      match extractLeast rest with
      | none => some (element, [])
      | some (least, others) =>
          if key element ≤ key least then some (element, rest)
          else some (least, element :: others)

theorem extractLeast_spec (element : Element) (rest : List Element) :
    ∃ least others, extractLeast key (element :: rest) = some (least, others) ∧
      (least :: others).Perm (element :: rest) ∧
      ∀ other ∈ element :: rest, key least ≤ key other := by
  induction rest generalizing element with
  | nil => exact ⟨element, [], rfl, List.Perm.refl _, by simp⟩
  | cons next rest induction =>
      rcases induction next with ⟨least, others, extracted, same, lowest⟩
      rw [extractLeast, extracted]
      by_cases lower : key element ≤ key least
      · refine ⟨element, next :: rest, by simp only [if_pos lower], List.Perm.refl _, ?_⟩
        intro other member
        rcases List.mem_cons.mp member with equal | member
        · rw [equal]
        · exact le_trans lower (lowest other member)
      · refine ⟨least, element :: others, by simp only [if_neg lower], ?_, ?_⟩
        · exact (List.Perm.swap element least others).trans (same.cons element)
        · intro other member
          rcases List.mem_cons.mp member with equal | member
          · rw [equal]
            exact le_of_lt (not_le.mp lower)
          · exact lowest other member

/-- The queue whose top is an element with the smallest key. -/
def selection : PriorityQueue Element fun left right => key left > key right where
  State := List Element
  empty := []
  push := List.cons
  top := fun state => (extractLeast key state).map Prod.fst
  pop := fun state => ((extractLeast key state).map Prod.snd).getD []
  contents := id
  contents_empty := rfl
  contents_push := fun _ _ => List.Perm.refl _
  top_empty := by
    intro state empty
    rw [show state = [] from empty]
    rfl
  top_greatest := by
    intro state nonempty
    cases state with
    | nil => exact absurd rfl nonempty
    | cons element rest =>
        rcases extractLeast_spec key element rest with ⟨least, others, extracted, same, lowest⟩
        refine ⟨least, by rw [extracted]; rfl, ?_, fun other member => not_lt.mpr (lowest other member)⟩
        rw [extracted]
        exact same

end Selection

end PriorityQueue

end DataStructAlgorithm.Foundation
