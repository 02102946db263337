import Mathlib.Data.Tree.Basic
import Mathlib.Data.List.Basic
import Mathlib.Data.List.Range

/-! # Binary trees written in pre-order

A tree is written as the list of its labels in pre-order, with a gap for every
missing child. A reader that finds nothing behind the end of a list takes it for
gaps. -/

namespace DataStructAlgorithm.Foundation

variable {Label : Type}

/-- A tree in pre-order, with a gap for every missing child. -/
def serialize (gap : Label) : BinaryTree Label → List Label
  | .nil => [gap]
  | .node label left right => label :: (serialize gap left ++ serialize gap right)

/-- No label of the tree is the gap. -/
def Unmarked (gap : Label) : BinaryTree Label → Prop
  | .nil => True
  | .node label left right => label ≠ gap ∧ Unmarked gap left ∧ Unmarked gap right

instance Unmarked.decidable [DecidableEq Label] (gap : Label) :
    (tree : BinaryTree Label) → Decidable (Unmarked gap tree)
  | .nil => isTrue trivial
  | .node label left right =>
      have := Unmarked.decidable gap left
      have := Unmarked.decidable gap right
      inferInstanceAs (Decidable (label ≠ gap ∧ Unmarked gap left ∧ Unmarked gap right))

/-- What a reader finds at an index. -/
def padded (gap : Label) (array : List Label) (index : Nat) : Label :=
  array[index]?.getD gap

/-- What a reader finds from an index on. -/
def window (gap : Label) (array : List Label) (index count : Nat) : List Label :=
  (List.range' index count).map (padded gap array)

section Window

variable {gap : Label} {array : List Label}

theorem length_window (index count : Nat) : (window gap array index count).length = count := by
  rw [window, List.length_map, List.length_range']

theorem window_succ (index count : Nat) :
    window gap array index (count + 1) =
      padded gap array index :: window gap array (index + 1) count := by
  rw [window, List.range'_succ, List.map_cons, window]

theorem window_add (index first second : Nat) :
    window gap array index (first + second) =
      window gap array index first ++ window gap array (index + first) second := by
  rw [window, window, window, ← List.map_append, List.range'_append_1]

theorem getElem?_window {index count offset : Nat} (within : offset < count) :
    (window gap array index count)[offset]? = some (padded gap array (index + offset)) := by
  rw [window, List.getElem?_map, List.getElem?_range' within, Option.map_some, Nat.one_mul]

theorem padded_of_getElem? {index : Nat} {label : Label} (found : array[index]? = some label) :
    padded gap array index = label := by
  rw [padded, found, Option.getD_some]

theorem padded_of_le {index : Nat} (beyond : array.length ≤ index) :
    padded gap array index = gap := by
  rw [padded, List.getElem?_eq_none beyond, Option.getD_none]

end Window

/-- Reading a tree from an index on ends at another index. -/
inductive Parses (gap : Label) (array : List Label) : Nat → BinaryTree Label → Nat → Prop
  | nil {index : Nat} (missing : padded gap array index = gap) : Parses gap array index .nil index
  | node {index middle last : Nat} {label : Label} {left right : BinaryTree Label}
      (found : padded gap array index = label) (proper : label ≠ gap)
      (leftParses : Parses gap array (index + 1) left middle)
      (rightParses : Parses gap array (middle + 1) right last) :
      Parses gap array index (.node label left right) last

namespace Parses

variable {gap : Label} {array : List Label} {index last other : Nat}
  {tree second : BinaryTree Label}

/-- What is read is what the tree is written as. -/
theorem serialize_eq (parses : Parses gap array index tree last) :
    index + (serialize gap tree).length = last + 1 ∧
      serialize gap tree = window gap array index (serialize gap tree).length := by
  induction parses with
  | @nil index missing =>
      refine ⟨rfl, ?_⟩
      rw [serialize, List.length_singleton, window_succ, missing]
      rfl
  | @node index middle last label left right found proper leftParses rightParses leftInduction
      rightInduction =>
      rcases leftInduction with ⟨leftEnd, leftEq⟩
      rcases rightInduction with ⟨rightEnd, rightEq⟩
      have total : (serialize gap (.node label left right)).length =
          ((serialize gap left).length + (serialize gap right).length) + 1 := by
        rw [serialize, List.length_cons, List.length_append]
      refine ⟨by omega, ?_⟩
      rw [total, window_succ, window_add, found, leftEnd, ← leftEq, ← rightEq]
      rfl

/-- The written tree can be read back. -/
theorem of_window (unmarked : Unmarked gap tree) (index : Nat)
    (written : serialize gap tree = window gap array index (serialize gap tree).length) :
    ∃ last, Parses gap array index tree last := by
  induction tree generalizing index with
  | nil =>
      rw [serialize, List.length_singleton, window_succ] at written
      exact ⟨index, .nil (List.cons.inj written).1.symm⟩
  | node label left right leftInduction rightInduction =>
      rcases unmarked with ⟨proper, leftUnmarked, rightUnmarked⟩
      have total : (serialize gap (.node label left right)).length =
          ((serialize gap left).length + (serialize gap right).length) + 1 := by
        rw [serialize, List.length_cons, List.length_append]
      rw [total, window_succ, window_add, serialize] at written
      rcases List.cons.inj written with ⟨found, rest⟩
      rcases List.append_inj rest (length_window _ _).symm with ⟨leftEq, rightEq⟩
      rcases leftInduction leftUnmarked _ leftEq with ⟨middle, leftParses⟩
      rw [leftParses.serialize_eq.1] at rightEq
      rcases rightInduction rightUnmarked _ rightEq with ⟨last, rightParses⟩
      exact ⟨last, .node found.symm proper leftParses rightParses⟩

/-- Reading is deterministic. -/
theorem unique (parses : Parses gap array index tree last)
    (others : Parses gap array index second other) : tree = second ∧ last = other := by
  induction parses generalizing second other with
  | nil missing =>
      cases others with
      | nil => exact ⟨rfl, rfl⟩
      | node found proper => exact absurd (found.symm.trans missing) proper
  | node found proper leftParses rightParses leftInduction rightInduction =>
      cases others with
      | nil missing => exact absurd (found.symm.trans missing) proper
      | node otherFound otherProper otherLeft otherRight =>
          rcases leftInduction otherLeft with ⟨rfl, rfl⟩
          rcases rightInduction otherRight with ⟨rfl, rfl⟩
          exact ⟨by rw [← found, ← otherFound], rfl⟩

end Parses

/-- A tree is read back from what it is written as, also without gaps at the end. -/
theorem window_of_dropped {gap : Label} {array dropped whole : List Label}
    (split : whole = array ++ dropped) (gaps : ∀ label ∈ dropped, label = gap) :
    whole = window gap array 0 whole.length := by
  apply List.ext_getElem?
  intro index
  rcases Nat.lt_or_ge index whole.length with within | beyond
  · rw [getElem?_window within, Nat.zero_add, padded, split]
    rcases Nat.lt_or_ge index array.length with early | late
    · rw [List.getElem?_append_left early, List.getElem?_eq_getElem early, Option.getD_some]
    · rw [List.getElem?_append_right late, List.getElem?_eq_none late, Option.getD_none]
      rw [split, List.length_append] at within
      have inside : index - array.length < dropped.length := by omega
      rw [List.getElem?_eq_getElem inside, gaps _ (List.getElem_mem inside)]
  · rw [List.getElem?_eq_none beyond, List.getElem?_eq_none (by rwa [length_window])]

end DataStructAlgorithm.Foundation
