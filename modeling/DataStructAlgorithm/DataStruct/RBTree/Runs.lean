import Mathlib.Analysis.SpecialFunctions.Log.Base
import DataStructAlgorithm.DataStruct.RBTree.Insert
import DataStructAlgorithm.DataStruct.RBTree.Iterator

/-! # Runs of insertions

Every sequence of calls of `insert` on an empty tree builds a red-black search
tree of the values inserted. Its iterators walk over the values in order, and
stay good while more values are inserted. -/

namespace DataStructAlgorithm.DataStruct.RBTree

open Foundation ColouredTree

variable {Value : Type}

theorem ColouredTree.RedBlack.height_le_log {tree : ColouredTree Value} (redBlack : RedBlack tree) :
    (tree.height : ℝ) ≤ 2 * Real.logb 2 ((keys RbData.value tree).length + 1) := by
  rcases redBlack.blackHeight with ⟨count, height⟩
  have heightLe := height_le redBlack.noRedRed height
  rw [redBlack.rootBlack, Bool.toNat_false, Nat.add_zero] at heightLe
  have full := two_pow_le height
  rw [← List.length_map Prod.snd, map_snd_nodes] at full
  have countLe : (count : ℝ) ≤ Real.logb 2 ((keys RbData.value tree).length + 1) := by
    rw [Real.le_logb_iff_rpow_le (by norm_num) (by positivity), Real.rpow_natCast]
    exact_mod_cast full
  have heightCast : (tree.height : ℝ) ≤ 2 * count := by exact_mod_cast heightLe
  linarith

/-! ## Iterators -/

/-- `operator*` -/
def dereference (heap : Store (Node Value)) (node : Ptr) : Outcome Value := do
  let stored ← heap.load node
  pure stored.data.value

/-- A node as its address and its value. -/
def place (entry : Nat × RbData Value) : Nat × Value :=
  (entry.1, entry.2.value)

/-- What the iterators of a tree do when `listed` are its nodes in order. -/
structure Iterates (fuel : Nat) (tree : RbTree Value) (listed : List (Nat × Value)) : Prop where
  forward : RBTree.forward place fuel tree.heap tree.root = .ok listed
  backward : RBTree.backward place fuel tree.heap tree.root = .ok listed.reverse
  designates : ∀ node ∈ listed, dereference tree.heap (some node.1) = .ok node.2
  next : ∀ done node following rest, listed = done ++ node :: following :: rest →
    increment fuel tree.heap (some node.1) = .ok (some following.1)
  previous : ∀ done node following rest, listed = done ++ node :: following :: rest →
    decrement fuel tree.heap (some following.1) = .ok (some node.1)
  thereAndBack : ∀ done node following rest, listed = done ++ node :: following :: rest →
    (increment fuel tree.heap (some node.1) >>= decrement fuel tree.heap) = .ok (some node.1)
  backAndThere : ∀ done node following rest, listed = done ++ node :: following :: rest →
    (decrement fuel tree.heap (some following.1) >>= increment fuel tree.heap) =
      .ok (some following.1)
  last : ∀ done node, listed = done ++ [node] →
    increment fuel tree.heap (some node.1) = .ok none
  first : ∀ node rest, listed = node :: rest →
    decrement fuel tree.heap (some node.1) = .ok none

section Listed

variable {tree : RbTree Value} {whole : ColouredTree Value}
  (represents : Represents tree.heap tree.root whole) (fuel : Nat)

/-- A way to split the nodes of a tree splits its entries too. -/
theorem exists_entries {done rest : List (Nat × Value)} {node : Nat × Value}
    (split : nodes whole = done ++ node :: rest) :
    ∃ before data after, whole.entries = before ++ (node.1, data) :: after ∧
      before.map place = done ∧ after.map place = rest := by
  rcases List.map_eq_append_iff.mp split with ⟨before, tail, entriesEq, beforeEq, tailEq⟩
  rcases List.map_eq_cons_iff.mp tailEq with ⟨entry, after, rfl, nodeEq, afterEq⟩
  refine ⟨before, entry.2, after, ?_, beforeEq, afterEq⟩
  rw [entriesEq, ← nodeEq]

theorem firstPointer_place (entries : List (Nat × RbData Value)) :
    firstPointer (entries.map place) = firstPointer entries := by
  cases entries <;> rfl

include represents

theorem increment_node {done rest : List (Nat × Value)} {node : Nat × Value}
    (split : nodes whole = done ++ node :: rest) (enough : whole.height < fuel) :
    increment fuel tree.heap (some node.1) = .ok (firstPointer rest) := by
  rcases exists_entries split with ⟨before, data, after, entriesEq, _, rfl⟩
  rw [increment_next represents entriesEq fuel enough, firstPointer_place]

theorem decrement_node {done rest : List (Nat × Value)} {node : Nat × Value}
    (split : nodes whole = done ++ node :: rest) (enough : whole.height < fuel) :
    decrement fuel tree.heap (some node.1) = .ok (firstPointer done.reverse) := by
  rcases exists_entries split with ⟨before, data, after, entriesEq, rfl, _⟩
  rw [decrement_next represents entriesEq fuel enough, ← List.map_reverse, firstPointer_place]

theorem dereference_node {node : Nat × Value} (member : node ∈ nodes whole) :
    dereference tree.heap (some node.1) = .ok node.2 := by
  rcases List.mem_map.mp member with ⟨entry, entryMem, rfl⟩
  rcases represents.linked.found entryMem with ⟨stored, found, dataEq⟩
  simp [dereference, Store.load_some found, dataEq]

theorem iterates (enough : (nodes whole).length < fuel) : Iterates fuel tree (nodes whole) := by
  have entriesBound : whole.entries.length < fuel := by simpa [nodes] using enough
  have heightBound := whole.height_le_length
  simp only [AddrTree.toList, List.length_map] at heightBound
  have next : ∀ done node following rest, nodes whole = done ++ node :: following :: rest →
      increment fuel tree.heap (some node.1) = .ok (some following.1) := by
    intro done node following rest split
    exact increment_node represents fuel split (by omega)
  have previous : ∀ done node following rest, nodes whole = done ++ node :: following :: rest →
      decrement fuel tree.heap (some following.1) = .ok (some node.1) := by
    intro done node following rest split
    have later : nodes whole = (done ++ [node]) ++ following :: rest := by simpa using split
    rw [decrement_node represents fuel later (by omega)]
    simp [firstPointer]
  constructor
  · exact forward_spec represents fuel place entriesBound
  · rw [backward_spec represents fuel place entriesBound, List.map_reverse]
    rfl
  · exact fun node member => dereference_node represents member
  · exact next
  · exact previous
  · intro done node following rest split
    rw [next done node following rest split, Outcome.ok_bind]
    exact previous done node following rest split
  · intro done node following rest split
    rw [previous done node following rest split, Outcome.ok_bind]
    exact next done node following rest split
  · intro done node split
    exact increment_node represents fuel split (by omega)
  · intro node rest split
    have atStart : nodes whole = [] ++ node :: rest := split
    exact decrement_node represents fuel atStart (by omega)

end Listed

/-! ## Insertions -/

variable [LinearOrder Value]

def insertAll (fuel : Nat) : RbTree Value → List Value → Outcome (RbTree Value)
  | tree, [] => .ok tree
  | tree, value :: rest => do
      let (tree, _) ← insert fuel tree value
      insertAll fuel tree rest

/-- What holds of the tree after the values `inserted` have been inserted. -/
structure Holds (tree : RbTree Value) (inserted : List Value) (whole : ColouredTree Value) :
    Prop where
  represents : Represents tree.heap tree.root whole
  redBlack : RedBlack whole
  sorted : Sorted RbData.value whole
  mem_iff : ∀ value, value ∈ keys RbData.value whole ↔ value ∈ inserted

theorem holds_empty : Holds (.empty : RbTree Value) [] .nil where
  represents := ⟨rfl, trivial, List.nodup_nil⟩
  redBlack := ⟨rfl, trivial, 0, by simp⟩
  sorted := List.Pairwise.nil
  mem_iff := fun value => by simp [keys, AddrTree.entries]

namespace Holds

variable {tree : RbTree Value} {inserted : List Value} {whole : ColouredTree Value}

/-- Distinct stored values are not more than the calls made. -/
theorem length_le_calls (holds : Holds tree inserted whole) :
    (nodes whole).length ≤ inserted.length := by
  have nodup : (keys RbData.value whole).Nodup :=
    holds.sorted.imp fun less => ne_of_lt less
  have subset : keys RbData.value whole ⊆ inserted := fun value => (holds.mem_iff value).mp
  have fewer := (List.subperm_of_subset nodup subset).length_le
  simpa [keys, nodes] using fewer

theorem height_le_calls (holds : Holds tree inserted whole) :
    whole.height ≤ inserted.length := by
  have fewer := holds.length_le_calls
  have bound := whole.height_le_length
  simp only [nodes, AddrTree.toList, List.length_map] at fewer bound
  omega

/-- One call keeps the invariant and answers whether the value was absent. -/
theorem insert (holds : Holds tree inserted whole) (value : Value) (fuel : Nat)
    (enough : inserted.length < fuel) :
    ∃ after flag grown, RBTree.insert fuel tree value = .ok (after, flag) ∧
      Holds after (inserted ++ [value]) grown ∧ (flag = true ↔ value ∉ inserted) ∧
      (flag = false → after = tree) ∧ nodes whole ⊆ nodes grown := by
  have heightBound := holds.height_le_calls
  by_cases present : value ∈ keys RbData.value whole
  · rcases insertCur_found holds.represents holds.sorted present fuel (by omega) with
      ⟨address, _, returned⟩
    have known := (holds.mem_iff value).mp present
    refine ⟨tree, false, whole, by simp [RBTree.insert, returned],
      ⟨holds.represents, holds.redBlack, holds.sorted, ?_⟩, by simp [known], fun _ => rfl,
      fun _ member => member⟩
    intro queried
    rw [holds.mem_iff, List.mem_append, List.mem_singleton]
    constructor
    · exact Or.inl
    · intro member
      rcases member with member | rfl
      · exact member
      · exact known
  · rcases insertCur_absent holds.represents holds.redBlack holds.sorted present fuel
        (by omega) with ⟨after, cur, grown, returned, result, _⟩
    have unknown : value ∉ inserted := fun member => present ((holds.mem_iff value).mpr member)
    refine ⟨after, true, grown, by simp [RBTree.insert, returned],
      ⟨result.represents, result.redBlack, result.sorted, ?_⟩, by simp [unknown],
      fun equal => (nomatch equal), result.keeps_nodes⟩
    intro queried
    rw [result.mem_values, holds.mem_iff, List.mem_append, List.mem_singleton, or_comm]

theorem insertAll (holds : Holds tree inserted whole) (rest : List Value) (fuel : Nat)
    (enough : inserted.length + rest.length < fuel) :
    ∃ after grown, RBTree.insertAll fuel tree rest = .ok after ∧
      Holds after (inserted ++ rest) grown ∧ nodes whole ⊆ nodes grown := by
  induction rest generalizing tree inserted whole with
  | nil => exact ⟨tree, whole, rfl, by simpa using holds, fun _ member => member⟩
  | cons value rest induction =>
      simp only [List.length_cons] at enough
      rcases holds.insert value fuel (by omega) with
        ⟨next, flag, grown, returned, nextHolds, _, _, kept⟩
      rcases induction nextHolds (by simp only [List.length_append, List.length_singleton]; omega)
        with ⟨after, final, finished, finalHolds, finalKept⟩
      refine ⟨after, final, ?_, by simpa using finalHolds, fun _ member => finalKept (kept member)⟩
      simp [RBTree.insertAll, returned, finished]

end Holds

/-- After any sequence of insertions the tree is a red-black search tree of the
values inserted, its links are consistent, and the next call of `insert` returns,
with the flag and the frame condition that belong to it. A call that returns has
followed no null pointer and ended both of its loops. -/
theorem insertAll_redBlack (inserted : List Value) :
    ∃ enough, ∀ fuel, enough ≤ fuel → ∃ tree whole,
      insertAll fuel .empty inserted = .ok tree ∧
      Represents tree.heap tree.root whole ∧
      (keys RbData.value whole).Pairwise (· < ·) ∧
      (∀ value, value ∈ keys RbData.value whole ↔ value ∈ inserted) ∧
      redRoot whole = false ∧ NoRedRed whole ∧ (∃ count, BlackHeight whole count) ∧
      (whole.height : ℝ) ≤ 2 * Real.logb 2 ((keys RbData.value whole).length + 1) ∧
      ∀ value, ∃ after flag, insert fuel tree value = .ok (after, flag) ∧
        (flag = true ↔ value ∉ inserted) ∧ (flag = false → after = tree) := by
  refine ⟨inserted.length + 1, ?_⟩
  intro fuel enough
  rcases holds_empty.insertAll inserted fuel (by simp only [List.length_nil]; omega) with
    ⟨tree, whole, returned, holds, _⟩
  rw [List.nil_append] at holds
  refine ⟨tree, whole, returned, holds.represents, holds.sorted, holds.mem_iff,
    holds.redBlack.rootBlack, holds.redBlack.noRedRed, holds.redBlack.blackHeight,
    holds.redBlack.height_le_log, ?_⟩
  intro value
  rcases holds.insert value fuel (by omega) with ⟨after, flag, _, called, _, answer, kept, _⟩
  exact ⟨after, flag, called, answer, kept⟩

/-- The iterators of a tree built by insertions walk over its nodes in order, in
both directions, and undo each other's steps. They stay good while more values
are inserted: the nodes keep their addresses and values, and the walks are those
of the enlarged tree. -/
theorem iterators_after_insertAll (inserted later : List Value) :
    ∃ enough, ∀ fuel, enough ≤ fuel → ∃ tree whole after grown,
      insertAll fuel .empty inserted = .ok tree ∧ Represents tree.heap tree.root whole ∧
      insertAll fuel tree later = .ok after ∧ Represents after.heap after.root grown ∧
      Iterates fuel tree (nodes whole) ∧ Iterates fuel after (nodes grown) ∧
      ((nodes whole).map Prod.snd).Pairwise (· < ·) ∧
      ((nodes grown).map Prod.snd).Pairwise (· < ·) ∧
      (∀ value, value ∈ (nodes whole).map Prod.snd ↔ value ∈ inserted) ∧
      (∀ value, value ∈ (nodes grown).map Prod.snd ↔ value ∈ inserted ++ later) ∧
      ∀ node ∈ nodes whole, node ∈ nodes grown := by
  refine ⟨inserted.length + later.length + 1, ?_⟩
  intro fuel enough
  rcases holds_empty.insertAll inserted fuel (by simp only [List.length_nil]; omega) with
    ⟨tree, whole, returned, holds, _⟩
  rw [List.nil_append] at holds
  rcases holds.insertAll later fuel (by omega) with ⟨after, grown, finished, grownHolds, kept⟩
  have wholeBound := holds.length_le_calls
  have grownBound := grownHolds.length_le_calls
  rw [List.length_append] at grownBound
  simp only [map_snd_nodes]
  exact ⟨tree, whole, after, grown, returned, holds.represents, finished, grownHolds.represents,
    iterates holds.represents fuel (by omega), iterates grownHolds.represents fuel (by omega),
    holds.sorted, grownHolds.sorted, holds.mem_iff, grownHolds.mem_iff, fun node member =>
    kept member⟩

end DataStructAlgorithm.DataStruct.RBTree

/-! ## The iterator that `insert` returns

`MyMap/rb_tree.h` builds the iterator from `cur`, which the fix-up loop has reassigned. -/

namespace DataStructAlgorithm.DataStruct.RBTree

open Foundation ColouredTree

variable {Value : Type} {tree : RbTree Value} {inserted : List Value}
  {whole grown : ColouredTree Value} {value : Value} {it : Ptr} {flag : Bool}

/-- The iterator is at a node with the value: at one that was not linked before if the flag is
set, else at one that was. -/
def Designates (before after : ColouredTree Value) (value : Value) (it : Ptr) (flag : Bool) :
    Prop :=
  ∃ address, it = some address ∧ (address, value) ∈ nodes after ∧
    (flag = true ↔ address ∉ before.addresses)

variable [LinearOrder Value]

/-- Of the grown tree only the new node was not linked before. -/
theorem Grown.designates_iff {after : RbTree Value} {next : Nat}
    (result : Grown whole after grown next value) (fresh : next ∉ whole.addresses) :
    Designates whole grown value it true ↔ it = some next := by
  rcases result.nodes with ⟨first, second, beforeEq, afterEq⟩
  constructor
  · rintro ⟨address, rfl, member, new⟩
    rw [afterEq, List.mem_append, List.mem_cons] at member
    have notBefore : address ∉ whole.nodes.map Prod.fst := by
      rw [map_fst_nodes]
      exact new.mp rfl
    rw [beforeEq] at notBefore
    rcases member with before | here | behind
    · exact absurd (List.mem_map_of_mem (List.mem_append_left second before)) notBefore
    · rw [(Prod.mk.inj here).1]
    · exact absurd (List.mem_map_of_mem (List.mem_append_right first behind)) notBefore
  · rintro rfl
    refine ⟨next, rfl, ?_, iff_of_true rfl fresh⟩
    rw [afterEq]
    exact List.mem_append_right first List.mem_cons_self

/-- One call, from a tree that insertions have built. -/
theorem Holds.designates_iff (holds : Holds tree inserted whole) (value : Value) (fuel : Nat)
    (enough : inserted.length < fuel) :
    ∃ after it flag grown, insertCur fuel tree value = .ok (after, it, flag) ∧
      Represents after.heap after.root grown ∧ (flag = true ↔ value ∉ inserted) ∧
      (Designates whole grown value it flag ↔ keepsCur fuel tree value = .ok true) := by
  have heightBound := holds.height_le_calls
  by_cases present : value ∈ keys RbData.value whole
  · rcases insertCur_found holds.represents holds.sorted present fuel (by omega) with
      ⟨address, member, returned⟩
    have known := (holds.mem_iff value).mp present
    have linked : address ∈ whole.addresses := by
      rw [← map_fst_nodes]
      exact List.mem_map_of_mem member
    refine ⟨tree, some address, false, whole, returned, holds.represents,
      iff_of_false (by decide) (not_not.mpr known), iff_of_true ?_ ?_⟩
    · exact ⟨address, rfl, member, iff_of_false (by decide) (not_not.mpr linked)⟩
    · exact keepsCur_found holds.represents holds.sorted present (by omega)
  · rcases insertCur_absent holds.represents holds.redBlack holds.sorted present fuel (by omega) with
      ⟨after, cur, grown, returned, result, atNew⟩
    have unknown : value ∉ inserted := fun member => present ((holds.mem_iff value).mpr member)
    have fresh : tree.heap.next ∉ whole.addresses := fun member =>
      Nat.lt_irrefl _ (holds.represents.linked.mem_lt_next _ member)
    exact ⟨after, cur, true, grown, returned, result.represents, iff_of_true rfl unknown,
      (result.designates_iff fresh).trans atNew⟩

/-- In every tree built by insertions the call returns the iterator it should exactly if the
fix-up loop leaves `cur` where it is. -/
theorem insertCur_designates_iff (inserted : List Value) :
    ∃ enough, ∀ fuel, enough ≤ fuel → ∃ tree whole,
      insertAll fuel .empty inserted = .ok tree ∧ Represents tree.heap tree.root whole ∧
      ∀ value, ∃ after it flag grown, insertCur fuel tree value = .ok (after, it, flag) ∧
        Represents after.heap after.root grown ∧ (flag = true ↔ value ∉ inserted) ∧
        (Designates whole grown value it flag ↔ keepsCur fuel tree value = .ok true) := by
  refine ⟨inserted.length + 1, fun fuel enough => ?_⟩
  rcases holds_empty.insertAll inserted fuel (by simp only [List.length_nil]; omega) with
    ⟨tree, whole, returned, holds, _⟩
  rw [List.nil_append] at holds
  exact ⟨tree, whole, returned, holds.represents, fun value =>
    holds.designates_iff value fuel (by omega)⟩

/-- An inner grandchild: the iterator is at the node that was its parent. -/
theorem insertCur_swaps :
    (do
      let tree ← insertAll 10 (.empty : RbTree Nat) [1, 3]
      let (after, it, flag) ← insertCur 10 tree 2
      let value ← dereference after.heap it
      pure (flag, value)) = .ok (true, 3) := rfl

end DataStructAlgorithm.DataStruct.RBTree
