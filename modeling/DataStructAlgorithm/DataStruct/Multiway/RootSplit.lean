import DataStructAlgorithm.DataStruct.Multiway.Leaf

/-! # Up to the split of the root

A tree is a single leaf until its root is full, and then a root with one pair
and two leaves. The pair that goes up is the one at half the size that the root
is left with, which is its last pair only when the order is three. -/

namespace DataStructAlgorithm.DataStruct.BTree

open Foundation

variable {Key Value : Type}

/-- The tree is one leaf. -/
structure Single (M : Nat) (tree : BTree Key Value) (address : Nat) (pairs : List (Key × Value)) :
    Prop where
  root_eq : tree.root = some address
  leaf : ∃ node, tree.heap.cell address = some node ∧ IsLeaf M node pairs ∧ node.parent = none

/-- The tree is a root with one pair and two leaves. -/
structure Split (M : Nat) (tree : BTree Key Value) (root x y : Nat)
    (left : List (Key × Value)) (mid : Key × Value) (right : List (Key × Value)) : Prop where
  root_eq : tree.root = some root
  top : ∃ node, tree.heap.cell root = some node ∧ node.size = 1 ∧
    (∃ junk, node.kvs = mid :: junk ∧ junk.length + 1 = M) ∧
    node.subs = some x :: some y :: List.replicate (M - 1) none
  leftLeaf : ∃ node, tree.heap.cell x = some node ∧ IsLeaf M node left ∧ node.parent = some root
  rightLeaf : ∃ node, tree.heap.cell y = some node ∧ IsLeaf M node right ∧
    node.parent = some root
  distinct : root ≠ x ∧ root ≠ y ∧ x ≠ y

theorem Single.find_missing [LinearOrder Key] {M : Nat} {tree : BTree Key Value} {address : Nat}
    {pairs : List (Key × Value)} (single : Single M tree address pairs)
    (increasing : Increasing pairs) {key : Key} (absent : key ∉ pairs.map Prod.fst) (fuel : Nat) :
    BTree.find (fuel + 2) tree key = .ok (some address, -1) := by
  rcases single.leaf with ⟨node, found, leaf, _⟩
  rw [BTree.find, single.root_eq]
  exact leaf.find_missing found increasing absent none fuel

section Insert

variable [LinearOrder Key] [Inhabited Key] [Inhabited Value] {M : Nat} {tree : BTree Key Value}
  {address : Nat} {pairs : List (Key × Value)} {kv : Key × Value}

theorem insert_empty (tree : BTree Key Value) (positive : 0 < M) (rootEq : tree.root = none)
    (fuel : Nat) (kv : Key × Value) :
    ∃ after, insert fuel M tree kv = .ok (after, true) ∧ Single M after tree.heap.next [kv] := by
  rcases (isLeaf_newNode M : IsLeaf M (newNode M) ([] : List (Key × Value))).push kv positive with
    ⟨kvs, wrote, pushed⟩
  rw [List.length_nil] at wrote
  let node : BTreeNode Key Value := ⟨kvs, List.replicate (M + 1) none, none, 1⟩
  refine ⟨⟨tree.heap.alloc node, some tree.heap.next⟩, ?_, rfl, node,
    Store.cell_alloc_next .., pushed, rfl⟩
  simp only [insert, rootEq, newNodeWith, wrote, Outcome.ok_bind, Outcome.pure_eq_ok]
  rfl

/-- Insertion starts with the search and goes on at the node it has found. -/
theorem insert_absent {cur : Ptr} {fuel : Nat} (rootEq : tree.root = some address)
    (missing : find fuel tree kv.1 = .ok (cur, -1)) :
    insert fuel M tree kv = (do
      let tree ← repeatLoop (insertPass M) fuel ⟨tree, cur, none, kv⟩
      pure (tree, true)) := by
  simp only [insert, rootEq, missing, Outcome.ok_bind]
  rfl

/-- A pass at a leaf that has room is the last one. -/
theorem IsLeaf.insertPass_room {node : BTreeNode Key Value} (leaf : IsLeaf M node pairs)
    (found : tree.heap.cell address = some node) (increasing : Increasing pairs)
    (absent : kv.1 ∉ pairs.map Prod.fst) (room : pairs.length + 1 < M) :
    ∃ heap grown larger,
      insertPass M ⟨tree, some address, none, kv⟩ = .ok (.leave ⟨heap, tree.root⟩) ∧
      Inserted kv pairs larger ∧ heap.cell address = some grown ∧ IsLeaf M grown larger ∧
      grown.parent = node.parent ∧
      ∀ other, other ≠ address → heap.cell other = tree.heap.cell other := by
  rcases leaf.baseInsert found (by omega) increasing absent with
    ⟨heap, grown, larger, inserted, placed, foundGrown, grownLeaf, grownParent, elsewhere, _⟩
  have sizeLt : grown.size < M := by
    rw [grownLeaf.size_eq, placed.length_eq]
    exact room
  refine ⟨heap, grown, larger, ?_, placed, foundGrown, grownLeaf, grownParent, elsewhere⟩
  simp only [insertPass, inserted, Outcome.ok_bind, Store.load_some foundGrown, if_pos sizeLt]
  rfl

/-- A pass at a leaf that it fills divides the leaf. -/
theorem IsLeaf.insertPass_full {node : BTreeNode Key Value} (leaf : IsLeaf M node pairs)
    (found : tree.heap.cell address = some node) (increasing : Increasing pairs)
    (absent : kv.1 ∉ pairs.map Prod.fst) (full : pairs.length + 1 = M) :
    ∃ heap half grown halfNode larger, ∃ within : (M / 2 + 1) / 2 < larger.length,
      Inserted kv pairs larger ∧
      insertPass M ⟨tree, some address, none, kv⟩ =
        (if some address = tree.root then do
          let tree ← growRoot M ⟨heap, tree.root⟩ (some address) (some half)
            larger[(M / 2 + 1) / 2]
          pure (.leave tree)
        else pure (.again ⟨⟨heap, tree.root⟩, node.parent, some half,
          larger[(M / 2 + 1) / 2]⟩)) ∧
      heap.cell address = some (grown.setSize (M / 2 + 1)) ∧ IsLeaf M grown larger ∧
      grown.parent = node.parent ∧ heap.cell half = some halfNode ∧
      IsLeaf M halfNode (larger.drop (M / 2 + 1)) ∧ half = tree.heap.next ∧
      heap.next = half + 1 ∧
      ∀ other, other ≠ address → other ≠ half → heap.cell other = tree.heap.cell other := by
  rcases leaf.baseInsert found (by omega) increasing absent with
    ⟨heap, grown, larger, inserted, placed, foundGrown, grownLeaf, grownParent, elsewhere, next⟩
  have lengthEq : larger.length = M := by rw [placed.length_eq, full]
  rcases grownLeaf.divideNode foundGrown lengthEq (by omega) with
    ⟨divided, half, dividedEq, foundCur, foundHalf, halfLeaf, _, others, nextEq⟩
  have within : (M / 2 + 1) / 2 < larger.length := by
    have positive : 0 < larger.length := by rw [placed.length_eq]; omega
    omega
  have midRead : readAt (grown.setSize (M / 2 + 1)).kvs ((grown.setSize (M / 2 + 1)).size / 2) =
      .ok larger[(M / 2 + 1) / 2] := by
    have kvsEq := grownLeaf.kvs_of_full lengthEq
    rw [BTreeNode.setSize, kvsEq, readAt_of_lt within]
  have sizeFull : ¬ grown.size < M := by
    rw [grownLeaf.size_eq, lengthEq]
    exact Nat.lt_irrefl M
  refine ⟨divided, heap.next, grown, half, larger, within, placed, ?_, foundCur, grownLeaf,
    grownParent, foundHalf, halfLeaf, next, nextEq, ?_⟩
  · simp only [insertPass, inserted, Outcome.ok_bind, Store.load_some foundGrown,
      if_neg sizeFull, dividedEq, Store.load_some foundCur, midRead, ← grownParent]
    rfl
  · intro other notCur notHalf
    rw [others other notCur notHalf, elsewhere other notCur]

/-- Insertion into a single leaf that has room. -/
theorem Single.insert (single : Single M tree address pairs) (increasing : Increasing pairs)
    (absent : kv.1 ∉ pairs.map Prod.fst) (room : pairs.length + 1 < M) (fuel : Nat) :
    ∃ after larger, BTree.insert (fuel + 2) M tree kv = .ok (after, true) ∧
      Inserted kv pairs larger ∧ Single M after address larger := by
  rcases single.leaf with ⟨node, found, leaf, parentEq⟩
  rcases leaf.insertPass_room found increasing absent room with
    ⟨heap, grown, larger, pass, placed, foundGrown, grownLeaf, grownParent, _⟩
  have missing := single.find_missing increasing absent fuel
  refine ⟨⟨heap, tree.root⟩, larger, ?_, placed, single.root_eq, grown, foundGrown, grownLeaf,
    grownParent.trans parentEq⟩
  rw [insert_absent single.root_eq missing, repeatLoop_leave _ pass]
  rfl

/-- Insertion into a single leaf that it fills: the root is split. -/
theorem Single.split (single : Single M tree address pairs) (increasing : Increasing pairs)
    (absent : kv.1 ∉ pairs.map Prod.fst) (full : pairs.length + 1 = M) (positive : 1 < M)
    (fuel : Nat) :
    ∃ after larger root half, ∃ within : (M / 2 + 1) / 2 < larger.length,
      BTree.insert (fuel + 2) M tree kv = .ok (after, true) ∧ Inserted kv pairs larger ∧
      Split M after root address half (larger.take (M / 2)) larger[(M / 2 + 1) / 2]
        (larger.drop (M / 2 + 1)) := by
  rcases single.leaf with ⟨node, found, leaf, parentEq⟩
  rcases leaf.insertPass_full found increasing absent full with
    ⟨heap, half, grown, halfNode, larger, within, placed, pass, foundCur, grownLeaf, _,
      foundHalf, halfLeaf, halfEq, nextEq, _⟩
  have addressLt := Store.lt_next found
  have different : address ≠ half := by omega
  rcases growRoot_spec ⟨heap, tree.root⟩ foundCur foundHalf different positive
    larger[(M / 2 + 1) / 2] with
    ⟨after, top, grownRoot, rootEq, foundTop, topSize, topKvs, topSubs, _, afterCur, afterHalf, _⟩
  have missing := single.find_missing increasing absent fuel
  refine ⟨after, larger, heap.next, half, within, ?_, placed, ?_⟩
  · rw [if_pos single.root_eq.symm, grownRoot] at pass
    rw [insert_absent single.root_eq missing, repeatLoop_leave _ pass]
    rfl
  · have cut : IsLeaf M (grown.setSize (M / 2)) (larger.take (M / 2)) :=
      grownLeaf.truncate (by rw [placed.length_eq]; omega)
    exact ⟨rootEq, ⟨top, foundTop, topSize, topKvs, topSubs⟩, ⟨_, afterCur, cut.setParent _, rfl⟩,
      ⟨_, afterHalf, halfLeaf.setParent _, rfl⟩, by omega, by omega, different⟩

end Insert

end DataStructAlgorithm.DataStruct.BTree
