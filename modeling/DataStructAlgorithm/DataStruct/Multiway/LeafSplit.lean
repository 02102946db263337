import DataStructAlgorithm.DataStruct.Multiway.RootSplit

/-! # After the split of the root

The tree is a root over two leaves. A leaf with room takes a pair as it should; a
leaf that is split keeps the pair that goes up, so that its key is there twice. -/

namespace DataStructAlgorithm.DataStruct.BTree

open Foundation

variable {Key Value : Type} {M : Nat} {tree : BTree Key Value} {root x y : Nat}
  {left right : List (Key × Value)} {mid : Key × Value}

theorem Split.inOder (split : Split M tree root x y left mid right) (fuel : Nat) :
    BTree.inOder (fuel + 3) tree.heap tree.root =
      .ok (left.map Prod.fst ++ mid.1 :: right.map Prod.fst) := by
  rcases split.top with ⟨top, foundTop, topSize, ⟨junk, topKvs, _⟩, topSubs⟩
  rcases split.leftLeaf with ⟨leftNode, foundLeft, leftLeaf, _⟩
  rcases split.rightLeaf with ⟨rightNode, foundRight, rightLeaf, _⟩
  rw [split.root_eq, inOder_node (fuel + 2) foundTop [mid]
    [left.map Prod.fst, right.map Prod.fst] topSize _ rfl]
  · simp
  · intro index within
    simp only [List.length_cons, List.length_nil] at within
    obtain rfl | rfl : index = 0 ∨ index = 1 := by omega
    · exact ⟨some x, by simp [readAt, topSubs], leftLeaf.inOder foundLeft fuel⟩
    · exact ⟨some y, by simp [readAt, topSubs], rightLeaf.inOder foundRight fuel⟩
  · intro index within
    simp only [List.length_cons, List.length_nil] at within
    obtain rfl : index = 0 := by omega
    simp [readAt, topKvs]

/-- The traversal of a root with two pairs and three subtrees. -/
theorem inOder_two {heap : Store (BTreeNode Key Value)} {fuel : Nat}
    {node : BTreeNode Key Value} {first second : Key × Value} {subs : List Ptr}
    {one two three : Ptr} {oneKeys twoKeys threeKeys : List Key}
    (found : heap.cell root = some node) (sizeEq : node.size = 2)
    (kvsEq : node.kvs.take 2 = [first, second]) (subsEq : node.subs = one :: two :: three :: subs)
    (oneVisited : BTree.inOder fuel heap one = .ok oneKeys)
    (twoVisited : BTree.inOder fuel heap two = .ok twoKeys)
    (threeVisited : BTree.inOder fuel heap three = .ok threeKeys) :
    BTree.inOder (fuel + 1) heap (some root) =
      .ok (oneKeys ++ first.1 :: (twoKeys ++ second.1 :: threeKeys)) := by
  rw [inOder_node fuel found [first, second] [oneKeys, twoKeys, threeKeys] sizeEq _ rfl]
  · simp
  · intro index within
    match index, within with
    | 0, _ => exact ⟨one, by simp [readAt, subsEq], oneVisited⟩
    | 1, _ => exact ⟨two, by simp [readAt, subsEq], twoVisited⟩
    | 2, _ => exact ⟨three, by simp [readAt, subsEq], threeVisited⟩
  · intro index within
    have small : index < 2 := within
    apply readAt_of_getElem?
    rw [← List.getElem?_take_of_lt small, kvsEq, List.getElem?_eq_getElem within]

section Find

variable [LinearOrder Key]

/-- The pair that goes up is visited twice in a row. -/
theorem not_increasing_middle {pairs : List (Key × Value)} (within : 1 < pairs.length)
    (behind : List Key) :
    ¬ ((pairs.take 2).map Prod.fst ++ pairs[1].1 :: behind).Pairwise (· < ·) := by
  intro increasing
  have member : pairs[1].1 ∈ (pairs.take 2).map Prod.fst :=
    List.mem_map_of_mem (List.mem_take_iff_getElem.mpr ⟨1, by omega, rfl⟩)
  rw [List.pairwise_append] at increasing
  exact lt_irrefl _ (increasing.2.2 _ member pairs[1].1 (by simp))

/-- The root is passed on the side of the key. -/
theorem Split.find_left (split : Split M tree root x y left mid right) {key : Key}
    (less : key < mid.1) (fuel : Nat) :
    BTree.find (fuel + 1) tree key =
      repeatLoop (findPass tree.heap key) fuel (some x, some root) := by
  rcases split.top with ⟨top, foundTop, topSize, ⟨junk, topKvs, _⟩, topSubs⟩
  rw [BTree.find, split.root_eq]
  apply repeatLoop_again
  simp [findPass, Store.load_some foundTop, topSize, scan, readAt, topKvs, topSubs, less]

theorem Split.find_right (split : Split M tree root x y left mid right) {key : Key}
    (greater : mid.1 < key) (fuel : Nat) :
    BTree.find (fuel + 1) tree key =
      repeatLoop (findPass tree.heap key) fuel (some y, some root) := by
  rcases split.top with ⟨top, foundTop, topSize, ⟨junk, topKvs, _⟩, topSubs⟩
  rw [BTree.find, split.root_eq]
  apply repeatLoop_again
  simp [findPass, Store.load_some foundTop, topSize, scan, readAt, topKvs, topSubs, greater,
    not_lt_of_gt greater]

theorem Split.find_mid (split : Split M tree root x y left mid right) (fuel : Nat) :
    BTree.find (fuel + 1) tree mid.1 = .ok (some root, 0) := by
  rcases split.top with ⟨top, foundTop, topSize, ⟨junk, topKvs, _⟩, topSubs⟩
  rw [BTree.find, split.root_eq]
  apply repeatLoop_leave
  simp [findPass, Store.load_some foundTop, topSize, scan, readAt, topKvs]

end Find

section Insert

variable [LinearOrder Key] [Inhabited Key] [Inhabited Value] {kv : Key × Value}

/-- Insertion into the left leaf when it has room. -/
theorem Split.insert_left (split : Split M tree root x y left mid right)
    (increasing : Increasing left) (absent : kv.1 ∉ left.map Prod.fst) (less : kv.1 < mid.1)
    (room : left.length + 1 < M) (fuel : Nat) :
    ∃ after larger, BTree.insert (fuel + 3) M tree kv = .ok (after, true) ∧
      Inserted kv left larger ∧ Split M after root x y larger mid right := by
  rcases split.top with ⟨top, foundTop, topParts⟩
  rcases split.leftLeaf with ⟨node, found, leaf, parentEq⟩
  rcases split.rightLeaf with ⟨other, foundOther, otherParts⟩
  rcases leaf.insertPass_room found increasing absent room with
    ⟨heap, grown, larger, pass, placed, foundGrown, grownLeaf, grownParent, elsewhere⟩
  have missing : find (fuel + 3) tree kv.1 = .ok (some x, -1) := by
    rw [split.find_left less]
    exact leaf.find_missing found increasing absent _ fuel
  refine ⟨⟨heap, tree.root⟩, larger, ?_, placed, split.root_eq, ⟨top, ?_, topParts⟩,
    ⟨grown, foundGrown, grownLeaf, grownParent.trans parentEq⟩, ⟨other, ?_, otherParts⟩,
    split.distinct⟩
  · rw [insert_absent split.root_eq missing, repeatLoop_leave _ pass]
    rfl
  · rw [elsewhere root split.distinct.1, foundTop]
  · rw [elsewhere y split.distinct.2.2.symm, foundOther]

/-- Insertion into the right leaf when it has room. -/
theorem Split.insert_right (split : Split M tree root x y left mid right)
    (increasing : Increasing right) (absent : kv.1 ∉ right.map Prod.fst) (greater : mid.1 < kv.1)
    (room : right.length + 1 < M) (fuel : Nat) :
    ∃ after larger, BTree.insert (fuel + 3) M tree kv = .ok (after, true) ∧
      Inserted kv right larger ∧ Split M after root x y left mid larger := by
  rcases split.top with ⟨top, foundTop, topParts⟩
  rcases split.leftLeaf with ⟨other, foundOther, otherParts⟩
  rcases split.rightLeaf with ⟨node, found, leaf, parentEq⟩
  rcases leaf.insertPass_room found increasing absent room with
    ⟨heap, grown, larger, pass, placed, foundGrown, grownLeaf, grownParent, elsewhere⟩
  have missing : find (fuel + 3) tree kv.1 = .ok (some y, -1) := by
    rw [split.find_right greater]
    exact leaf.find_missing found increasing absent _ fuel
  refine ⟨⟨heap, tree.root⟩, larger, ?_, placed, split.root_eq, ⟨top, ?_, topParts⟩,
    ⟨other, ?_, otherParts⟩, ⟨grown, foundGrown, grownLeaf, grownParent.trans parentEq⟩,
    split.distinct⟩
  · rw [insert_absent split.root_eq missing, repeatLoop_leave _ pass]
    rfl
  · rw [elsewhere root split.distinct.2.1, foundTop]
  · rw [elsewhere x split.distinct.2.2, foundOther]

/-- The pass at the root after the split of a leaf: the pair `kv` and the new leaf
`half` find their place in the root. -/
theorem insertPass_top (tree : BTree Key Value) {top halfNode : BTreeNode Key Value} {half : Nat}
    {junk : List (Key × Value)} (found : tree.heap.cell root = some top)
    (foundHalf : tree.heap.cell half = some halfNode) (different : root ≠ half)
    (topSize : top.size = 1) (topKvs : top.kvs = mid :: junk) (junkLength : junk.length = 2)
    (topSubs : top.subs = [some x, some y, none, none]) (kv : Key × Value) :
    ∃ heap newTop, insertPass 3 ⟨tree, some root, some half, kv⟩ =
        .ok (.leave ⟨heap, tree.root⟩) ∧
      heap.cell root = some newTop ∧ newTop.size = 2 ∧
      (kv.1 < mid.1 → newTop.kvs.take 2 = [kv, mid] ∧
        newTop.subs = [some x, some half, some y, none]) ∧
      (¬ kv.1 < mid.1 → newTop.kvs.take 2 = [mid, kv] ∧
        newTop.subs = [some x, some y, some half, none]) ∧
      heap.cell half = some (halfNode.setParent (some root)) ∧
      ∀ other, other ≠ root → other ≠ half → heap.cell other = tree.heap.cell other := by
  match junk, junkLength with
  | [first, second], _ =>
      let kvs := if kv.1 < mid.1 then [kv, mid, second] else [mid, kv, second]
      let subs : List Ptr := if kv.1 < mid.1 then [some x, some half, some y, none]
        else [some x, some y, some half, none]
      let newTop := (top.setSlots kvs subs).setSize 2
      let heap := ((tree.heap.modify root (.setSlots kvs subs)).modify half
        (.setParent (some root))).modify root (.setSize 2)
      have foundTop : heap.cell root = some newTop := by
        simp [heap, newTop, found, different]
      have inserted : baseInsert tree.heap (some root) (some half) kv = .ok heap := by
        by_cases less : kv.1 < mid.1 <;>
          simp [baseInsert, Store.load_some found, topSize, topKvs, topSubs, shift, readAt,
            writeAt, less, Store.assign_some, adopt, foundHalf, found, different,
            different.symm, heap, kvs, subs]
      refine ⟨heap, newTop, ?_, foundTop, rfl, ?_, ?_, ?_, ?_⟩
      · simp [insertPass, inserted, Store.load_some foundTop, newTop, BTreeNode.setSize]
      · intro less
        simp [newTop, BTreeNode.setSize, BTreeNode.setSlots, kvs, subs, less]
      · intro notLess
        simp [newTop, BTreeNode.setSize, BTreeNode.setSlots, kvs, subs, notLess]
      · simp [heap, different.symm, foundHalf]
      · intro other notRoot notHalf
        simp [heap, notRoot, notHalf]

/-- Insertion into a full leaf of a tree of order three: the pair in the middle goes up to the
root, and stays in the leaf. -/
theorem Split.insert_full (split : Split 3 tree root x y left mid right) {cur fuel : Nat}
    {node : BTreeNode Key Value} {items : List (Key × Value)}
    (found : tree.heap.cell cur = some node) (leaf : IsLeaf 3 node items)
    (parentEq : node.parent = some root) (notRoot : root ≠ cur) (increasing : Increasing items)
    (absent : kv.1 ∉ items.map Prod.fst) (full : items.length = 2)
    (missing : find (fuel + 3) tree kv.1 = .ok (some cur, -1)) :
    ∃ last newTop half larger, ∃ within : 1 < larger.length,
      BTree.insert (fuel + 3) 3 tree kv = .ok (⟨last, tree.root⟩, true) ∧
      Inserted kv items larger ∧ last.cell root = some newTop ∧ newTop.size = 2 ∧
      (larger[1].1 < mid.1 → newTop.kvs.take 2 = [larger[1], mid] ∧
        newTop.subs = [some x, some half, some y, none]) ∧
      (¬ larger[1].1 < mid.1 → newTop.kvs.take 2 = [mid, larger[1]] ∧
        newTop.subs = [some x, some y, some half, none]) ∧
      BTree.inOder (fuel + 2) last (some cur) = .ok ((larger.take 2).map Prod.fst) ∧
      BTree.inOder (fuel + 2) last (some half) = .ok ((larger.drop 2).map Prod.fst) ∧
      ∀ other < tree.heap.next, other ≠ root → other ≠ cur →
        last.cell other = tree.heap.cell other := by
  rcases split.top with ⟨top, foundTop, topSize, ⟨junk, topKvs, junkLength⟩, topSubs⟩
  rcases leaf.insertPass_full found increasing absent (by omega) with
    ⟨heap, half, grown, halfNode, larger, within, placed, pass, foundCur, grownLeaf, _,
      foundHalf, halfLeaf, halfEq, nextEq, elsewhere⟩
  have rootLt := Store.lt_next foundTop
  have leafLt := Store.lt_next found
  have topAfter : heap.cell root = some top := by
    rw [elsewhere root notRoot (by omega), foundTop]
  rcases insertPass_top ⟨heap, tree.root⟩ topAfter foundHalf (by omega) topSize topKvs
    (by omega) topSubs larger[(3 / 2 + 1) / 2] with
    ⟨last, newTop, topPass, foundLast, lastSize, smaller, greater, halfLast, restLast⟩
  rw [if_neg (by rw [split.root_eq]; simpa using notRoot.symm), parentEq] at pass
  have cut : IsLeaf 3 (grown.setSize 2) (larger.take 2) :=
    grownLeaf.truncate (by rw [placed.length_eq]; omega)
  have cutLast : last.cell cur = some (grown.setSize 2) := by
    rw [restLast cur notRoot.symm (by omega), foundCur]
  refine ⟨last, newTop, half, larger, within, ?_, placed, foundLast, lastSize, smaller, greater,
    cut.inOder cutLast fuel, (halfLeaf.setParent (some root)).inOder halfLast fuel, ?_⟩
  · rw [insert_absent split.root_eq missing, repeatLoop_again _ pass, repeatLoop_leave _ topPass]
    rfl
  · intro other inside otherRoot otherCur
    rw [restLast other otherRoot (by omega), elsewhere other otherCur (by omega)]

/-- The split of the left leaf of a tree of order three leaves a key twice. -/
theorem Split.overflow_left (split : Split 3 tree root x y left mid right)
    (increasing : Increasing left) (absent : kv.1 ∉ left.map Prod.fst) (less : kv.1 < mid.1)
    (leftLess : ∀ pair ∈ left, pair.1 < mid.1) (full : left.length = 2) (fuel : Nat) :
    ∃ after visited, BTree.insert (fuel + 3) 3 tree kv = .ok (after, true) ∧
      BTree.inOder (fuel + 3) after.heap after.root = .ok visited ∧
      ¬ visited.Pairwise (· < ·) := by
  rcases split.leftLeaf with ⟨node, found, leaf, parentEq⟩
  rcases split.rightLeaf with ⟨other, foundOther, otherLeaf, _⟩
  have missing : find (fuel + 3) tree kv.1 = .ok (some x, -1) := by
    rw [split.find_left less]
    exact leaf.find_missing found increasing absent _ fuel
  rcases split.insert_full found leaf parentEq split.distinct.1 increasing absent full missing with
    ⟨last, newTop, half, larger, within, inserted, placed, foundTop, topSize, smaller, _,
      curVisited, halfVisited, elsewhere⟩
  have midLess : larger[1].1 < mid.1 := by
    rcases (placed.mem_iff _).mp (List.getElem_mem within) with equal | member
    · rw [equal]
      exact less
    · exact leftLess _ member
  have otherLast : last.cell y = some other := by
    rw [elsewhere y (Store.lt_next foundOther) split.distinct.2.1.symm split.distinct.2.2.symm,
      foundOther]
  refine ⟨⟨last, tree.root⟩, (larger.take 2).map Prod.fst ++ larger[1].1 ::
    ((larger.drop 2).map Prod.fst ++ mid.1 :: right.map Prod.fst), inserted, ?_, ?_⟩
  · rw [split.root_eq]
    exact inOder_two foundTop topSize (smaller midLess).1 (smaller midLess).2 curVisited
      halfVisited (otherLeaf.inOder otherLast fuel)
  · exact not_increasing_middle within _

/-- The split of the right leaf of a tree of order three leaves a key twice. -/
theorem Split.overflow_right (split : Split 3 tree root x y left mid right)
    (increasing : Increasing right) (absent : kv.1 ∉ right.map Prod.fst) (greater : mid.1 < kv.1)
    (rightGreater : ∀ pair ∈ right, mid.1 < pair.1) (full : right.length = 2) (fuel : Nat) :
    ∃ after visited, BTree.insert (fuel + 3) 3 tree kv = .ok (after, true) ∧
      BTree.inOder (fuel + 3) after.heap after.root = .ok visited ∧
      ¬ visited.Pairwise (· < ·) := by
  rcases split.leftLeaf with ⟨other, foundOther, otherLeaf, _⟩
  rcases split.rightLeaf with ⟨node, found, leaf, parentEq⟩
  have missing : find (fuel + 3) tree kv.1 = .ok (some y, -1) := by
    rw [split.find_right greater]
    exact leaf.find_missing found increasing absent _ fuel
  rcases split.insert_full found leaf parentEq split.distinct.2.1 increasing absent full missing
    with ⟨last, newTop, half, larger, within, inserted, placed, foundTop, topSize, _, behind,
      curVisited, halfVisited, elsewhere⟩
  have midGreater : ¬ larger[1].1 < mid.1 := by
    apply not_lt_of_gt
    rcases (placed.mem_iff _).mp (List.getElem_mem within) with equal | member
    · rw [equal]
      exact greater
    · exact rightGreater _ member
  have otherLast : last.cell x = some other := by
    rw [elsewhere x (Store.lt_next foundOther) split.distinct.1.symm split.distinct.2.2,
      foundOther]
  refine ⟨⟨last, tree.root⟩, left.map Prod.fst ++ mid.1 :: ((larger.take 2).map Prod.fst ++
    larger[1].1 :: (larger.drop 2).map Prod.fst), inserted, ?_, ?_⟩
  · rw [split.root_eq]
    exact inOder_two foundTop topSize (behind midGreater).1 (behind midGreater).2
      (otherLeaf.inOder otherLast fuel) curVisited halfVisited
  · intro whole
    rw [List.pairwise_append, List.pairwise_cons] at whole
    exact not_increasing_middle within _ whole.2.1.2

end Insert

end DataStructAlgorithm.DataStruct.BTree
