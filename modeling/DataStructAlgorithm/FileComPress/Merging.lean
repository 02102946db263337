import Mathlib.Data.List.Nodup
import DataStructAlgorithm.Foundation.OptimalTree
import DataStructAlgorithm.DataStruct.BinaryTree.CreatTree
import DataStructAlgorithm.FileComPress.Heap
import DataStructAlgorithm.FileComPress.HuffmanTree

/-! # Merging the trees of a forest

The heap holds the roots of the trees that have not been joined yet. -/

namespace DataStructAlgorithm.FileComPress.HuffmanTree

open Foundation DataStruct

variable {T : Type} {weight : Operators T}

/-- The weight of the node at an address. -/
def keyOf (weight : Operators T) (nodes : Store (HuffmanNode T)) (address : Nat) : Nat :=
  ((nodes.cell address).map fun node => weight.value node.data).getD 0

/-- The weight of the root. -/
def rootWeight (weight : Operators T) : AddrTree T → Nat
  | .nil => 0
  | .node _ _ data _ => weight.value data

/-- A tree as the loop builds it. -/
structure Sound (weight : Operators T) (nodes : Store (HuffmanNode T)) (tree : AddrTree T) :
    Prop where
  linked : Linked nodes none tree
  full : Full (shape tree)
  combines : Combines weight.add (shape tree)

/-- The heap holds the roots of the trees, ordered by their weights. -/
structure Forest (weight : Operators T) (state : Building T) (trees : List (AddrTree T)) : Prop where
  roots : (state.queue.map some).Perm (trees.map AddrTree.pointer)
  sound : ∀ tree ∈ trees, Sound weight state.nodes tree
  nodup : (trees.flatMap AddrTree.addresses).Nodup
  ordered : Heap.Ordered (keyOf weight state.nodes) state.queue

theorem keyOf_root {nodes : Store (HuffmanNode T)} {parent : Ptr} {tree : AddrTree T}
    {address : Nat} (linked : Linked nodes parent tree) (isRoot : tree.pointer = some address) :
    keyOf weight nodes address = rootWeight weight tree := by
  cases tree with
  | nil => cases isRoot
  | node left own data right =>
      cases isRoot
      rw [keyOf, linked.1]
      rfl

theorem found_root {nodes : Store (HuffmanNode T)} {parent : Ptr} {tree : AddrTree T}
    {address : Nat} (linked : Linked nodes parent tree) (isRoot : tree.pointer = some address) :
    ∃ node, nodes.cell address = some node := by
  cases tree with
  | nil => cases isRoot
  | node left own data right =>
      cases isRoot
      exact ⟨_, linked.1⟩

theorem smallHeap_eq {nodes : Store (HuffmanNode T)} {left right : Nat}
    {leftNode rightNode : HuffmanNode T} (foundLeft : nodes.cell left = some leftNode)
    (foundRight : nodes.cell right = some rightNode) :
    smallHeap weight nodes left right =
      .ok (decide (keyOf weight nodes left < keyOf weight nodes right)) := by
  have lt : weight.lt leftNode.data rightNode.data =
      decide (weight.value leftNode.data < weight.value rightNode.data) := by
    rw [Bool.eq_iff_iff, weight.lt_iff, decide_eq_true_eq]
  simp only [smallHeap, Store.load_some foundLeft, Store.load_some foundRight, Outcome.ok_bind,
    keyOf, foundLeft, foundRight, Option.map_some, Option.getD_some, lt]
  rfl

theorem compares_of_found {nodes : Store (HuffmanNode T)} {queue : Heap Nat}
    (found : ∀ address ∈ queue, ∃ node, nodes.cell address = some node) :
    Heap.Compares (smallHeap weight nodes) (keyOf weight nodes) queue := by
  intro left leftMem right rightMem
  rcases found left leftMem with ⟨leftNode, foundLeft⟩
  rcases found right rightMem with ⟨rightNode, foundRight⟩
  exact smallHeap_eq foundLeft foundRight

namespace Forest

variable {state : Building T} {trees : List (AddrTree T)}

theorem length_eq (forest : Forest weight state trees) : state.queue.length = trees.length := by
  have same := forest.roots.length_eq
  rw [List.length_map, List.length_map] at same
  exact same

/-- Every element of the heap is the root of a tree. -/
theorem exists_tree (forest : Forest weight state trees) {address : Nat}
    (member : address ∈ state.queue) : ∃ tree ∈ trees, tree.pointer = some address := by
  have inRoots := forest.roots.mem_iff.mp (List.mem_map_of_mem (f := some) member)
  exact List.mem_map.mp inRoots

/-- Every tree has its root in the heap. -/
theorem exists_root (forest : Forest weight state trees) {tree : AddrTree T}
    (member : tree ∈ trees) : ∃ address ∈ state.queue, tree.pointer = some address := by
  have inRoots := forest.roots.mem_iff.mpr (List.mem_map_of_mem (f := AddrTree.pointer) member)
  rcases List.mem_map.mp inRoots with ⟨address, inQueue, same⟩
  exact ⟨address, inQueue, same.symm⟩

theorem found (forest : Forest weight state trees) {address : Nat}
    (member : address ∈ state.queue) : ∃ node, state.nodes.cell address = some node := by
  rcases forest.exists_tree member with ⟨tree, inTrees, isRoot⟩
  exact found_root (forest.sound tree inTrees).linked isRoot

/-- The heap gives the tree with the smallest weight away. -/
theorem pop (forest : Forest weight state trees) (nonempty : state.queue ≠ []) (fuel : Nat)
    (enough : trees.length < fuel) :
    ∃ address queue tree others, Heap.top state.queue = .ok address ∧
      Heap.pop (smallHeap weight state.nodes) fuel state.queue = .ok queue ∧
      tree.pointer = some address ∧ trees.Perm (tree :: others) ∧
      (∀ other ∈ trees, rootWeight weight tree ≤ rootWeight weight other) ∧
      Forest weight ⟨state.nodes, queue⟩ others := by
  rcases Heap.pop_spec (compares_of_found fun _ => forest.found) forest.ordered nonempty fuel
    (by rw [forest.length_eq]; exact enough) with
    ⟨address, queue, onTop, popped, same, ordered, least⟩
  have inQueue : address ∈ state.queue := same.mem_iff.mp List.mem_cons_self
  rcases forest.exists_tree inQueue with ⟨tree, member, isRoot⟩
  rcases List.append_of_mem member with ⟨front, back, split⟩
  have parts : trees.Perm (tree :: (front ++ back)) := by
    rw [split]
    exact List.perm_middle
  refine ⟨address, queue, tree, front ++ back, onTop, popped, isRoot, parts, ?_, ?_⟩
  · intro other otherMember
    rcases forest.exists_root otherMember with ⟨otherAddress, otherInQueue, otherRoot⟩
    have low := least otherAddress otherInQueue
    rw [keyOf_root (forest.sound _ member).linked isRoot,
      keyOf_root (forest.sound _ otherMember).linked otherRoot] at low
    exact low
  · refine ⟨?_, ?_, ?_, ordered⟩
    · have whole : ((address :: queue).map some).Perm ((tree :: (front ++ back)).map
          AddrTree.pointer) :=
        ((same.map some).trans forest.roots).trans (parts.map AddrTree.pointer)
      rw [List.map_cons, List.map_cons, isRoot] at whole
      exact whole.cons_inv
    · exact fun other inOthers => forest.sound other (parts.mem_iff.mpr
        (List.mem_cons_of_mem tree inOthers))
    · have flat := (parts.flatMap_right AddrTree.addresses).nodup_iff.mp forest.nodup
      rw [List.flatMap_cons] at flat
      exact (List.nodup_append.mp flat).2.1

/-- A store in which the nodes of the trees are the same shows the same forest. -/
theorem congr (forest : Forest weight state trees) {nodes : Store (HuffmanNode T)}
    (same : ∀ tree ∈ trees, ∀ address ∈ tree.addresses,
      nodes.cell address = state.nodes.cell address) :
    Forest weight ⟨nodes, state.queue⟩ trees := by
  refine ⟨forest.roots, fun tree member => ?_, forest.nodup, ?_⟩
  · rcases forest.sound tree member with ⟨linked, full, sums⟩
    exact ⟨linked.congr (same tree member), full, sums⟩
  · apply forest.ordered.congr
    intro address member
    rcases forest.exists_tree member with ⟨tree, inTrees, isRoot⟩
    rw [keyOf, keyOf, same tree inTrees address (AddrTree.mem_addresses_of_pointer isRoot)]

/-- A further tree is put on the heap. -/
theorem push (forest : Forest weight state trees) {tree : AddrTree T} {address : Nat}
    (sound : Sound weight state.nodes tree) (isRoot : tree.pointer = some address)
    (apart : (tree.addresses ++ trees.flatMap AddrTree.addresses).Nodup) (fuel : Nat)
    (enough : trees.length < fuel) :
    ∃ queue, Heap.push (smallHeap weight state.nodes) fuel state.queue address = .ok queue ∧
      Forest weight ⟨state.nodes, queue⟩ (tree :: trees) := by
  have found : ∀ other ∈ address :: state.queue, ∃ node, state.nodes.cell other = some node := by
    intro other member
    rcases List.mem_cons.mp member with equal | inQueue
    · rw [equal]
      exact found_root sound.linked isRoot
    · exact forest.found inQueue
  rcases Heap.push_spec address (compares_of_found found) forest.ordered fuel
    (by rw [forest.length_eq]; exact enough) with ⟨queue, pushed, same, ordered⟩
  refine ⟨queue, pushed, ?_, ?_, ?_, ordered⟩
  · rw [List.map_cons, isRoot]
    exact (same.map some).trans (forest.roots.cons (some address))
  · exact List.forall_mem_cons.mpr ⟨sound, forest.sound⟩
  · rw [List.flatMap_cons]
    exact apart

end Forest

/-! ## One pass -/

/-- Joining two trees makes a new root, and nothing but the two parent links changes. -/
theorem joinNodes_spec {nodes : Store (HuffmanNode T)} {first second : AddrTree T}
    {left right : Nat} (firstSound : Sound weight nodes first)
    (secondSound : Sound weight nodes second) (isLeft : first.pointer = some left)
    (isRight : second.pointer = some right) (apart : (first.addresses ++ second.addresses).Nodup) :
    ∃ after data, joinNodes weight nodes left right = .ok after ∧
      Sound weight after (.node first nodes.next data second) ∧
      ∀ address, address ≠ nodes.next → address ∉ first.addresses → address ∉ second.addresses →
        after.cell address = nodes.cell address := by
  have leftIn := AddrTree.mem_addresses_of_pointer isLeft
  have rightIn := AddrTree.mem_addresses_of_pointer isRight
  rcases List.nodup_append.mp apart with ⟨firstNodup, secondNodup, disjoint⟩
  have firstLow := firstSound.linked.mem_lt_next
  have secondLow := secondSound.linked.mem_lt_next
  cases first with
  | nil => cases isLeft
  | node firstLeft leftAddress leftData firstRight =>
      cases second with
      | nil => cases isRight
      | node secondLeft rightAddress rightData secondRight =>
          cases isLeft
          cases isRight
          have newLeft : nodes.next ∉ (AddrTree.node firstLeft left leftData firstRight).addresses :=
            fun member => Nat.lt_irrefl _ (firstLow _ member)
          have newRight : nodes.next ∉
              (AddrTree.node secondLeft right rightData secondRight).addresses :=
            fun member => Nat.lt_irrefl _ (secondLow _ member)
          have leftNotRight : left ∉
              (AddrTree.node secondLeft right rightData secondRight).addresses :=
            fun member => disjoint _ leftIn _ member rfl
          have rightNotLeft : right ∉
              (AddrTree.node firstLeft left leftData firstRight).addresses :=
            fun member => disjoint _ member _ rightIn rfl
          have leftNe : left ≠ nodes.next := Nat.ne_of_lt (firstLow _ leftIn)
          have rightNe : right ≠ nodes.next := Nat.ne_of_lt (secondLow _ rightIn)
          have different : right ≠ left := fun same => disjoint _ leftIn _ rightIn same.symm
          have leftFound := firstSound.linked.1
          have rightFound := secondSound.linked.1
          -- The cells that the four assignments read.
          let parent := newNode (weight.add leftData rightData)
          have newFound : (nodes.alloc parent).cell nodes.next = some parent :=
            Store.cell_alloc_next nodes parent
          have leftStays : ((nodes.alloc parent).modify nodes.next
              (.setChild .left (some left))).cell left = nodes.cell left := by
            simp [leftNe, firstLow _ leftIn]
          have newStays : (((nodes.alloc parent).modify nodes.next
              (.setChild .left (some left))).modify left (.setParent (some nodes.next))).cell
              nodes.next = some (parent.setChild .left (some left)) := by
            simp [leftNe.symm]
          have rightStays : ((((nodes.alloc parent).modify nodes.next
              (.setChild .left (some left))).modify left (.setParent (some nodes.next))).modify
              nodes.next (.setChild .right (some right))).cell right = nodes.cell right := by
            simp [rightNe, different, secondLow _ rightIn]
          refine ⟨((((nodes.alloc parent).modify nodes.next (.setChild .left (some left))).modify left
            (.setParent (some nodes.next))).modify nodes.next (.setChild .right (some right))).modify
            right (.setParent (some nodes.next)), weight.add leftData rightData, ?_,
            ⟨⟨?_, ?_, ?_⟩, ?_, ?_⟩, ?_⟩
          · simp only [joinNodes, Store.load_some leftFound, Store.load_some rightFound,
              Outcome.ok_bind]
            rw [Store.assign_some _ newFound, Outcome.ok_bind,
              Store.assign_some _ (leftStays.trans leftFound), Outcome.ok_bind,
              Store.assign_some _ newStays, Outcome.ok_bind,
              Store.assign_some _ (rightStays.trans rightFound)]
          · simp [leftNe.symm, rightNe.symm, parent, newNode, TreeNode.setChild]
          · exact ((((firstSound.linked.alloc _).modify_of_not_mem _ newLeft).reparent _
              firstNodup).modify_of_not_mem _ newLeft).modify_of_not_mem _ rightNotLeft
          · exact ((((secondSound.linked.alloc _).modify_of_not_mem _ newRight).modify_of_not_mem _
              leftNotRight).modify_of_not_mem _ newRight).reparent _ secondNodup
          · exact ⟨iff_of_false nofun nofun, firstSound.full, secondSound.full⟩
          · refine ⟨fun label other isLabel isOther => ?_, firstSound.combines,
              secondSound.combines⟩
            cases isLabel
            cases isOther
            rfl
          · intro address notNew notFirst notSecond
            have notLeft : address ≠ left := fun same => notFirst (same ▸ leftIn)
            have notRight : address ≠ right := fun same => notSecond (same ▸ rightIn)
            simp [notNew, notLeft, notRight, Store.alloc]

/-- A pass joins the two trees with the smallest weights. -/
theorem mergePass_spec {state : Building T} {trees : List (AddrTree T)}
    (forest : Forest weight state trees) (several : 1 < trees.length) (fuel : Nat)
    (enough : trees.length < fuel) :
    ∃ after first second others data, mergePass weight fuel state = .ok (.again after) ∧
      trees.Perm (first :: second :: others) ∧
      rootWeight weight first ≤ rootWeight weight second ∧
      (∀ other ∈ others, rootWeight weight second ≤ rootWeight weight other) ∧
      Forest weight after (.node first state.nodes.next data second :: others) := by
  have manyRoots : state.queue.length > 1 := by
    rw [forest.length_eq]
    exact several
  have nonempty : state.queue ≠ [] := List.ne_nil_of_length_pos (by omega)
  rcases forest.pop nonempty fuel enough with
    ⟨left, oneLess, first, rest, onTop, popped, isLeft, firstParts, firstLeast, restForest⟩
  have restLength : trees.length = rest.length + 1 := firstParts.length_eq
  have restNonempty : oneLess ≠ [] := by
    have sameLength := restForest.length_eq
    dsimp only at sameLength
    apply List.ne_nil_of_length_pos
    omega
  rcases restForest.pop restNonempty fuel (by omega) with
    ⟨right, twoLess, second, others, nextTop, nextPopped, isRight, secondParts, secondLeast,
      othersForest⟩
  have parts : trees.Perm (first :: second :: others) := firstParts.trans (secondParts.cons first)
  have firstMem : first ∈ trees := parts.mem_iff.mpr List.mem_cons_self
  have secondMem : second ∈ trees := parts.mem_iff.mpr (by simp)
  have flat := (parts.flatMap_right AddrTree.addresses).nodup_iff.mp forest.nodup
  rw [List.flatMap_cons, List.flatMap_cons, ← List.append_assoc] at flat
  rcases List.nodup_append.mp flat with ⟨apart, _, otherApart⟩
  have firstSound := forest.sound first firstMem
  have secondSound := forest.sound second secondMem
  rcases joinNodes_spec firstSound secondSound isLeft isRight apart with
    ⟨nodes, data, joined, sound, same⟩
  have below : ∀ tree ∈ trees, ∀ address ∈ tree.addresses, address < state.nodes.next :=
    fun tree member => (forest.sound tree member).linked.mem_lt_next
  have kept : Forest weight ⟨nodes, twoLess⟩ others := by
    apply othersForest.congr
    intro tree member address inTree
    have outside := fun other inBoth => otherApart other inBoth address
      (List.mem_flatMap.mpr ⟨tree, member, inTree⟩)
    have treeMem : tree ∈ trees := parts.mem_iff.mpr (by simp [member])
    apply same address
    · exact Nat.ne_of_lt (below tree treeMem address inTree)
    · exact fun inFirst => outside address (List.mem_append_left _ inFirst) rfl
    · exact fun inSecond => outside address (List.mem_append_right _ inSecond) rfl
  have newApart : ((AddrTree.node first state.nodes.next data second).addresses ++
      others.flatMap AddrTree.addresses).Nodup := by
    have moved : ((AddrTree.node first state.nodes.next data second).addresses ++
        others.flatMap AddrTree.addresses).Perm (state.nodes.next ::
          (first.addresses ++ second.addresses ++ others.flatMap AddrTree.addresses)) := by
      rw [AddrTree.addresses]
      exact List.perm_middle.append_right _
    rw [moved.nodup_iff, List.nodup_cons]
    refine ⟨fun member => ?_, flat⟩
    have inTrees : state.nodes.next ∈ trees.flatMap AddrTree.addresses := by
      rw [(parts.flatMap_right AddrTree.addresses).mem_iff, List.flatMap_cons, List.flatMap_cons,
        ← List.append_assoc]
      exact member
    rcases List.mem_flatMap.mp inTrees with ⟨tree, treeMem, inTree⟩
    exact Nat.lt_irrefl _ (below tree treeMem _ inTree)
  have othersLength : rest.length = others.length + 1 := secondParts.length_eq
  rcases kept.push sound rfl newApart fuel (by omega) with ⟨queue, pushed, grown⟩
  refine ⟨⟨nodes, queue⟩, first, second, others, data, ?_, parts, firstLeast second secondMem, ?_,
    grown⟩
  · rw [mergePass, if_pos manyRoots, onTop, Outcome.ok_bind, popped, Outcome.ok_bind, nextTop,
      Outcome.ok_bind, nextPopped, Outcome.ok_bind, joined, Outcome.ok_bind, pushed,
      Outcome.ok_bind]
    rfl
  · intro other member
    exact secondLeast other (secondParts.mem_iff.mpr (List.mem_cons_of_mem second member))

/-- The loop over the array makes a tree of one node of every valid entry. -/
theorem pushEntry_spec {state : Building T} {trees : List (AddrTree T)}
    (forest : Forest weight state trees) (invalue entry : T) (fuel : Nat)
    (enough : trees.length < fuel) :
    ∃ after, pushEntry weight fuel invalue state entry = .ok after ∧
      Forest weight after (if weight.ne entry invalue then
        .node .nil state.nodes.next entry .nil :: trees else trees) := by
  by_cases valid : weight.ne entry invalue = true
  · simp only [pushEntry, valid, if_true]
    have below : ∀ tree ∈ trees, ∀ address ∈ tree.addresses, address < state.nodes.next :=
      fun tree member => (forest.sound tree member).linked.mem_lt_next
    have kept : Forest weight ⟨state.nodes.alloc (newNode entry), state.queue⟩ trees :=
      forest.congr fun tree member address inTree =>
        Store.cell_alloc_of_lt _ _ (below tree member address inTree)
    have sound : Sound weight (state.nodes.alloc (newNode entry))
        (.node .nil state.nodes.next entry .nil) := by
      refine ⟨⟨Store.cell_alloc_next _ _, trivial, trivial⟩, ⟨Iff.rfl, trivial, trivial⟩,
        ⟨?_, trivial, trivial⟩⟩
      intro label other isLabel
      cases isLabel
    have apart : ((AddrTree.node .nil state.nodes.next entry .nil).addresses ++
        trees.flatMap AddrTree.addresses).Nodup := by
      show (state.nodes.next :: trees.flatMap AddrTree.addresses).Nodup
      refine List.nodup_cons.mpr ⟨fun member => ?_, forest.nodup⟩
      rcases List.mem_flatMap.mp member with ⟨tree, treeMem, inTree⟩
      exact Nat.lt_irrefl _ (below tree treeMem _ inTree)
    rcases kept.push sound rfl apart fuel enough with ⟨queue, pushed, grown⟩
    refine ⟨_, ?_, grown⟩
    rw [pushed]
    rfl
  · refine ⟨state, ?_, ?_⟩
    · simp only [pushEntry, valid]
      rfl
    · rw [if_neg valid]
      exact forest

end DataStructAlgorithm.FileComPress.HuffmanTree
