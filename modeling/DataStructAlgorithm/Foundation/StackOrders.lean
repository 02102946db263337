import DataStructAlgorithm.Foundation.ForkTree
import DataStructAlgorithm.Foundation.StackWalk

/-! # Pre-order and post-order traversal with a stack

Both loops push the nodes of a left spine, as the in-order loop does. In post-order a node stays
on the stack while its right subtree is visited; that this has been done is seen from the node
that was put out last. -/

namespace DataStructAlgorithm.Foundation

namespace AddrTree

/-- The payloads in pre-order. -/
def preOrder : AddrTree Data → List Data
  | .nil => []
  | .node left _ data right => data :: (left.preOrder ++ right.preOrder)

/-- The payloads in post-order. -/
def postOrder : AddrTree Data → List Data
  | .nil => []
  | .node left _ data right => left.postOrder ++ (right.postOrder ++ [data])

def size : AddrTree Data → Nat
  | .nil => 0
  | .node left _ _ right => left.size + right.size + 1

theorem height_le_size (tree : AddrTree Data) : tree.height ≤ tree.size := by
  induction tree with
  | nil => exact Nat.le_refl 0
  | node left address data right leftInduction rightInduction =>
      rw [height, size]
      omega

end AddrTree

section Loops

variable {Node Item : Type} (view : NodeView Node Item)

/-- One pass of the inner loop in pre-order, which puts out each node that it pushes. -/
def printPass (heap : Store Node) (state : Ptr × List Ptr × List Item) :
    Outcome (Pass (Ptr × List Ptr × List Item) (List Ptr × List Item)) :=
  match state.1 with
  | none => .ok (.leave state.2)
  | some _ => do
      let node ← heap.load state.1
      pure (.again (view.left node, state.1 :: state.2.1, state.2.2 ++ [view.item node]))

/-- One pass of `while (cur || !s.empty())` in pre-order. -/
def preOrderPass (fuel : Nat) (heap : Store Node) (state : Walk Item) :
    Outcome (Pass (Walk Item) (List Item)) :=
  if state.cur.isNone && state.stack.isEmpty then .ok (.leave state.output)
  else do
    match ← repeatLoop (printPass view heap) fuel (state.cur, state.stack, state.output) with
    | ([], _) => .error .outOfRange
    | (top :: stack, output) => do
        let node ← heap.load top
        pure (.again ⟨view.right node, stack, output⟩)

/-- The whole traversal in pre-order, with the test for an empty tree before it. -/
def preOrderWalk (fuel : Nat) (heap : Store Node) (root : Ptr) : Outcome (List Item) :=
  match root with
  | none => .ok []
  | some _ => repeatLoop (preOrderPass view fuel heap) fuel ⟨root, [], []⟩

/-- The variables of the traversal in post-order; `prev` is the node put out last. -/
structure PostWalk (Item : Type) where
  cur : Ptr
  stack : List Ptr
  prev : Ptr
  output : List Item

/-- One pass of `while (cur || !s.empty())` in post-order. -/
def postOrderPass (fuel : Nat) (heap : Store Node) (state : PostWalk Item) :
    Outcome (Pass (PostWalk Item) (List Item)) :=
  if state.cur.isNone && state.stack.isEmpty then .ok (.leave state.output)
  else do
    match ← repeatLoop (pushPass view heap) fuel (state.cur, state.stack) with
    | [] => .error .outOfRange
    | front :: stack => do
        let node ← heap.load front
        if view.right node = none ∨ state.prev = view.right node then
          pure (.again ⟨none, stack, front, state.output ++ [view.item node]⟩)
        else pure (.again ⟨view.right node, front :: stack, state.prev, state.output⟩)

/-- The whole traversal in post-order, from some value of `prev`. -/
def postOrderWalk (fuel : Nat) (heap : Store Node) (root prev : Ptr) : Outcome (List Item) :=
  match root with
  | none => .ok []
  | some _ => repeatLoop (postOrderPass view fuel heap) fuel ⟨root, [], prev, []⟩

end Loops

section Traversal

variable {Node Item : Type} {view : NodeView Node Item} {heap : Store Node} {tree : AddrTree Item}

/-! ## Pre-order -/

theorem print_returns (seen : Seen view heap tree) (stack : List Ptr) (output : List Item)
    (fuel : Nat) (enough : tree.height < fuel) :
    ∃ result, repeatLoop (printPass view heap) fuel (tree.pointer, stack, output) = .ok result := by
  induction tree generalizing stack output fuel with
  | nil =>
      cases fuel with
      | zero => omega
      | succ fuel => exact ⟨_, repeatLoop_leave fuel rfl⟩
  | node left address item right leftInduction _ =>
      rcases seen with ⟨⟨node, found, leftEq, _⟩, leftSeen, _⟩
      simp only [AddrTree.height] at enough
      cases fuel with
      | zero => omega
      | succ fuel =>
          have pass : printPass view heap (some address, stack, output) =
              .ok (.again (left.pointer, some address :: stack, output ++ [view.item node])) := by
            simp [printPass, Store.load_some found, leftEq]
          rw [AddrTree.pointer_node, repeatLoop_again fuel pass]
          exact leftInduction leftSeen _ _ fuel (by omega)

/-- At a node the pass begins as if the node had been pushed before. -/
theorem preOrderPass_node {left right : AddrTree Item} {address : Nat} {item : Item} {fuel : Nat}
    (seen : Seen view heap (.node left address item right))
    (low : (AddrTree.node left address item right).height < fuel) (stack : List Ptr)
    (output : List Item) :
    preOrderPass view fuel heap ⟨some address, stack, output⟩ =
      preOrderPass view fuel heap ⟨left.pointer, some address :: stack, output ++ [item]⟩ := by
  rcases print_returns seen stack output fuel low with ⟨result, returned⟩
  rcases seen with ⟨⟨node, found, leftEq, _, itemEq⟩, _⟩
  have pass : printPass view heap (some address, stack, output) =
      .ok (.again (left.pointer, some address :: stack, output ++ [item])) := by
    simp [printPass, Store.load_some found, leftEq, itemEq]
  rw [AddrTree.pointer_node] at returned
  simp [preOrderPass, returned, repeatLoop_next pass returned]

/-- When a left subtree is done the node above it is popped. -/
theorem preOrderPass_pop {left right : AddrTree Item} {address : Nat} {item : Item} {fuel : Nat}
    (seen : Seen view heap (.node left address item right)) (positive : 0 < fuel)
    (stack : List Ptr) (output : List Item) :
    preOrderPass view fuel heap ⟨none, some address :: stack, output⟩ =
      .ok (.again ⟨right.pointer, stack, output⟩) := by
  rcases seen with ⟨⟨node, found, _, rightEq, _⟩, _⟩
  have nothing : repeatLoop (printPass view heap) fuel (none, some address :: stack, output) =
      .ok (some address :: stack, output) := by
    cases fuel with
    | zero => omega
    | succ fuel => exact repeatLoop_leave fuel rfl
  simp [preOrderPass, nothing, Store.load_some found, rightEq]

/-- A subtree is put out, and the stack is as before. -/
theorem preOrder_reaches {fuel : Nat} (seen : Seen view heap tree) (low : tree.height < fuel)
    (stack : List Ptr) (output : List Item) :
    Reaches (preOrderPass view fuel heap) tree.size ⟨tree.pointer, stack, output⟩
      ⟨none, stack, output ++ tree.preOrder⟩ := by
  induction tree generalizing stack output with
  | nil =>
      rw [AddrTree.preOrder, List.append_nil]
      exact .refl _
  | node left address item right leftInduction rightInduction =>
      have heights := low
      simp only [AddrTree.height] at heights
      have leftDone := leftInduction seen.2.1 (by omega) (some address :: stack) (output ++ [item])
      have popped := Reaches.pass (preOrderPass_pop seen (show 0 < fuel by omega) stack
        (output ++ [item] ++ left.preOrder))
      have rightDone := rightInduction seen.2.2 (by omega) stack (output ++ [item] ++ left.preOrder)
      have all := (leftDone.trans popped).trans rightDone
      have outputs : output ++ [item] ++ left.preOrder ++ right.preOrder =
          output ++ (AddrTree.node left address item right).preOrder := by
        simp [AddrTree.preOrder]
      have passes : left.size + 1 + right.size = left.size + right.size + 1 := by omega
      rw [outputs, passes] at all
      exact .congr (preOrderPass_node seen low stack output) all

theorem preOrderWalk_spec (seen : Seen view heap tree) (fuel : Nat) (enough : tree.size < fuel) :
    preOrderWalk view fuel heap tree.pointer = .ok tree.preOrder := by
  have low := tree.height_le_size
  have reached := preOrder_reaches seen (show tree.height < fuel by omega) [] []
  cases tree with
  | nil => rfl
  | node left address item right => exact reached.leave rfl enough

/-! ## Post-order -/

/-- At a node the pass begins as if the node had been pushed before. -/
theorem postOrderPass_node {left right : AddrTree Item} {address : Nat} {item : Item} {fuel : Nat}
    (seen : Seen view heap (.node left address item right))
    (low : (AddrTree.node left address item right).height < fuel) (stack : List (Waiting Item))
    (prev : Ptr) (output : List Item) :
    postOrderPass view fuel heap ⟨some address, pointers stack, prev, output⟩ =
      postOrderPass view fuel heap ⟨left.pointer, some address :: pointers stack, prev, output⟩ := by
  have returned := pushPass_ends seen stack fuel low
  rcases seen with ⟨⟨node, found, leftEq, _⟩, _⟩
  have pass : pushPass view heap (some address, pointers stack) =
      .ok (.again (left.pointer, some address :: pointers stack)) := by
    simp [pushPass, Store.load_some found, leftEq]
  rw [AddrTree.pointer_node] at returned
  simp [postOrderPass, returned, repeatLoop_next pass returned]

/-- What a pass does with the node on top when there is nothing to push. -/
theorem postOrderPass_top {left right : AddrTree Item} {address : Nat} {item : Item} {fuel : Nat}
    (seen : Seen view heap (.node left address item right)) (positive : 0 < fuel)
    (stack : List Ptr) (prev : Ptr) (output : List Item) :
    postOrderPass view fuel heap ⟨none, some address :: stack, prev, output⟩ =
      .ok (.again (if right.pointer = none ∨ prev = right.pointer then
        ⟨none, stack, some address, output ++ [item]⟩
      else ⟨right.pointer, some address :: stack, prev, output⟩)) := by
  rcases seen with ⟨⟨node, found, _, rightEq, itemEq⟩, _⟩
  have nothing : repeatLoop (pushPass view heap) fuel (none, some address :: stack) =
      .ok (some address :: stack) := by
    cases fuel with
    | zero => omega
    | succ fuel => exact repeatLoop_leave fuel rfl
  simp only [postOrderPass, nothing, Store.load_some found, rightEq, itemEq, Option.isNone_none,
    List.isEmpty_cons, Bool.and_false, Bool.false_eq_true, if_false, Outcome.ok_bind]
  split <;> rfl

/-- The node that was put out last is in no subtree that is still to come. -/
def Unvisited (prev : Ptr) (tree : AddrTree Item) : Prop :=
  ∀ address ∈ tree.addresses, prev ≠ some address

/-- When the walk comes to a subtree, it has not put out any of its nodes. -/
theorem unvisited_sides {left right : AddrTree Item} {address : Nat} {item : Item} {prev : Ptr}
    (apart : AddrTree.Apart left address right)
    (start : prev = some address ∨ Unvisited prev (.node left address item right)) :
    Unvisited prev left ∧ Unvisited (left.pointer.or prev) right := by
  have below : ∀ queried, queried ≠ address →
      queried ∈ (AddrTree.node left address item right).addresses → prev ≠ some queried := by
    intro queried notRoot member equal
    rcases start with root | unvisited
    · exact notRoot (Option.some.inj (equal.symm.trans root))
    · exact unvisited queried member equal
  constructor
  · intro queried member
    exact below queried (fun equal => apart.notLeft (equal ▸ member))
      (AddrTree.mem_node.mpr (Or.inl member))
  · intro queried member
    cases left with
    | nil =>
        exact below queried (fun equal => apart.notRight (equal ▸ member))
          (AddrTree.mem_node.mpr (Or.inr (Or.inr member)))
    | node _ root _ _ =>
        intro equal
        cases equal
        exact apart.disjoint _ (AddrTree.mem_addresses_of_pointer rfl) member

/-- A subtree is put out, the stack is as before, and its root was put out last. Before that the
last node may be the root of the subtree, but none below it. -/
theorem postOrder_reaches {fuel : Nat} (seen : Seen view heap tree) (low : tree.height < fuel)
    (nodup : tree.addresses.Nodup) (stack : List (Waiting Item)) (prev : Ptr) (output : List Item)
    (start : prev = tree.pointer ∨ Unvisited prev tree) :
    ∃ passes, passes ≤ 2 * tree.size ∧
      Reaches (postOrderPass view fuel heap) passes ⟨tree.pointer, pointers stack, prev, output⟩
        ⟨none, pointers stack, tree.pointer.or prev, output ++ tree.postOrder⟩ := by
  induction tree generalizing stack prev output with
  | nil =>
      refine ⟨0, Nat.zero_le _, ?_⟩
      rw [AddrTree.postOrder, List.append_nil]
      exact .refl _
  | node left address item right leftInduction rightInduction =>
      have apart := AddrTree.Apart.of_nodup nodup
      have heights := low
      simp only [AddrTree.height] at heights
      rcases unvisited_sides apart start with ⟨leftStart, rightStart⟩
      rcases leftInduction seen.2.1 (by omega) apart.leftNodup (⟨address, item, right⟩ :: stack)
        prev output (Or.inr leftStart) with ⟨leftPasses, leftBound, leftDone⟩
      have atTop := postOrderPass_top seen (show 0 < fuel by omega) (pointers stack)
        (left.pointer.or prev) (output ++ left.postOrder)
      have begins := postOrderPass_node seen low stack prev output
      cases right with
      | nil =>
          rw [AddrTree.pointer_nil, if_pos (Or.inl rfl)] at atTop
          have all := leftDone.trans (.pass atTop)
          refine ⟨leftPasses + 1, ?_, ?_⟩
          · rw [AddrTree.size, AddrTree.size]
            omega
          · rw [AddrTree.postOrder, AddrTree.postOrder, List.nil_append, ← List.append_assoc]
            exact .congr begins all
      | node rightLeft root rightItem rightRight =>
          have notDone : ¬((AddrTree.node rightLeft root rightItem rightRight).pointer = none ∨
              left.pointer.or prev = (AddrTree.node rightLeft root rightItem rightRight).pointer) := by
            rintro (nothing | done)
            · cases nothing
            · exact rightStart root (AddrTree.mem_addresses_of_pointer rfl) done
          rw [if_neg notDone] at atTop
          rcases rightInduction seen.2.2 (by omega) apart.rightNodup
            (⟨address, item, .node rightLeft root rightItem rightRight⟩ :: stack)
            (left.pointer.or prev) (output ++ left.postOrder) (Or.inr rightStart) with
            ⟨rightPasses, rightBound, rightDone⟩
          have again := postOrderPass_top seen (show 0 < fuel by omega) (pointers stack) (some root)
            (output ++ left.postOrder ++
              (AddrTree.node rightLeft root rightItem rightRight).postOrder)
          rw [AddrTree.pointer_node, if_pos (Or.inr rfl)] at again
          have all := ((leftDone.trans (.pass atTop)).trans rightDone).trans (.pass again)
          refine ⟨leftPasses + 1 + rightPasses + 1, ?_, ?_⟩
          · rw [AddrTree.size]
            omega
          · rw [AddrTree.postOrder, ← List.append_assoc, ← List.append_assoc]
            exact .congr begins all

/-- The traversal ends from every value of `prev` that is null or the root. -/
theorem postOrderWalk_spec (seen : Seen view heap tree) (nodup : tree.addresses.Nodup) (prev : Ptr)
    (start : prev = none ∨ prev = tree.pointer) (fuel : Nat) (enough : 2 * tree.size < fuel) :
    postOrderWalk view fuel heap tree.pointer prev = .ok tree.postOrder := by
  have low := tree.height_le_size
  have begins : prev = tree.pointer ∨ Unvisited prev tree := by
    rcases start with rfl | root
    · exact Or.inr fun _ _ => nofun
    · exact Or.inl root
  rcases postOrder_reaches seen (show tree.height < fuel by omega) nodup [] prev [] begins with
    ⟨passes, bound, reached⟩
  cases tree with
  | nil => rfl
  | node left address item right => exact reached.leave rfl (by omega)

end Traversal

/-! ## Trees of forks -/

theorem AddrTree.fold_preOrder (tree : AddrTree Data) :
    tree.fold [] (fun data left right => data :: (left ++ right)) = tree.preOrder := by
  induction tree with
  | nil => rfl
  | node left address data right leftInduction rightInduction =>
      rw [fold, leftInduction, rightInduction, preOrder]

theorem AddrTree.fold_toList (tree : AddrTree Data) :
    tree.fold [] (fun data left right => left ++ data :: right) = tree.toList := by
  induction tree with
  | nil => rfl
  | node left address data right leftInduction rightInduction =>
      rw [fold, leftInduction, rightInduction, toList_node]

theorem AddrTree.fold_postOrder (tree : AddrTree Data) :
    tree.fold [] (fun data left right => left ++ (right ++ [data])) = tree.postOrder := by
  induction tree with
  | nil => rfl
  | node left address data right leftInduction rightInduction =>
      rw [fold, leftInduction, rightInduction, postOrder]

theorem AddrTree.length_toList (tree : AddrTree Data) : tree.toList.length = tree.size := by
  induction tree with
  | nil => rfl
  | node left address data right leftInduction rightInduction =>
      rw [toList_node, List.length_append, List.length_cons, leftInduction, rightInduction, size]
      omega

/-- Trees without parent links, read through their payloads. -/
theorem Held.seen {Data Item : Type} {heap : Store (ForkNode Data)} {tree : AddrTree Data}
    (held : Held heap tree) (item : Data → Item) :
    Seen ⟨ForkNode.left, ForkNode.right, fun node => item node.data⟩ heap (tree.map item) := by
  induction tree with
  | nil => trivial
  | node left address data right leftInduction rightInduction =>
      rcases held with ⟨found, leftHeld, rightHeld⟩
      exact ⟨⟨_, found, by simp, by simp, rfl⟩, leftInduction leftHeld, rightInduction rightHeld⟩

end DataStructAlgorithm.Foundation
