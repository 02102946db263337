import DataStructAlgorithm.DataStruct.SearchTree
import DataStructAlgorithm.Foundation.StackWalk

/-! # The tree of `AVLTree/AVLTree.h` -/

namespace DataStructAlgorithm.DataStruct

open Foundation

namespace AVLTree

structure AVLData (Key Value : Type) where
  key : Key
  value : Value
  bf : Int
  deriving DecidableEq, Repr

def AVLData.setBf (bf : Int) (data : AVLData Key Value) : AVLData Key Value :=
  { data with bf := bf }

abbrev Node (Key Value : Type) := TreeNode (AVLData Key Value)

end AVLTree

/-- The class `AVLTree` together with the memory its nodes live in. -/
structure AVLTree (Key Value : Type) where
  heap : Store (AVLTree.Node Key Value)
  root : Ptr

namespace AVLTree

def empty : AVLTree Key Value := ⟨.empty, none⟩

/-- `pointer->_bf = bf` -/
def setBf (heap : Store (Node Key Value)) (pointer : Ptr) (bf : Int) :
    Outcome (Store (Node Key Value)) :=
  heap.assign pointer (.updateData (.setBf bf))

/-- What a longer subtree on `side` adds to a balance factor. -/
def weight : Side → Int
  | .left => -1
  | .right => 1

/-! ## Rotations -/

section Rotations

variable {Key Value : Type} [LinearOrder Key]

/-- The middle of both single rotations: `grandfather`, or the root when there is
none, gets `sub` in the place of `parent`. The side is found by comparing keys. -/
def replaceChild (tree : AVLTree Key Value) (grandfather parent sub : Ptr) :
    Outcome (AVLTree Key Value) :=
  match grandfather with
  | none => do
      let heap ← tree.heap.assign sub (.setParent none)
      pure ⟨heap, sub⟩
  | some _ => do
      let node ← tree.heap.load parent
      let above ← tree.heap.load grandfather
      let side : Side := if above.data.key < node.data.key then .right else .left
      let heap ← tree.heap.assign grandfather (.setChild side sub)
      let heap ← heap.assign sub (.setParent grandfather)
      pure ⟨heap, tree.root⟩

/-- A single rotation that moves `parent` down to `side`. -/
def rotate (side : Side) (tree : AVLTree Key Value) (parent : Ptr) :
    Outcome (AVLTree Key Value) := do
  let node ← tree.heap.load parent
  let sub := node.child side.other
  let subNode ← tree.heap.load sub
  let inner := subNode.child side
  let grandfather := node.parent
  let heap ← tree.heap.assign parent (.setParent sub)
  let heap ← heap.assign sub (.setChild side parent)
  let tree ← replaceChild ⟨heap, tree.root⟩ grandfather parent sub
  let heap ← tree.heap.assign parent (.setChild side.other inner)
  let heap ← match inner with
    | none => pure heap
    | some _ => heap.assign inner (.setParent parent)
  let heap ← setBf heap sub 0
  let heap ← setBf heap parent 0
  pure ⟨heap, tree.root⟩

/-- `_left_left_rotation` -/
def leftLeftRotation (tree : AVLTree Key Value) (parent : Ptr) : Outcome (AVLTree Key Value) :=
  rotate .left tree parent

/-- `_right_right_rotation` -/
def rightRightRotation (tree : AVLTree Key Value) (parent : Ptr) :
    Outcome (AVLTree Key Value) :=
  rotate .right tree parent

/-- `_left_right_rotation` -/
def leftRightRotation (tree : AVLTree Key Value) (parent : Ptr) :
    Outcome (AVLTree Key Value) := do
  let node ← tree.heap.load parent
  let subL := node.left
  let subNode ← tree.heap.load subL
  let subLR := subNode.right
  let inner ← tree.heap.load subLR
  let bf := inner.data.bf
  let tree ← leftLeftRotation tree subL
  let tree ← rightRightRotation tree parent
  let heap ←
    if bf = -1 then do
      let heap ← setBf tree.heap parent 1
      setBf heap subL 0
    else if bf = 1 then do
      let heap ← setBf tree.heap parent 0
      setBf heap subL (-1)
    else do
      let heap ← setBf tree.heap subL 0
      setBf heap parent 0
  let heap ← setBf heap subLR 0
  pure ⟨heap, tree.root⟩

/-- `_right_left_rotation`. Its first branch writes `subRL` where its mirror image
writes the child of `parent`. -/
def rightLeftRotation (tree : AVLTree Key Value) (parent : Ptr) :
    Outcome (AVLTree Key Value) := do
  let node ← tree.heap.load parent
  let subR := node.right
  let subNode ← tree.heap.load subR
  let subRL := subNode.left
  let inner ← tree.heap.load subRL
  let bf := inner.data.bf
  let tree ← rightRightRotation tree subR
  let tree ← leftLeftRotation tree parent
  let heap ←
    if bf = 1 then do
      let heap ← setBf tree.heap parent (-1)
      setBf heap subRL 0
    else if bf = -1 then do
      let heap ← setBf tree.heap parent 0
      setBf heap subR 1
    else do
      let heap ← setBf tree.heap parent 0
      setBf heap subR 0
  let heap ← setBf heap subRL 0
  pure ⟨heap, tree.root⟩

/-! ## Insertion -/

/-- The variables of the retracing loop. -/
structure Retrace (Key Value : Type) where
  tree : AVLTree Key Value
  cur : Ptr
  parent : Ptr

/-- The branch for a factor of 2 or -2, with the heavy side as a parameter. -/
def rebalance (heavy : Side) (tree : AVLTree Key Value) (parent : Ptr) :
    Outcome (AVLTree Key Value) := do
  let node ← tree.heap.load parent
  let sub ← tree.heap.load (node.child heavy)
  match heavy with
  | .right =>
      if sub.data.bf = 1 then leftLeftRotation tree parent
      else if sub.data.bf = -1 then rightLeftRotation tree parent
      else pure tree
  | .left =>
      if sub.data.bf = -1 then rightRightRotation tree parent
      else if sub.data.bf = 1 then leftRightRotation tree parent
      else pure tree

/-- The new subtree below `cur` counts in the factor of `parent`. -/
def updateFactor (heap : Store (Node Key Value)) (cur parent : Ptr) :
    Outcome (Store (Node Key Value)) := do
  let node ← heap.load parent
  if node.left = cur then setBf heap parent (node.data.bf - 1)
  else if node.right = cur then setBf heap parent (node.data.bf + 1)
  else pure heap

/-- One pass of `while (parent)`. A rotation is followed by another pass with the
same `cur` and `parent`. -/
def retracePass (state : Retrace Key Value) :
    Outcome (Pass (Retrace Key Value) (AVLTree Key Value × Bool)) :=
  match state.parent with
  | none => .ok (.leave (state.tree, true))
  | some _ => do
      let heap ← updateFactor state.tree.heap state.cur state.parent
      let tree : AVLTree Key Value := ⟨heap, state.tree.root⟩
      let node ← heap.load state.parent
      if node.data.bf = 0 then pure (.leave (tree, true))
      else if node.data.bf.natAbs = 1 then pure (.again ⟨tree, state.parent, node.parent⟩)
      else if node.data.bf = 2 then do
        let tree ← rebalance .right tree state.parent
        pure (.again ⟨tree, state.cur, state.parent⟩)
      else if node.data.bf = -2 then do
        let tree ← rebalance .left tree state.parent
        pure (.again ⟨tree, state.cur, state.parent⟩)
      else pure (.leave (tree, false))

/-- `AVLTree::insert` -/
def insert (fuel : Nat) (tree : AVLTree Key Value) (key : Key) (value : Value) :
    Outcome (AVLTree Key Value × Bool) :=
  match tree.root with
  | none => pure (⟨tree.heap.alloc ⟨⟨key, value, 0⟩, none, none, none⟩, some tree.heap.next⟩, true)
  | some _ => do
      match ← descend (against AVLData.key key) fuel tree.heap tree.root with
      | .found _ => pure (tree, false)
      | .missing parent => do
          let (heap, cur) ← attach (against AVLData.key key) tree.heap parent ⟨key, value, 0⟩
          repeatLoop retracePass fuel ⟨⟨heap, tree.root⟩, cur, parent⟩

def insertAll (fuel : Nat) : AVLTree Key Value → List (Key × Value) → Outcome (AVLTree Key Value)
  | tree, [] => .ok tree
  | tree, item :: rest => do
      let (tree, _) ← insert fuel tree item.1 item.2
      insertAll fuel tree rest

end Rotations

/-! ## The traversal -/

/-- The key and the value of a node, which the traversal prints. -/
def AVLData.pair (data : AVLData Key Value) : Key × Value :=
  (data.key, data.value)

/-- `inOder`, as the list of the pairs it prints. -/
def inOder (fuel : Nat) (tree : AVLTree Key Value) : Outcome (List (Key × Value)) :=
  inOrder ⟨TreeNode.left, TreeNode.right, fun node => node.data.pair⟩ fuel tree.heap tree.root

/-! ## The check -/

/-- `_isBalance`, the answer and the height it writes to `high`. -/
def isBalanceFrom : Nat → Store (Node Key Value) → Ptr → Outcome (Bool × Nat)
  | 0, _, _ => .error .outOfFuel
  | _ + 1, _, none => .ok (true, 0)
  | fuel + 1, heap, some address => do
      let node ← heap.load (some address)
      let (leftBalanced, leftHigh) ← isBalanceFrom fuel heap node.left
      if !leftBalanced then pure (false, 0)
      else do
        let (rightBalanced, rightHigh) ← isBalanceFrom fuel heap node.right
        if !rightBalanced then pure (false, 0)
        else
          let high := if leftHigh > rightHigh then leftHigh + 1 else rightHigh + 1
          if ((leftHigh : Int) - rightHigh).natAbs > 1 then pure (false, high)
          else pure (true, high)

def isBalance (fuel : Nat) (tree : AVLTree Key Value) : Outcome Bool := do
  let (balanced, _) ← isBalanceFrom fuel tree.heap tree.root
  pure balanced

end AVLTree

end DataStructAlgorithm.DataStruct
