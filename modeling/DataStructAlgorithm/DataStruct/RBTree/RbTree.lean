import Mathlib.Algebra.Group.Nat.Defs
import DataStructAlgorithm.Foundation.Conversions
import DataStructAlgorithm.DataStruct.SearchTree

/-! # The red-black tree of `RBTree/rb_tree.h` and `MyMap/rb_tree.h`

The two headers hold the same insertion. They differ in what it returns: a
flag in the first, a pair of an iterator and the flag in the second. -/

namespace DataStructAlgorithm.DataStruct.RBTree

open Foundation

inductive Colour
  | red
  | black
  deriving DecidableEq, Repr

structure RbData (Value : Type) where
  value : Value
  col : Colour
  deriving DecidableEq, Repr

def RbData.paint (col : Colour) (data : RbData Value) : RbData Value :=
  { data with col := col }

abbrev Node (Value : Type) := TreeNode (RbData Value)

/-- The class `rb_tree` together with the memory its nodes live in. -/
structure RbTree (Value : Type) where
  heap : Store (Node Value)
  root : Ptr

def RbTree.empty : RbTree Value := ⟨.empty, none⟩

/-- `pointer && RED == pointer->_col` -/
def isRed (heap : Store (Node Value)) (pointer : Ptr) : Outcome Bool :=
  match pointer with
  | none => .ok false
  | some _ => do
      let node ← heap.load pointer
      pure (node.data.col = .red)

/-- `pointer->_col = col` -/
def paint (heap : Store (Node Value)) (pointer : Ptr) (col : Colour) :
    Outcome (Store (Node Value)) :=
  heap.assign pointer (.updateData (.paint col))

/-! ## Rotations -/

/-- The end of both rotations: `grandfather`, or the root when there is none,
gets `sub` in the place of `parent`. -/
def replaceChild (tree : RbTree Value) (grandfather parent sub : Ptr) :
    Outcome (RbTree Value) :=
  match grandfather with
  | none => do
      let heap ← tree.heap.assign sub (.setParent none)
      pure ⟨heap, sub⟩
  | some _ => do
      let above ← tree.heap.load grandfather
      let heap ←
        if above.left = parent then tree.heap.assign grandfather (.setChild .left sub)
        else tree.heap.assign grandfather (.setChild .right sub)
      let heap ← heap.assign sub (.setParent grandfather)
      pure ⟨heap, tree.root⟩

/-- A rotation that moves `parent` down to `side`; its child `sub` on the other
side takes its place and hands over its own child on `side`. -/
def rotate (side : Side) (tree : RbTree Value) (parent : Ptr) : Outcome (RbTree Value) := do
  let node ← tree.heap.load parent
  let sub := node.child side.other
  let subNode ← tree.heap.load sub
  let inner := subNode.child side
  let heap ← tree.heap.assign sub (.setChild side parent)
  let node ← heap.load parent
  let grandfather := node.parent
  let heap ← heap.assign parent (.setParent sub)
  let heap ← heap.assign parent (.setChild side.other inner)
  let heap ← match inner with
    | none => pure heap
    | some _ => heap.assign inner (.setParent parent)
  replaceChild ⟨heap, tree.root⟩ grandfather parent sub

/-- `_rb_tree_rotate_left` -/
def rotateLeft (tree : RbTree Value) (parent : Ptr) : Outcome (RbTree Value) :=
  rotate .left tree parent

/-- `_rb_tree_rotate_right`. Its statements stand in another order and it writes
`subL->_right` twice, to the same value. -/
def rotateRight (tree : RbTree Value) (parent : Ptr) : Outcome (RbTree Value) :=
  rotate .right tree parent

def rotateTo (side : Side) (tree : RbTree Value) (parent : Ptr) : Outcome (RbTree Value) :=
  match side with
  | .left => rotateLeft tree parent
  | .right => rotateRight tree parent

/-! ## Insertion -/

/-- The variables of the fix-up loop. -/
structure Fixup (Value : Type) where
  tree : RbTree Value
  cur : Ptr
  parent : Ptr

/-- The uncle is red: recolour, and climb if the great-grandparent is red too. -/
def recolour (state : Fixup Value) (grandfather uncle : Ptr) :
    Outcome (Pass (Fixup Value) (Fixup Value)) := do
  let heap ← paint state.tree.heap uncle .black
  let heap ← paint heap state.parent .black
  let heap ← paint heap grandfather .red
  let tree : RbTree Value := ⟨heap, state.tree.root⟩
  let above ← heap.load grandfather
  if ← isRed heap above.parent then
    let _ ← heap.load above.parent
    pure (.again ⟨tree, grandfather, above.parent⟩)
  else
    pure (.leave ⟨tree, state.cur, state.parent⟩)

/-- The uncle is black or absent: one rotation or two. `side` is the side of
`grandfather` on which `parent` stands. -/
def rotateOut (side : Side) (state : Fixup Value) (grandfather : Ptr) :
    Outcome (Pass (Fixup Value) (Fixup Value)) := do
  let node ← state.tree.heap.load state.parent
  let state ←
    if state.cur = node.child side.other then do
      let tree ← rotateTo side state.tree state.parent
      pure (⟨tree, state.parent, state.cur⟩ : Fixup Value)
    else pure state
  let tree ← rotateTo side.other state.tree grandfather
  let heap ← paint tree.heap state.parent .black
  let heap ← paint heap grandfather .red
  pure (.again ⟨⟨heap, tree.root⟩, state.cur, state.parent⟩)

/-- One pass of `while (parent && RED == parent->_col)`. -/
def fixupPass (state : Fixup Value) : Outcome (Pass (Fixup Value) (Fixup Value)) := do
  if ← isRed state.tree.heap state.parent then
    let node ← state.tree.heap.load state.parent
    let grandfather := node.parent
    let above ← state.tree.heap.load grandfather
    let side : Side := if state.parent = above.left then .left else .right
    let uncle := above.child side.other
    if ← isRed state.tree.heap uncle then
      recolour state grandfather uncle
    else
      rotateOut side state grandfather
  else
    pure (.leave state)

/-- `rb_tree::insert`, with the local variable `cur` as it is at the return. -/
def insertCur [LinearOrder Value] (fuel : Nat) (tree : RbTree Value) (value : Value) :
    Outcome (RbTree Value × Ptr × Bool) :=
  match tree.root with
  | none => do
      let root : Ptr := some tree.heap.next
      let heap := tree.heap.alloc ⟨⟨value, .red⟩, none, none, none⟩
      let heap ← paint heap root .black
      pure (⟨heap, root⟩, root, true)
  | some _ => do
      match ← descend (against RbData.value value) fuel tree.heap tree.root with
      | .found cur => pure (tree, cur, false)
      | .missing parent => do
          let (heap, cur) ← attach (against RbData.value value) tree.heap parent ⟨value, .red⟩
          let above ← heap.load parent
          if above.data.col = .black then
            pure (⟨heap, tree.root⟩, cur, true)
          else do
            let ended ← repeatLoop fixupPass fuel ⟨⟨heap, tree.root⟩, cur, parent⟩
            let heap ← paint ended.tree.heap ended.tree.root .black
            pure (⟨heap, ended.tree.root⟩, ended.cur, true)

/-- `rb_tree::insert` of `RBTree/rb_tree.h`. -/
def insert [LinearOrder Value] (fuel : Nat) (tree : RbTree Value) (value : Value) :
    Outcome (RbTree Value × Bool) := do
  let (tree, _, inserted) ← insertCur fuel tree value
  pure (tree, inserted)

/-! ## Checking -/

/-- One pass of the loop of `is_rb_tree`, over `cur` and `k`. -/
def leftmostPass (heap : Store (Node Value)) (state : Ptr × Int) :
    Outcome (Pass (Ptr × Int) Int) :=
  match state with
  | (none, k) => .ok (.leave k)
  | (some cur, k) => do
      let node ← heap.load (some cur)
      let k ← if node.data.col = .black then addInt k 1 else pure k
      pure (.again (node.left, k))

/-- `_is_rb_tree`, without what it prints. -/
def isRbTreeBelow (heap : Store (Node Value)) (k : Int) :
    (fuel : Nat) → (node : Ptr) → (blackNodeNumber : Int) → Outcome Bool
  | 0, _, _ => .error .outOfFuel
  | _ + 1, none, blackNodeNumber => .ok (k = blackNodeNumber)
  | fuel + 1, some address, blackNodeNumber => do
      let node ← heap.load (some address)
      let twoReds ← if node.data.col = .red then isRed heap node.parent else pure false
      if twoReds then pure false
      else do
        let blackNodeNumber ←
          if node.data.col = .black then addInt blackNodeNumber 1 else pure blackNodeNumber
        let left ← isRbTreeBelow heap k fuel node.left blackNodeNumber
        if left then isRbTreeBelow heap k fuel node.right blackNodeNumber
        else pure false

/-- `is_rb_tree` -/
def isRbTree (fuel : Nat) (tree : RbTree Value) : Outcome Bool :=
  match tree.root with
  | none => .ok true
  | some _ => do
      let k ← repeatLoop (leftmostPass tree.heap) fuel (tree.root, 0)
      isRbTreeBelow tree.heap k fuel tree.root 0

end DataStructAlgorithm.DataStruct.RBTree
