import DataStructAlgorithm.DataStruct.SearchTree
import DataStructAlgorithm.Foundation.ForkTree

/-! # The search tree of `BinarySearchTree/BinarySearchTree.h`

Its traversals are modelled elsewhere. Every recursive call of `_delete` is the
last thing the caller does, so a call is modelled as one pass of a loop. -/

namespace DataStructAlgorithm.DataStruct

open Foundation

namespace BinarySearchTree

/-- What a `BinaryTreeNode` holds beside its links. -/
structure Pair (T V : Type) where
  data : T
  value : V
  deriving DecidableEq, Repr

abbrev Node (T V : Type) := ForkNode (Pair T V)

end BinarySearchTree

abbrev BinarySearchTree (T V : Type) := ForkTree (BinarySearchTree.Pair T V)

namespace BinarySearchTree

variable {T V : Type} [LinearOrder T]

/-! ## Searching -/

/-- One pass of the loop of `find`, over `cur`. -/
def findPass (heap : Store (Node T V)) (d : T) (cur : Ptr) : Outcome (Pass Ptr Ptr) :=
  match cur with
  | none => .ok (.leave none)
  | some _ => do
      let node ← heap.load cur
      if d < node.data.data then pure (.again node.left)
      else if node.data.data < d then pure (.again node.right)
      else pure (.leave cur)

def find (fuel : Nat) (tree : BinarySearchTree T V) (d : T) : Outcome Ptr :=
  match tree.root with
  | none => .ok none
  | some _ => repeatLoop (findPass tree.heap d) fuel tree.root

/-- One pass of `while (min->_left != NULL)`. -/
def findMinPass (heap : Store (Node T V)) (min : Ptr) : Outcome (Pass Ptr Ptr) := do
  let node ← heap.load min
  match node.left with
  | none => pure (.leave min)
  | some left => pure (.again (some left))

def findMin (fuel : Nat) (heap : Store (Node T V)) (pos : Ptr) : Outcome Ptr :=
  match pos with
  | none => .ok none
  | some _ => repeatLoop (findMinPass heap) fuel pos

/-! ## Insertion -/

/-- One pass of the loop of `insert`, over `cur` and `prev`. It is left by
`return false` at a node with the key. -/
def insertPass (heap : Store (Node T V)) (d : T) (state : Ptr × Ptr) :
    Outcome (Pass (Ptr × Ptr) Descent) :=
  match state with
  | (none, prev) => .ok (.leave (.missing prev))
  | (some cur, _) => do
      let node ← heap.load (some cur)
      if d < node.data.data then pure (.again (node.left, some cur))
      else if node.data.data < d then pure (.again (node.right, some cur))
      else pure (.leave (.found (some cur)))

def insert (fuel : Nat) (tree : BinarySearchTree T V) (d : T) (v : V) :
    Outcome (BinarySearchTree T V × Bool) :=
  match tree.root with
  | none => .ok (⟨tree.heap.alloc ⟨⟨d, v⟩, none, none⟩, some tree.heap.next⟩, true)
  | some _ => do
      match ← repeatLoop (insertPass tree.heap d) fuel (tree.root, none) with
      | .found _ => pure (tree, false)
      | .missing prev => do
          let above ← tree.heap.load prev
          let side : Side := if d < above.data.data then .left else .right
          let heap := tree.heap.alloc ⟨⟨d, v⟩, none, none⟩
          let heap ← heap.assign prev (.setChild side (some tree.heap.next))
          pure (⟨heap, tree.root⟩, true)

/-! ## Deletion -/

/-- What an argument `const T& d` refers to: an object of the caller, or the key
of a node. -/
inductive Argument (T : Type)
  | given (d : T)
  | dataOf (node : Ptr)

def Argument.read (heap : Store (Node T V)) : Argument T → Outcome T
  | .given d => .ok d
  | .dataOf node => do
      let stored ← heap.load node
      pure stored.data.data

/-- The arguments of a call of `_delete`, and the tree it works on. `cur` is a
reference to a pointer. -/
structure Call (T V : Type) where
  tree : BinarySearchTree T V
  cur : Link
  d : Argument T

/-- `cur = pointer; delete del; return cur;` -/
def unlink (tree : BinarySearchTree T V) (cur : Link) (pointer del : Ptr) :
    Outcome (Pass (Call T V) (BinarySearchTree T V × Ptr)) := do
  let tree ← tree.redirect cur pointer
  let heap ← tree.heap.release del
  let tree : BinarySearchTree T V := ⟨heap, tree.root⟩
  let returned ← tree.follow cur
  pure (.leave (tree, returned))

/-- The branch for a node with two children: it gets the key of its successor,
and the successor is deleted in its place. -/
def replace (fuel : Nat) (tree : BinarySearchTree T V) (address : Nat) (right : Ptr) :
    Outcome (Pass (Call T V) (BinarySearchTree T V × Ptr)) := do
  let prev ← findMin fuel tree.heap right
  let successor ← tree.heap.load prev
  let heap ← tree.heap.assign (some address)
    (.updateData fun pair => { pair with data := successor.data.data })
  pure (.again ⟨⟨heap, tree.root⟩, .child .right address, .dataOf prev⟩)

/-- `_delete`, up to the next recursive call. -/
def deletePass (fuel : Nat) (call : Call T V) :
    Outcome (Pass (Call T V) (BinarySearchTree T V × Ptr)) := do
  match ← call.tree.follow call.cur with
  | none => pure (.leave (call.tree, none))
  | some address => do
      let node ← call.tree.heap.load (some address)
      let d ← call.d.read call.tree.heap
      if node.data.data < d then
        pure (.again { call with cur := .child .right address })
      else if d < node.data.data then
        pure (.again { call with cur := .child .left address })
      else
        match node.left, node.right with
        | none, right => unlink call.tree call.cur right (some address)
        | left, none => unlink call.tree call.cur left (some address)
        | some _, some right => replace fuel call.tree address (some right)

def erase (fuel : Nat) (tree : BinarySearchTree T V) (d : T) :
    Outcome (BinarySearchTree T V) := do
  let (tree, _) ← repeatLoop (deletePass fuel) fuel ⟨tree, .root, .given d⟩
  pure tree

end BinarySearchTree

end DataStructAlgorithm.DataStruct
