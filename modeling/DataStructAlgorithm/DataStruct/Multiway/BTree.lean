import Mathlib.Order.Lattice
import DataStructAlgorithm.Foundation.Slots
import DataStructAlgorithm.Foundation.Store

/-! # The tree of `btree/b_tree.h`

Sizes and indices are unbounded here. The order `M`, a template parameter, is an
argument. -/

namespace DataStructAlgorithm.DataStruct

open Foundation

namespace BTree

/-- A node: `M` slots for pairs, `M + 1` for children. -/
structure BTreeNode (Key Value : Type) where
  kvs : List (Key × Value)
  subs : List Ptr
  parent : Ptr
  size : Nat

end BTree

/-- The class `BTree` together with the memory its nodes live in. -/
structure BTree (Key Value : Type) where
  heap : Store (BTree.BTreeNode Key Value)
  root : Ptr

namespace BTree

variable {Key Value : Type}

def empty : BTree Key Value := ⟨.empty, none⟩

def BTreeNode.setParent (pointer : Ptr) (node : BTreeNode Key Value) : BTreeNode Key Value :=
  { node with parent := pointer }

def BTreeNode.setSize (size : Nat) (node : BTreeNode Key Value) : BTreeNode Key Value :=
  { node with size := size }

def BTreeNode.setSlots (kvs : List (Key × Value)) (subs : List Ptr)
    (node : BTreeNode Key Value) : BTreeNode Key Value :=
  { node with kvs := kvs, subs := subs }

/-- `if (pointer) pointer->_parent = parent;` -/
def adopt (heap : Store (BTreeNode Key Value)) (parent pointer : Ptr) :
    Outcome (Store (BTreeNode Key Value)) :=
  match pointer with
  | none => .ok heap
  | some _ => heap.assign pointer (.setParent parent)

/-! ## Nodes -/

/-- The loop of `_DivideNode`, from index `i` of `cur` and `j` of `half`. -/
def divideLoop (cur half : Ptr) : Nat → Nat → Nat → Store (BTreeNode Key Value) →
    Outcome (Store (BTreeNode Key Value))
  | 0, i, j, heap => do
      let node ← heap.load cur
      let sub ← readAt node.subs i
      let target ← heap.load half
      let subs ← writeAt target.subs j sub
      let heap ← heap.assign half (.setSlots target.kvs subs)
      adopt heap half sub
  | remaining + 1, i, j, heap => do
      let node ← heap.load cur
      let kv ← readAt node.kvs i
      let sub ← readAt node.subs i
      let target ← heap.load half
      let kvs ← writeAt target.kvs j kv
      let subs ← writeAt target.subs j sub
      let heap ← heap.assign half fun _ => (target.setSlots kvs subs).setSize (target.size + 1)
      let heap ← heap.assign cur (.setSize (node.size - 1))
      let heap ← adopt heap half sub
      divideLoop cur half remaining (i + 1) (j + 1) heap

section Nodes

variable [Inhabited Key] [Inhabited Value]

/-- `BTreeNode()`, which clears all its memory. -/
def newNode (M : Nat) : BTreeNode Key Value :=
  ⟨List.replicate M default, List.replicate (M + 1) none, none, 0⟩

/-- `BTreeNode(kv)` -/
def newNodeWith (M : Nat) (kv : Key × Value) : Outcome (BTreeNode Key Value) := do
  let node : BTreeNode Key Value := newNode M
  let kvs ← writeAt node.kvs 0 kv
  pure { node with kvs := kvs, size := node.size + 1 }

/-- `_DivideNode`: the pairs beyond the middle move to a new node. -/
def divideNode (M : Nat) (heap : Store (BTreeNode Key Value)) (cur : Ptr) :
    Outcome (Store (BTreeNode Key Value) × Ptr) := do
  let half : Ptr := some heap.next
  let heap := heap.alloc (newNode M)
  let node ← heap.load cur
  let mid := node.size / 2
  let heap ← divideLoop cur half (node.size - (mid + 1)) (mid + 1) 0 heap
  pure (heap, half)

end Nodes

variable [LinearOrder Key]

/-! ## Search -/

/-- How the scan of a node ends: at the key, or in front of index `i`. -/
inductive Scan
  | here (i : Nat)
  | before (i : Nat)
  deriving DecidableEq, Repr

/-- `while (i < cur->_size)`, with the number of pairs that are left. -/
def scan (kvs : List (Key × Value)) (key : Key) : Nat → Nat → Outcome Scan
  | 0, i => .ok (.before i)
  | remaining + 1, i => do
      let kv ← readAt kvs i
      if key < kv.1 then pure (.before i)
      else if kv.1 < key then scan kvs key remaining (i + 1)
      else pure (.here i)

/-- One pass of `while (cur != NULL)`. -/
def findPass (heap : Store (BTreeNode Key Value)) (key : Key) (state : Ptr × Ptr) :
    Outcome (Pass (Ptr × Ptr) (Ptr × Int)) :=
  match state with
  | (none, parent) => .ok (.leave (parent, -1))
  | (some cur, _) => do
      let node ← heap.load (some cur)
      match ← scan node.kvs key node.size 0 with
      | .here i => pure (.leave (some cur, i))
      | .before i => do
          let sub ← readAt node.subs i
          pure (.again (sub, some cur))

def find (fuel : Nat) (tree : BTree Key Value) (key : Key) : Outcome (Ptr × Int) :=
  repeatLoop (findPass tree.heap key) fuel (tree.root, none)

/-! ## Insertion -/

/-- The loop of `_BaseInsert`; the first argument is `end + 1`. -/
def shift (kv : Key × Value) : Nat → List (Key × Value) → List Ptr →
    Outcome (List (Key × Value) × List Ptr × Nat)
  | 0, kvs, subs => .ok (kvs, subs, 0)
  | last + 1, kvs, subs => do
      let stored ← readAt kvs last
      if kv.1 < stored.1 then do
        let kvs ← writeAt kvs (last + 1) stored
        let sub ← readAt subs (last + 1)
        let subs ← writeAt subs (last + 2) sub
        shift kv last kvs subs
      else pure (kvs, subs, last + 1)

/-- `_BaseInsert` -/
def baseInsert (heap : Store (BTreeNode Key Value)) (pointer sub : Ptr) (kv : Key × Value) :
    Outcome (Store (BTreeNode Key Value)) := do
  let node ← heap.load pointer
  let (kvs, subs, place) ← shift kv node.size node.kvs node.subs
  let kvs ← writeAt kvs place kv
  let subs ← writeAt subs (place + 1) sub
  let heap ← heap.assign pointer (.setSlots kvs subs)
  let heap ← adopt heap pointer sub
  heap.assign pointer (.setSize (node.size + 1))

variable [Inhabited Key] [Inhabited Value]

/-- The variables of the insertion loop. -/
structure Insertion (Key Value : Type) where
  tree : BTree Key Value
  cur : Ptr
  sub : Ptr
  kv : Key × Value

/-- The split of the root. -/
def growRoot (M : Nat) (tree : BTree Key Value) (cur half : Ptr) (mid : Key × Value) :
    Outcome (BTree Key Value) := do
  let top ← newNodeWith M mid
  let root : Ptr := some tree.heap.next
  let heap := tree.heap.alloc top
  let node ← heap.load cur
  let heap ← heap.assign cur (.setSize (node.size - 1))
  let subs ← writeAt top.subs 0 cur
  let subs ← writeAt subs 1 half
  let heap ← heap.assign root (.setSlots top.kvs subs)
  let heap ← heap.assign cur (.setParent root)
  let heap ← heap.assign half (.setParent root)
  pure ⟨heap, root⟩

/-- One pass of `for (;;)` in `Insert`. -/
def insertPass (M : Nat) (state : Insertion Key Value) :
    Outcome (Pass (Insertion Key Value) (BTree Key Value)) := do
  let heap ← baseInsert state.tree.heap state.cur state.sub state.kv
  let node ← heap.load state.cur
  if node.size < M then pure (.leave ⟨heap, state.tree.root⟩)
  else do
    let (heap, half) ← divideNode M heap state.cur
    let node ← heap.load state.cur
    let mid ← readAt node.kvs (node.size / 2)
    if state.cur = state.tree.root then do
      let tree ← growRoot M ⟨heap, state.tree.root⟩ state.cur half mid
      pure (.leave tree)
    else pure (.again ⟨⟨heap, state.tree.root⟩, node.parent, half, mid⟩)

/-- `BTree::Insert`. An index of 0 from `Find` is taken for "not found". -/
def insert (fuel M : Nat) (tree : BTree Key Value) (kv : Key × Value) :
    Outcome (BTree Key Value × Bool) :=
  match tree.root with
  | none => do
      let node ← newNodeWith M kv
      pure (⟨tree.heap.alloc node, some tree.heap.next⟩, true)
  | some _ => do
      let ret ← find fuel tree kv.1
      if ret.2 > 0 then pure (tree, false)
      else do
        let tree ← repeatLoop (insertPass M) fuel ⟨tree, ret.1, none, kv⟩
        pure (tree, true)

/-! ## Traversal -/

/-- `_InOder`, as the list of the keys it prints. The last child is the next round
of its `while (cur)`. -/
def inOder : Nat → Store (BTreeNode Key Value) → Ptr → Outcome (List Key)
  | 0, _, _ => .error .outOfFuel
  | _ + 1, _, none => .ok []
  | fuel + 1, heap, some cur => do
      let node ← heap.load (some cur)
      let visited ← (List.range node.size).foldlM (fun visited i => do
        let sub ← readAt node.subs i
        let below ← inOder fuel heap sub
        let kv ← readAt node.kvs i
        pure (visited ++ below ++ [kv.1])) []
      let sub ← readAt node.subs node.size
      let below ← inOder fuel heap sub
      pure (visited ++ below)

/-- A sequence of calls of `Insert`, and whether all of them returned true. -/
def insertAll (fuel M : Nat) : BTree Key Value → List (Key × Value) →
    Outcome (BTree Key Value × Bool)
  | tree, [] => .ok (tree, true)
  | tree, kv :: rest => do
      let (tree, inserted) ← insert fuel M tree kv
      let (tree, others) ← insertAll fuel M tree rest
      pure (tree, inserted && others)

end BTree

end DataStructAlgorithm.DataStruct
