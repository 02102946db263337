import DataStructAlgorithm.DataStruct.BinaryTree.CreatTree

/-! # The threaded trees of `ThreadTree/InOder` and `ThreadTree/prevOder`

The class `__BinaryTreeThread` of `InOderThread.h` and of `prevOder.h`. What the two
headers share is the same text in both. `InOderNoR` prints and is left out. -/

namespace DataStructAlgorithm.DataStruct

open Foundation

namespace ThreadTree

inductive NodeType
  | link
  | thread
  deriving DecidableEq, Repr

/-- What a `__BinaryTreeNode` holds beside its two pointers. -/
structure Tagged (T : Type) where
  data : T
  lefttype : NodeType
  righttype : NodeType
  deriving DecidableEq, Repr

abbrev Node (T : Type) := ForkNode (Tagged T)

/-- What the constructor of a node stores. -/
def newNode (data : T) : Tagged T :=
  ⟨data, .link, .link⟩

/-- `root->_left = pointer; root->_lefttype = THREAD` -/
def threadLeft (pointer : Ptr) (node : Node T) : Node T :=
  ⟨{ node.data with lefttype := .thread }, pointer, node.right⟩

/-- `prev->_right = pointer; prev->_righttype = THREAD` -/
def threadRight (pointer : Ptr) (node : Node T) : Node T :=
  ⟨{ node.data with righttype := .thread }, node.left, pointer⟩

end ThreadTree

/-- The class `__BinaryTreeThread` together with the memory its nodes live in. -/
abbrev ThreadTree (T : Type) := ForkTree (ThreadTree.Tagged T)

namespace ThreadTree

variable {T : Type}

/-- `__CreatTree` -/
def creatTree [DecidableEq T] (fuel : Nat) (a : List T) (invalid : T) (heap : Store (Node T))
    (index : Nat) : Outcome (Ptr × Nat × Store (Node T)) :=
  DataStruct.creatTree newNode a invalid fuel heap index

/-- The constructor `__BinaryTreeThread(a, n, invalid)`, where `n` is the length of `a`. -/
def ofArray [DecidableEq T] (fuel : Nat) (a : List T) (invalid : T) : Outcome (ThreadTree T) := do
  let (root, _, heap) ← creatTree fuel a invalid .empty 0
  pure ⟨heap, root⟩

/-! ## Threading -/

/-- A missing left child of `root` is replaced by a thread to `prev`. -/
def installLeft (heap : Store (Node T)) (root : Nat) (prev : Ptr) : Outcome (Store (Node T)) := do
  let node ← heap.load (some root)
  if node.left = none then heap.assign (some root) (threadLeft prev) else pure heap

/-- A missing right child of `prev` is replaced by a thread to `root`. -/
def installRight (heap : Store (Node T)) (root : Nat) (prev : Ptr) : Outcome (Store (Node T)) :=
  match prev with
  | none => .ok heap
  | some _ => do
      let before ← heap.load prev
      if before.right = none then heap.assign prev (threadRight (some root)) else pure heap

/-- The two statements that both traversals make at a node. -/
def installThreads (heap : Store (Node T)) (root : Nat) (prev : Ptr) :
    Outcome (Store (Node T)) := do
  let heap ← installLeft heap root prev
  installRight heap root prev

/-- `__InOderThread`; the second result is the variable `prev` that all calls share. -/
def inOderThreadFrom : (fuel : Nat) → Store (Node T) → (root prev : Ptr) →
    Outcome (Store (Node T) × Ptr)
  | 0, _, _, _ => .error .outOfFuel
  | _ + 1, heap, none, prev => .ok (heap, prev)
  | fuel + 1, heap, some root, prev => do
      let node ← heap.load (some root)
      let (heap, prev) ←
        (if node.data.lefttype = .link then inOderThreadFrom fuel heap node.left prev
        else pure (heap, prev))
      let heap ← installThreads heap root prev
      let node ← heap.load (some root)
      if node.data.righttype = .link then inOderThreadFrom fuel heap node.right (some root)
      else pure (heap, some root)

/-- `__prevOderThread` -/
def prevOderThreadFrom : (fuel : Nat) → Store (Node T) → (root prev : Ptr) →
    Outcome (Store (Node T) × Ptr)
  | 0, _, _, _ => .error .outOfFuel
  | _ + 1, heap, none, prev => .ok (heap, prev)
  | fuel + 1, heap, some root, prev => do
      let heap ← installThreads heap root prev
      let node ← heap.load (some root)
      let (heap, prev) ←
        (if node.data.lefttype = .link then prevOderThreadFrom fuel heap node.left (some root)
        else pure (heap, some root))
      let node ← heap.load (some root)
      if node.data.righttype = .link then prevOderThreadFrom fuel heap node.right prev
      else pure (heap, prev)

/-- `InOderThread` -/
def inOderThread (fuel : Nat) (tree : ThreadTree T) : Outcome (ThreadTree T) := do
  let (heap, _) ← inOderThreadFrom fuel tree.heap tree.root none
  pure ⟨heap, tree.root⟩

/-- `prevOderThread` -/
def prevOderThread (fuel : Nat) (tree : ThreadTree T) : Outcome (ThreadTree T) := do
  let (heap, _) ← prevOderThreadFrom fuel tree.heap tree.root none
  pure ⟨heap, tree.root⟩

/-! ## Iteration -/

/-- One pass of `while (sub && sub->_left)`. -/
def beginPass (heap : Store (Node T)) (sub : Ptr) : Outcome (Pass Ptr Ptr) :=
  match sub with
  | none => .ok (.leave none)
  | some _ => do
      let node ← heap.load sub
      match node.left with
      | none => pure (.leave sub)
      | some left => pure (.again (some left))

/-- `begin` -/
def begin (fuel : Nat) (tree : ThreadTree T) : Outcome Ptr :=
  repeatLoop (beginPass tree.heap) fuel tree.root

/-- One pass of `while (sub && sub->_lefttype == LINK)`. -/
def descendPass (heap : Store (Node T)) (sub : Ptr) : Outcome (Pass Ptr Ptr) :=
  match sub with
  | none => .ok (.leave none)
  | some _ => do
      let node ← heap.load sub
      if node.data.lefttype = .link then pure (.again node.left) else pure (.leave sub)

/-- `__InOderThreadIterator::operator++` -/
def inOderNext (fuel : Nat) (heap : Store (Node T)) (it : Ptr) : Outcome Ptr := do
  let node ← heap.load it
  if node.data.righttype = .thread then pure node.right
  else repeatLoop (descendPass heap) fuel node.right

/-- `__prevOderThreadIterator::operator++` -/
def prevOderNext (heap : Store (Node T)) (it : Ptr) : Outcome Ptr := do
  let node ← heap.load it
  if node.data.lefttype = .link then pure node.left else pure node.right

/-- One pass of `for (; it != end; ++it)` that collects what it visits. -/
def traversePass (next : Ptr → Outcome Ptr) (heap : Store (Node T)) (state : Ptr × List T) :
    Outcome (Pass (Ptr × List T) (List T)) :=
  match state with
  | (none, visited) => .ok (.leave visited)
  | (some it, visited) => do
      let node ← heap.load (some it)
      let after ← next (some it)
      pure (.again (after, visited ++ [node.data.data]))

/-- The loop from `begin` to `end`. -/
def inOderTraverse (fuel : Nat) (tree : ThreadTree T) : Outcome (List T) := do
  let it ← begin fuel tree
  repeatLoop (traversePass (inOderNext fuel tree.heap) tree.heap) fuel (it, [])

/-- The loop from `prevOderbegin`, which is the root, to `prevOderend`. -/
def prevOderTraverse (fuel : Nat) (tree : ThreadTree T) : Outcome (List T) :=
  repeatLoop (traversePass (prevOderNext tree.heap) tree.heap) fuel (tree.root, [])

/-! ## Destruction -/

/-- `_Destroy`, with the nodes that it deletes. -/
def destroy : (fuel : Nat) → Store (Node T) → (root : Ptr) →
    Outcome (List Nat × Store (Node T))
  | 0, _, _ => .error .outOfFuel
  | _ + 1, heap, none => .ok ([], heap)
  | fuel + 1, heap, some root => do
      let node ← heap.load (some root)
      let (first, heap) ← destroy fuel heap node.left
      let node ← heap.load (some root)
      let (second, heap) ← destroy fuel heap node.right
      let heap ← heap.release (some root)
      pure (first ++ second ++ [root], heap)

end ThreadTree

end DataStructAlgorithm.DataStruct
