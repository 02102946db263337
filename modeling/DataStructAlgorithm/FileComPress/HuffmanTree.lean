import DataStructAlgorithm.Foundation.LinkedTree
import DataStructAlgorithm.Foundation.Transition
import DataStructAlgorithm.FileComPress.Heap

/-! # The constructor of `FileComPress/huffmantree.h`

The type of the weights is an argument, with the operators that the template calls. They
compare the numbers that the weights stand for. -/

namespace DataStructAlgorithm.FileComPress

open Foundation

/-- The operators `<`, `+` and `!=` of a type of weights. -/
structure Operators (T : Type) where
  lt : T → T → Bool
  add : T → T → T
  ne : T → T → Bool
  value : T → Nat
  lt_iff : ∀ left right, lt left right = true ↔ value left < value right
  ne_iff : ∀ left right, ne left right = true ↔ value left ≠ value right

/-- Operators whose sums do not overflow. -/
structure Weight (T : Type) extends Operators T where
  value_add : ∀ left right, value (add left right) = value left + value right

instance : Coe (Weight T) (Operators T) := ⟨Weight.toOperators⟩

/-- `size_t` -/
def Weight.sizeT : Weight Nat where
  lt := fun left right => decide (left < right)
  add := fun left right => left + right
  ne := fun left right => left != right
  value := id
  lt_iff := by simp
  value_add := by simp
  ne_iff := by simp

/-- The nodes of the tree. The parent link is `_prev`. -/
abbrev HuffmanNode (T : Type) := TreeNode T

/-- A `HuffmanTree` together with the memory its nodes live in. -/
structure HuffmanTree (T : Type) where
  heap : Store (HuffmanNode T)
  root : Ptr

namespace HuffmanTree

variable {T : Type}

/-- `new Node(wt)` -/
def newNode (wt : T) : HuffmanNode T :=
  ⟨wt, none, none, none⟩

/-- `SmallHeap` -/
def smallHeap (weight : Operators T) (nodes : Store (HuffmanNode T)) (left right : Nat) :
    Outcome Bool := do
  let leftNode ← nodes.load (some left)
  let rightNode ← nodes.load (some right)
  pure (weight.lt leftNode.data rightNode.data)

/-- The nodes, and the variable `huffman_tree` of the constructor, a heap of pointers. -/
structure Building (T : Type) where
  nodes : Store (HuffmanNode T)
  queue : Heap Nat

/-- One pass of the loop over the array. -/
def pushEntry (weight : Operators T) (fuel : Nat) (invalue : T) (state : Building T) (entry : T) :
    Outcome (Building T) :=
  if weight.ne entry invalue then do
    let nodes := state.nodes.alloc (newNode entry)
    let queue ← Heap.push (smallHeap weight nodes) fuel state.queue state.nodes.next
    pure ⟨nodes, queue⟩
  else .ok state

/-- The statements that make two nodes the children of a new one. -/
def joinNodes (weight : Operators T) (nodes : Store (HuffmanNode T)) (left right : Nat) :
    Outcome (Store (HuffmanNode T)) := do
  let leftNode ← nodes.load (some left)
  let rightNode ← nodes.load (some right)
  let parent := nodes.next
  let nodes := nodes.alloc (newNode (weight.add leftNode.data rightNode.data))
  let nodes ← nodes.assign (some parent) (.setChild .left (some left))
  let nodes ← nodes.assign (some left) (.setParent (some parent))
  let nodes ← nodes.assign (some parent) (.setChild .right (some right))
  nodes.assign (some right) (.setParent (some parent))

/-- One pass of `while (huffman_tree.Size() > 1)`. -/
def mergePass (weight : Operators T) (fuel : Nat) (state : Building T) :
    Outcome (Pass (Building T) (Building T)) :=
  if state.queue.length > 1 then do
    let left ← Heap.top state.queue
    let queue ← Heap.pop (smallHeap weight state.nodes) fuel state.queue
    let right ← Heap.top queue
    let queue ← Heap.pop (smallHeap weight state.nodes) fuel queue
    let nodes ← joinNodes weight state.nodes left right
    let queue ← Heap.push (smallHeap weight nodes) fuel queue state.nodes.next
    pure (.again ⟨nodes, queue⟩)
  else .ok (.leave state)

/-- The constructor `HuffmanTree(a, size, invalue)`, where `size` is the length of `a`. -/
def ofArray (weight : Operators T) (fuel : Nat) (a : List T) (invalue : T) :
    Outcome (HuffmanTree T) :=
  if a.isEmpty then .error .assertion
  else do
    let state ← runAll (pushEntry weight fuel invalue) ⟨.empty, []⟩ a
    let state ← repeatLoop (mergePass weight fuel) fuel state
    let root ← Heap.top state.queue
    pure ⟨state.nodes, some root⟩

end HuffmanTree

end DataStructAlgorithm.FileComPress
