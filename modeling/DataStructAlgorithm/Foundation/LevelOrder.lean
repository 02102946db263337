import Mathlib.Algebra.BigOperators.Group.Finset.Basic
import DataStructAlgorithm.Foundation.StackOrders

/-! # Level order

The trees at each depth of a tree, from left to right. A loop that takes nodes from a queue and
puts their children into it has taken all of one depth when it comes to the next one. With a
stack in the place of the queue the right subtree of a node comes before the left one. -/

namespace DataStructAlgorithm.Foundation

namespace AddrTree

/-! ## Depths -/

/-- The labels at a depth, from left to right. -/
def level : AddrTree Data → (depth : Nat) → List Data
  | .nil, _ => []
  | .node _ _ data _, 0 => [data]
  | .node left _ _ right, depth + 1 => left.level depth ++ right.level depth

/-- The labels by increasing depth, and from left to right within a depth. -/
def levelOrder (tree : AddrTree Data) : List Data :=
  (List.range tree.height).flatMap tree.level

/-- A tree as the list of no tree or of one. -/
def asForest : AddrTree Data → List (AddrTree Data)
  | .nil => []
  | .node left address data right => [.node left address data right]

def children : AddrTree Data → List (AddrTree Data)
  | .nil => []
  | .node left _ _ right => left.asForest ++ right.asForest

/-- The subtrees that stand at a depth, from left to right. -/
def forest (tree : AddrTree Data) : (depth : Nat) → List (AddrTree Data)
  | 0 => tree.asForest
  | depth + 1 => (tree.forest depth).flatMap children

/-- The label at the root, if there is one. -/
def rootLabels : AddrTree Data → List Data
  | .nil => []
  | .node _ _ data _ => [data]

section Depths

variable {tree left right : AddrTree Data} {address : Nat} {data : Data}

@[simp] theorem forest_nil (depth : Nat) : forest (.nil : AddrTree Data) depth = [] := by
  induction depth with
  | zero => rfl
  | succ depth induction => rw [forest, induction, List.flatMap_nil]

theorem forest_node (depth : Nat) :
    (node left address data right).forest (depth + 1) =
      left.forest depth ++ right.forest depth := by
  induction depth with
  | zero => simp [forest, asForest, children]
  | succ depth induction => rw [forest, induction, List.flatMap_append, forest, forest]

theorem rootLabels_forest (depth : Nat) :
    (tree.forest depth).flatMap rootLabels = tree.level depth := by
  induction tree generalizing depth with
  | nil => simp [level]
  | node left address data right leftInduction rightInduction =>
      cases depth with
      | zero => rfl
      | succ depth =>
          rw [forest_node, List.flatMap_append, leftInduction, rightInduction, level]

theorem length_level (tree : AddrTree Data) (depth : Nat) :
    (tree.level depth).length = (tree.forest depth).length := by
  induction tree generalizing depth with
  | nil => simp [level]
  | node left address data right leftInduction rightInduction =>
      cases depth with
      | zero => rfl
      | succ depth =>
          rw [level, forest_node, List.length_append, List.length_append, leftInduction,
            rightInduction]

theorem forest_eq_nil_iff (depth : Nat) : tree.forest depth = [] ↔ tree.height ≤ depth := by
  induction tree generalizing depth with
  | nil => simp [height]
  | node left address data right leftInduction rightInduction =>
      cases depth with
      | zero => simp [forest, asForest, height]
      | succ depth =>
          rw [forest_node, List.append_eq_nil_iff, leftInduction, rightInduction, height]
          omega

/-- Down to any depth that is deep enough the levels have all nodes. -/
theorem sum_length_level (tree : AddrTree Data) (bound : Nat) (enough : tree.height ≤ bound) :
    ∑ depth ∈ Finset.range bound, (tree.level depth).length = tree.size := by
  induction tree generalizing bound with
  | nil => simp [level, size]
  | node left address data right leftInduction rightInduction =>
      rw [height] at enough
      rcases Nat.exists_eq_succ_of_ne_zero (show bound ≠ 0 by omega) with ⟨below, rfl⟩
      rw [Nat.succ_eq_add_one, Finset.sum_range_succ']
      simp only [level, List.length_append, Finset.sum_add_distrib, List.length_singleton]
      rw [leftInduction below (by omega), rightInduction below (by omega), size]

end Depths

/-! ## The reverse of post-order -/

/-- The labels of two trees by increasing depth, those of the first tree before those of the
second one within a depth. -/
def levelOrderOf (left right : AddrTree Data) : List Data :=
  (List.range (max left.height right.height)).flatMap fun depth =>
    left.level depth ++ right.level depth

/-- The subtrees of the topmost node with two children. -/
def topFork : AddrTree Data → Option (AddrTree Data × AddrTree Data)
  | .nil => none
  | .node .nil _ _ right => right.topFork
  | .node left _ _ .nil => left.topFork
  | .node left _ _ right => some (left, right)

/-- No node has two children. -/
def Unforked : AddrTree Data → Prop
  | .nil => True
  | .node left _ _ right => (left = .nil ∨ right = .nil) ∧ Unforked left ∧ Unforked right

section Orders

variable {tree left right : AddrTree Data} {address : Nat} {data : Data}

theorem levelOrder_node :
    (node left address data right).levelOrder = data :: levelOrderOf left right := by
  rw [levelOrder, height, List.range_succ_eq_map, List.flatMap_cons, List.flatMap_map]
  rfl

theorem reverse_postOrder_node (left : AddrTree Data) (address : Nat) (data : Data)
    (right : AddrTree Data) :
    (node left address data right).postOrder.reverse =
      data :: (right.postOrder.reverse ++ left.postOrder.reverse) := by
  simp [postOrder]

/-- The first node of the left tree comes first. -/
theorem levelOrderOf_node (left : AddrTree Data) (address : Nat) (data : Data)
    (right other : AddrTree Data) :
    ∃ rest, levelOrderOf (node left address data right) other = data :: rest := by
  rw [levelOrderOf, height, show max (max left.height right.height + 1) other.height =
    max (max left.height right.height) (other.height - 1) + 1 by omega, List.range_succ_eq_map]
  exact ⟨_, rfl⟩

theorem levelOrderOf_nil_left (tree : AddrTree Data) :
    levelOrderOf .nil tree = tree.levelOrder := by
  simp [levelOrderOf, levelOrder, height, level]

theorem levelOrderOf_nil_right (tree : AddrTree Data) :
    levelOrderOf tree .nil = tree.levelOrder := by
  simp [levelOrderOf, levelOrder, height, level]

theorem topFork_eq_none_iff : tree.topFork = none ↔ Unforked tree := by
  induction tree with
  | nil => simp [topFork, Unforked]
  | node left address data right leftInduction rightInduction =>
      cases left with
      | nil => simp [topFork, Unforked, rightInduction]
      | node => cases right <;> simp_all [topFork, Unforked]

/-- The orders differ below the topmost node with two children, if at all. -/
theorem reverse_postOrder_eq_iff :
    tree.postOrder.reverse = tree.levelOrder ↔
      ∀ left right, tree.topFork = some (left, right) →
        right.postOrder.reverse ++ left.postOrder.reverse = levelOrderOf left right := by
  induction tree with
  | nil => exact iff_of_true rfl fun _ _ forked => by cases forked
  | node left address data right leftInduction rightInduction =>
      rw [reverse_postOrder_node, levelOrder_node, List.cons_inj_right]
      cases left with
      | nil =>
          rw [levelOrderOf_nil_left, topFork, ← rightInduction, postOrder, List.reverse_nil,
            List.append_nil]
      | node =>
          cases right with
          | nil =>
              rw [levelOrderOf_nil_right, topFork, ← leftInduction, postOrder, List.reverse_nil,
                List.nil_append]
              exact fun equal => by cases equal
          | node =>
              constructor
              · rintro same _ _ ⟨⟩
                exact same
              · exact fun same => same _ _ rfl

/-- The children of a node have different labels where all labels are different. -/
theorem topFork_differs {left right : AddrTree Data} (forked : tree.topFork = some (left, right))
    (distinct : tree.toList.Nodup) :
    right.postOrder.reverse ++ left.postOrder.reverse ≠ levelOrderOf left right := by
  induction tree with
  | nil => cases forked
  | node first address data second firstInduction secondInduction =>
      rw [toList_node] at distinct
      have parts := List.nodup_append.mp distinct
      have later := (List.nodup_cons.mp parts.2.1).2
      cases first with
      | nil => exact secondInduction forked later
      | node firstLeft firstAddress firstData firstRight =>
          cases second with
          | nil => exact firstInduction forked parts.1
          | node secondLeft secondAddress secondData secondRight =>
              cases forked
              intro same
              have inFirst : firstData ∈
                  (node firstLeft firstAddress firstData firstRight).toList := by
                simp
              have inSecond : firstData ∈ data ::
                  (node secondLeft secondAddress secondData secondRight).toList := by
                rcases levelOrderOf_node firstLeft firstAddress firstData firstRight
                  (node secondLeft secondAddress secondData secondRight) with ⟨rest, begins⟩
                rw [reverse_postOrder_node, begins, List.cons_append] at same
                rw [← List.head_eq_of_cons_eq same]
                simp
              exact parts.2.2 _ inFirst _ inSecond rfl

end Orders

end AddrTree

/-! ## Queues -/

/-- `if (child) q.push(child)` -/
def enqueue (child : Ptr) (q : List Ptr) : List Ptr :=
  match child with
  | none => q
  | some _ => q ++ [child]

/-- `if (child) s.push(child)`. The head of the list is the top of the stack. -/
def pushChild (child : Ptr) (s : List Ptr) : List Ptr :=
  match child with
  | none => s
  | some _ => child :: s

section Loops

variable {Node Item : Type} (view : NodeView Node Item)

/-- One pass of `while (!q.empty())`. The front is popped when its children are in the queue. -/
def queuePass (heap : Store Node) (state : List Ptr × List Item) :
    Outcome (Pass (List Ptr × List Item) (List Item)) :=
  match state with
  | ([], output) => .ok (.leave output)
  | (front :: q, output) => do
      let node ← heap.load front
      let q := enqueue (view.right node) (enqueue (view.left node) (front :: q))
      pure (.again (q.tail, output ++ [view.item node]))

/-- The traversal with a queue. -/
def levelWalk (fuel : Nat) (heap : Store Node) (root : Ptr) : Outcome (List Item) :=
  repeatLoop (queuePass view heap) fuel (enqueue root [], [])

/-- One pass of `while (!s.empty())`. -/
def stackPass (heap : Store Node) (state : List Ptr × List Item) :
    Outcome (Pass (List Ptr × List Item) (List Item)) :=
  match state with
  | ([], output) => .ok (.leave output)
  | (front :: s, output) => do
      let node ← heap.load front
      let s := pushChild (view.right node) (pushChild (view.left node) s)
      pure (.again (s, output ++ [view.item node]))

/-- The traversal with a stack, with the test for an empty tree before it. -/
def stackWalk (fuel : Nat) (heap : Store Node) (root : Ptr) : Outcome (List Item) :=
  match root with
  | none => .ok []
  | some _ => repeatLoop (stackPass view heap) fuel ([root], [])

end Loops

section Walks

variable {Node Item : Type} {view : NodeView Node Item} {heap : Store Node} {tree : AddrTree Item}

theorem enqueue_pointer (tree : AddrTree Item) (q : List Ptr) :
    enqueue tree.pointer q = q ++ tree.asForest.map AddrTree.pointer := by
  cases tree with
  | nil => exact (List.append_nil q).symm
  | node => rfl

/-- The trees of a list are stored, and none of them is empty. -/
def Stored (view : NodeView Node Item) (heap : Store Node) (trees : List (AddrTree Item)) : Prop :=
  ∀ tree ∈ trees, tree ≠ .nil ∧ Seen view heap tree

theorem Seen.stored (seen : Seen view heap tree) : Stored view heap tree.asForest := by
  cases tree with
  | nil => exact nofun
  | node left address item right =>
      intro other member
      cases List.mem_singleton.mp member
      exact ⟨nofun, seen⟩

theorem Stored.children {trees : List (AddrTree Item)} (stored : Stored view heap trees) :
    Stored view heap (trees.flatMap AddrTree.children) := by
  intro tree member
  rcases List.mem_flatMap.mp member with ⟨upper, upperMember, member⟩
  have seen := (stored upper upperMember).2
  cases upper with
  | nil => cases member
  | node left address item right =>
      rcases List.mem_append.mp member with inLeft | inRight
      · exact seen.2.1.stored tree inLeft
      · exact seen.2.2.stored tree inRight

theorem Seen.forest (seen : Seen view heap tree) (depth : Nat) :
    Stored view heap (tree.forest depth) := by
  induction depth with
  | zero => exact seen.stored
  | succ depth induction => exact induction.children

/-- The queue has some trees in it: they are taken out, and their children follow the others. -/
theorem queue_reaches (trees later : List (AddrTree Item)) (stored : Stored view heap trees)
    (output : List Item) :
    Reaches (queuePass view heap) trees.length
      ((trees ++ later).map AddrTree.pointer, output)
      ((later ++ trees.flatMap AddrTree.children).map AddrTree.pointer,
        output ++ trees.flatMap AddrTree.rootLabels) := by
  induction trees generalizing later output with
  | nil =>
      simp only [List.nil_append, List.flatMap_nil, List.append_nil]
      exact .refl _
  | cons tree trees induction =>
      rcases stored tree List.mem_cons_self with ⟨notNil, seen⟩
      cases tree with
      | nil => exact absurd rfl notNil
      | node left address item right =>
          rcases seen with ⟨⟨node, found, leftEq, rightEq, itemEq⟩, _⟩
          have others : Stored view heap trees := fun other member =>
            stored other (List.mem_cons_of_mem _ member)
          have rest := induction (later ++ (AddrTree.node left address item right).children) others
            (output ++ [item])
          have pass : queuePass view heap
              ((.node left address item right :: trees ++ later).map AddrTree.pointer, output) =
              .ok (.again ((trees ++ (later ++
                (AddrTree.node left address item right).children)).map AddrTree.pointer,
                output ++ [item])) := by
            simp [queuePass, Store.load_some found, leftEq, rightEq, itemEq, enqueue_pointer,
              AddrTree.children]
          rw [List.length_cons, Nat.add_comm]
          have all := (Reaches.pass pass).trans rest
          simpa [AddrTree.rootLabels, List.append_assoc] using all

/-- When all trees above a depth have been taken out, those at the depth are in the queue. -/
theorem queue_reaches_depth (seen : Seen view heap tree) (depth : Nat) :
    ∃ passes, Reaches (queuePass view heap) passes (enqueue tree.pointer [], [])
      ((tree.forest depth).map AddrTree.pointer, (List.range depth).flatMap tree.level) := by
  induction depth with
  | zero =>
      refine ⟨0, ?_⟩
      rw [enqueue_pointer, List.nil_append]
      exact .refl _
  | succ depth induction =>
      rcases induction with ⟨passes, reached⟩
      have next := queue_reaches (tree.forest depth) [] (seen.forest depth)
        ((List.range depth).flatMap tree.level)
      rw [List.append_nil, List.nil_append, AddrTree.rootLabels_forest] at next
      refine ⟨passes + (tree.forest depth).length, ?_⟩
      rw [List.range_succ, List.flatMap_append, List.flatMap_singleton]
      exact reached.trans next

/-- With a queue the traversal is in level order. -/
theorem levelWalk_spec (seen : Seen view heap tree) :
    ∃ enough, ∀ fuel, enough ≤ fuel →
      levelWalk view fuel heap tree.pointer = .ok tree.levelOrder := by
  rcases queue_reaches_depth seen tree.height with ⟨passes, reached⟩
  have nothing := (AddrTree.forest_eq_nil_iff tree.height).mpr (Nat.le_refl tree.height)
  rw [nothing, List.map_nil] at reached
  exact ⟨passes + 1, fun fuel enough => reached.leave rfl (by omega)⟩

/-! ## Stacks -/

/-- A subtree on top of the stack is put out in the reverse of post-order. -/
theorem stack_reaches (seen : Seen view heap tree) (stack : List Ptr) (output : List Item) :
    Reaches (stackPass view heap) tree.size (pushChild tree.pointer stack, output)
      (stack, output ++ tree.postOrder.reverse) := by
  induction tree generalizing stack output with
  | nil =>
      rw [AddrTree.postOrder, List.reverse_nil, List.append_nil]
      exact .refl _
  | node left address item right leftInduction rightInduction =>
      rcases seen with ⟨⟨node, found, leftEq, rightEq, itemEq⟩, leftSeen, rightSeen⟩
      have pass : stackPass view heap (some address :: stack, output) =
          .ok (.again (pushChild right.pointer (pushChild left.pointer stack),
            output ++ [item])) := by
        simp [stackPass, Store.load_some found, leftEq, rightEq, itemEq]
      have rightDone := rightInduction rightSeen (pushChild left.pointer stack) (output ++ [item])
      have leftDone := leftInduction leftSeen stack (output ++ [item] ++ right.postOrder.reverse)
      have all := ((Reaches.pass pass).trans rightDone).trans leftDone
      have passes : 1 + right.size + left.size = left.size + right.size + 1 := by omega
      have outputs : output ++ [item] ++ right.postOrder.reverse ++ left.postOrder.reverse =
          output ++ (AddrTree.node left address item right).postOrder.reverse := by
        simp [AddrTree.postOrder]
      rw [passes, outputs] at all
      exact all

/-- With a stack the traversal is in the reverse of post-order. -/
theorem stackWalk_spec (seen : Seen view heap tree) (fuel : Nat) (enough : tree.size < fuel) :
    stackWalk view fuel heap tree.pointer = .ok tree.postOrder.reverse := by
  have reached := stack_reaches seen [] []
  cases tree with
  | nil => rfl
  | node left address item right => exact reached.leave rfl enough

end Walks

end DataStructAlgorithm.Foundation
