import DataStructAlgorithm.Foundation.LinkedTree

/-! # In-order traversal with a stack

The loop that pushes the nodes of a left spine, pops one, and goes on at its right
child. It reads two links and an item of each node, whatever else a node holds. -/

namespace DataStructAlgorithm.Foundation

/-- What a traversal reads of a node. -/
structure NodeView (Node Item : Type) where
  left : Node → Ptr
  right : Node → Ptr
  item : Node → Item

section StackWalk

variable {Node Item : Type} (view : NodeView Node Item)

/-- One pass of `while (cur) { s.push(cur); cur = cur->_left; }`. -/
def pushPass (heap : Store Node) (state : Ptr × List Ptr) :
    Outcome (Pass (Ptr × List Ptr) (List Ptr)) :=
  match state.1 with
  | none => .ok (.leave state.2)
  | some _ => do
      let node ← heap.load state.1
      pure (.again (view.left node, state.1 :: state.2))

/-- `cur`, the stack and the output of the traversal. -/
structure Walk (Item : Type) where
  cur : Ptr
  stack : List Ptr
  output : List Item

/-- One pass of `while (cur || !s.empty())`. -/
def inOrderPass (fuel : Nat) (heap : Store Node) (state : Walk Item) :
    Outcome (Pass (Walk Item) (List Item)) :=
  if state.cur.isNone && state.stack.isEmpty then .ok (.leave state.output)
  else do
    match ← repeatLoop (pushPass view heap) fuel (state.cur, state.stack) with
    | [] => .error .outOfRange
    | front :: stack => do
        let node ← heap.load front
        pure (.again ⟨view.right node, stack, state.output ++ [view.item node]⟩)

/-- The whole traversal, with the test for an empty tree before it. -/
def inOrder (fuel : Nat) (heap : Store Node) (root : Ptr) : Outcome (List Item) :=
  match root with
  | none => .ok []
  | some _ => repeatLoop (inOrderPass view fuel heap) fuel ⟨root, [], []⟩

/-- The store shows a tree of items through the view. -/
def Seen (heap : Store Node) : AddrTree Item → Prop
  | .nil => True
  | .node left address item right =>
      (∃ node, heap.cell address = some node ∧ view.left node = left.pointer ∧
        view.right node = right.pointer ∧ view.item node = item) ∧
      Seen heap left ∧ Seen heap right

/-- A node on the stack: its item and its right subtree are still to come. -/
structure Waiting (Item : Type) where
  address : Nat
  item : Item
  right : AddrTree Item

variable {view} {heap : Store Node}

/-- The nodes that the inner loop pushes. -/
def spine : AddrTree Item → List (Waiting Item) → List (Waiting Item)
  | .nil, stack => stack
  | .node left address item right, stack => spine left (⟨address, item, right⟩ :: stack)

/-- The output that the nodes on the stack still stand for. -/
def pending (stack : List (Waiting Item)) : List Item :=
  stack.flatMap fun entry => entry.item :: entry.right.toList

def pointers (stack : List (Waiting Item)) : List Ptr :=
  stack.map fun entry => some entry.address

theorem pending_spine (tree : AddrTree Item) (stack : List (Waiting Item)) :
    pending (spine tree stack) = tree.toList ++ pending stack := by
  induction tree generalizing stack with
  | nil => rfl
  | node left address item right leftInduction _ =>
      rw [spine, leftInduction, AddrTree.toList_node]
      simp [pending]

variable (view) in
/-- The nodes on the stack are stored, with right subtrees below a height. -/
def Ready (heap : Store Node) (bound : Nat) (stack : List (Waiting Item)) : Prop :=
  ∀ entry ∈ stack, entry.right.height < bound ∧
    ∃ left, Seen view heap (.node left entry.address entry.item entry.right)

theorem Ready.spine {bound : Nat} {tree : AddrTree Item} {stack : List (Waiting Item)}
    (seen : Seen view heap tree) (low : tree.height < bound)
    (ready : Ready view heap bound stack) : Ready view heap bound (spine tree stack) := by
  induction tree generalizing stack with
  | nil => exact ready
  | node left address item right leftInduction _ =>
      simp only [AddrTree.height] at low
      apply leftInduction seen.2.1 (by omega)
      intro entry member
      rcases List.mem_cons.mp member with rfl | member
      · exact ⟨show right.height < bound by omega, left, seen⟩
      · exact ready entry member

theorem pushPass_ends {tree : AddrTree Item} (seen : Seen view heap tree)
    (stack : List (Waiting Item)) (fuel : Nat) (enough : tree.height < fuel) :
    repeatLoop (pushPass view heap) fuel (tree.pointer, pointers stack) =
      .ok (pointers (spine tree stack)) := by
  induction tree generalizing stack fuel with
  | nil =>
      cases fuel with
      | zero => omega
      | succ fuel => exact repeatLoop_leave fuel rfl
  | node left address item right leftInduction _ =>
      rcases seen with ⟨⟨node, found, leftEq, _⟩, leftSeen, _⟩
      simp only [AddrTree.height] at enough
      cases fuel with
      | zero => omega
      | succ fuel =>
          have pass : pushPass view heap (some address, pointers stack) =
              .ok (.again (left.pointer, pointers (⟨address, item, right⟩ :: stack))) := by
            simp [pushPass, Store.load_some found, leftEq, pointers]
          rw [AddrTree.pointer_node, repeatLoop_again fuel pass]
          exact leftInduction leftSeen _ fuel (by omega)

/-- The traversal stands before a subtree and a stack, with `total` its whole output. -/
structure Underway (view : NodeView Node Item) (heap : Store Node) (fuel : Nat)
    (total : List Item) (state : Walk Item) (sub : AddrTree Item)
    (stack : List (Waiting Item)) : Prop where
  curEq : state.cur = sub.pointer
  stackEq : state.stack = pointers stack
  seen : Seen view heap sub
  low : sub.height < fuel
  ready : Ready view heap fuel stack
  output : state.output ++ (sub.toList ++ pending stack) = total

/-- One pass puts out one item, or there is none left. -/
theorem Underway.pass {fuel : Nat} {total : List Item} {state : Walk Item}
    {sub : AddrTree Item} {stack : List (Waiting Item)}
    (underway : Underway view heap fuel total state sub stack) :
    (∃ next below rest, inOrderPass view fuel heap state = .ok (.again next) ∧
      Underway view heap fuel total next below rest ∧
      (below.toList ++ pending rest).length < (sub.toList ++ pending stack).length) ∨
    inOrderPass view fuel heap state = .ok (.leave total) := by
  have pushed := pushPass_ends underway.seen stack fuel underway.low
  have ready := underway.ready.spine underway.seen underway.low
  have output := underway.output
  rw [← pending_spine] at output ⊢
  cases entries : spine sub stack with
  | nil =>
      have both : sub = .nil ∧ stack = [] := by
        cases sub with
        | nil => exact ⟨rfl, entries⟩
        | node left address item right =>
            have length := congrArg List.length (pending_spine (.node left address item right) stack)
            rw [entries] at length
            simp [pending] at length
      rcases both with ⟨rfl, rfl⟩
      refine Or.inr ?_
      rw [entries] at output
      simp only [inOrderPass, underway.curEq, underway.stackEq, AddrTree.pointer_nil, pointers,
        Option.isNone_none, List.map_nil, List.isEmpty_nil, Bool.and_self, if_true]
      rw [← output]
      simp [pending]
  | cons entry rest =>
      rw [entries] at pushed ready output
      rcases ready entry List.mem_cons_self with ⟨rightLow, left, ⟨node, found, _, rightEq, itemEq⟩,
        _, rightSeen⟩
      have started : (state.cur.isNone && state.stack.isEmpty) = false := by
        rw [underway.curEq, underway.stackEq]
        cases sub with
        | nil =>
            rw [spine] at entries
            simp [entries, pointers]
        | node => simp
      refine Or.inl ⟨⟨entry.right.pointer, pointers rest, state.output ++ [entry.item]⟩,
        entry.right, rest, ?_, ⟨rfl, rfl, rightSeen, rightLow, ?_, ?_⟩, ?_⟩
      · simp only [inOrderPass, started]
        rw [underway.curEq, underway.stackEq, pushed]
        simp [pointers, Store.load_some found, rightEq, itemEq]
      · exact fun other member => ready other (List.mem_cons_of_mem _ member)
      · simpa [pending] using output
      · simp [pending]

/-- The traversal ends and puts out the items in order. -/
theorem inOrder_spec {tree : AddrTree Item} (seen : Seen view heap tree) (fuel : Nat)
    (enough : tree.toList.length < fuel) :
    inOrder view fuel heap tree.pointer = .ok tree.toList := by
  have looped : ∃ result, repeatLoop (inOrderPass view fuel heap) fuel
      ⟨tree.pointer, [], []⟩ = .ok result ∧ result = tree.toList := by
    have low := tree.height_le_length
    refine repeatLoop_total
      (fun bound (state : Walk Item) => ∃ sub stack,
        Underway view heap fuel tree.toList state sub stack ∧
        (sub.toList ++ pending stack).length = bound)
      (fun result => result = tree.toList) ?_ fuel tree.toList.length _
      ⟨tree, [], ⟨rfl, rfl, seen, by omega, fun _ member => (nomatch member), by simp [pending]⟩,
        by simp [pending]⟩ enough
    intro bound state holds
    rcases holds with ⟨sub, stack, underway, rfl⟩
    rcases underway.pass with ⟨next, below, rest, pass, nextUnderway, less⟩ | pass
    · exact Or.inl ⟨next, _, pass, less, below, rest, nextUnderway, rfl⟩
    · exact Or.inr ⟨_, pass, rfl⟩
  rcases looped with ⟨result, returned, rfl⟩
  cases tree with
  | nil => rfl
  | node left address item right => exact returned

/-- Trees with parent links, read through their payloads. -/
theorem Linked.seen {Data : Type} {heap : Store (TreeNode Data)} {parent : Ptr}
    {tree : AddrTree Data} (linked : Linked heap parent tree) (item : Data → Item) :
    Seen ⟨TreeNode.left, TreeNode.right, fun node => item node.data⟩ heap (tree.map item) := by
  induction tree generalizing parent with
  | nil => trivial
  | node left address data right leftInduction rightInduction =>
      rcases linked with ⟨found, leftLinked, rightLinked⟩
      exact ⟨⟨_, found, by simp, by simp, rfl⟩, leftInduction leftLinked,
        rightInduction rightLinked⟩

end StackWalk

end DataStructAlgorithm.Foundation
