import DataStructAlgorithm.DataStruct.AVLTree.Rising

/-! # What a selected rotation leaves

The loop of `insert` selects a rotation at the node whose factor it has just
written. When every factor below is exact, the rotation brings the subtree back
to the height that it had before the insertion. -/

namespace DataStructAlgorithm.DataStruct.AVLTree

open Foundation

variable {Key Value : Type}

/-- The rotation that the dispatch selects when the factor of `parent` is on the
side of `heavy` and that of its child there on the side of `lean`. -/
def selectedRotation [LinearOrder Key] (heavy lean : Side) :
    AVLTree Key Value → Ptr → Outcome (AVLTree Key Value) :=
  match heavy, lean with
  | .right, .right => leftLeftRotation
  | .right, .left => rightLeftRotation
  | .left, .left => rightRightRotation
  | .left, .right => leftRightRotation

/-- The factor stored at the root. -/
def rootFactor : FactorTree Key Value → Option Int
  | .nil => none
  | .node _ _ data _ => some data.bf

/-- The subtree at which a rotation is selected. All its factors are exact, the one
at the root is 2 or -2, and the one of the child on the heavy side 1 or -1. -/
def Overloaded (heavy lean : Side) : FactorTree Key Value → Prop
  | .nil => False
  | .node left _ data right =>
      data.bf = (right.height : Int) - left.height ∧ data.bf = 2 * weight heavy ∧
        Balanced left ∧ Balanced right ∧
        rootFactor (match heavy with | .left => left | .right => right) = some (weight lean)

/-- The nodes in order, with their addresses and without their factors. -/
def sequence (tree : FactorTree Key Value) : List (Nat × Key × Value) :=
  tree.entries.map fun entry => (entry.1, entry.2.pair)

/-- The former parent of the subtree, or the root, points to `focus`. -/
def LinkedFrom (tree : AVLTree Key Value) (focus : Ptr) : Context (AVLData Key Value) → Prop
  | [] => tree.root = focus
  | frame :: _ => ∃ node, tree.heap.cell frame.address = some node ∧ node.child frame.side = focus

/-- The rotation has turned `tree` below `context` into `rotated`. -/
structure Restored (height : Nat) (tree : FactorTree Key Value)
    (context : Context (AVLData Key Value)) (after : AVLTree Key Value)
    (rotated : FactorTree Key Value) : Prop where
  represents : RepresentsAt after.heap after.root rotated context
  linkedFrom : LinkedFrom after rotated.pointer context
  sequence_eq : sequence rotated = sequence tree
  balanced : Balanced rotated
  height_eq : rotated.height = height

theorem overloaded_oriented (heavy lean : Side) (sub : FactorTree Key Value) (parent : Nat)
    (data : AVLData Key Value) (far : FactorTree Key Value) :
    Overloaded heavy lean (.oriented heavy sub parent data far) ↔
      data.bf = weight heavy * ((sub.height : Int) - far.height) ∧
        data.bf = 2 * weight heavy ∧ Balanced sub ∧ Balanced far ∧
        rootFactor sub = some (weight lean) := by
  cases heavy <;> simp only [AddrTree.oriented, Overloaded, weight] <;> grind

/-- An overloaded subtree taken apart: the heavy child is two higher than the other one. -/
theorem Overloaded.exists_oriented {heavy lean : Side} {tree : FactorTree Key Value}
    (overloaded : Overloaded heavy lean tree) :
    ∃ near sub subData middle parent data far,
      tree = .oriented heavy (.oriented heavy near sub subData middle) parent data far ∧
        data.bf = 2 * weight heavy ∧ subData.bf = weight lean ∧
        Balanced (.oriented heavy near sub subData middle) ∧ Balanced far ∧
        (AddrTree.oriented heavy near sub subData middle).height = far.height + 2 := by
  cases tree with
  | nil => exact overloaded.elim
  | node left parent data right =>
      rcases AddrTree.exists_oriented heavy left parent data right with ⟨child, far, treeEq⟩
      rw [treeEq, overloaded_oriented] at overloaded
      rcases overloaded with ⟨exact, double, childBalanced, farBalanced, leans⟩
      have childNotNil : child ≠ .nil := by
        rintro rfl
        cases leans
      rcases exists_oriented_of_ne_nil heavy childNotNil with ⟨near, sub, subData, middle, rfl⟩
      have childFactor : subData.bf = weight lean := by
        cases heavy <;> exact Option.some.inj leans
      have higher : (AddrTree.oriented heavy near sub subData middle).height =
          far.height + 2 := by
        rw [double] at exact
        rcases weight_eq heavy with value | value <;> rw [value] at exact <;> omega
      exact ⟨near, sub, subData, middle, parent, data, far, treeEq, double, childFactor,
        childBalanced, farBalanced, higher⟩

theorem linkedFrom_of_representsAt {tree : AVLTree Key Value} {focus : FactorTree Key Value}
    {context : Context (AVLData Key Value)}
    (represents : RepresentsAt tree.heap tree.root focus context) :
    LinkedFrom tree focus.pointer context := by
  cases context with
  | nil => exact represents.root_eq
  | cons frame rest =>
      exact ⟨_, represents.above.1, by rw [Frame.node, TreeNode.oriented_child_same]⟩

variable [LinearOrder Key] {heavy lean : Side} {heap : Store (Node Key Value)} {root : Ptr}
  {near middle far : FactorTree Key Value} {parent sub : Nat} {data subData : AVLData Key Value}
  {context : Context (AVLData Key Value)}

/-- With those factors `rebalance` is the selected rotation. -/
theorem rebalance_eq_selected
    (represents : RepresentsAt heap root
      (.oriented heavy (.oriented heavy near sub subData middle) parent data far) context)
    (leans : subData.bf = weight lean) :
    rebalance heavy ⟨heap, root⟩ (some parent) =
      selectedRotation heavy lean ⟨heap, root⟩ (some parent) := by
  have parts := (Linked.oriented_iff ..).mp represents.focus
  have foundParent := parts.1
  have foundSub := ((Linked.oriented_iff ..).mp parts.2.1).1
  rw [AddrTree.pointer_oriented] at foundParent
  cases heavy <;> cases lean <;>
    simp [rebalance, selectedRotation, foundParent, foundSub, TreeNode.oriented, TreeNode.child,
      leans, weight]

section Rebalanced

variable
  (represents : RepresentsAt heap root
    (.oriented heavy (.oriented heavy near sub subData middle) parent data far) context)
  (hangs : Hangs data.key context)
  (childBalanced : Balanced (.oriented heavy near sub subData middle))
  (farBalanced : Balanced far)
  (higher : (AddrTree.oriented heavy near sub subData middle).height = far.height + 2)
include represents hangs childBalanced farBalanced higher

theorem rebalance_restores_single (leans : subData.bf = weight heavy) :
    ∃ after rotated, rebalance heavy ⟨heap, root⟩ (some parent) = .ok after ∧
      Restored (far.height + 2)
        (.oriented heavy (.oriented heavy near sub subData middle) parent data far) context
        after rotated := by
  have lowered := (representsAt_fill _ ⟨heavy, parent, data, far⟩ context).mp represents
  rcases rebalance_single ⟨heavy, parent, data, far⟩ lowered leans hangs with
    ⟨after, rebalanced, afterRep⟩
  have balanced := singleRotation_balanced parent data childBalanced leans higher farBalanced
  refine ⟨after, _, rebalanced, afterRep, linkedFrom_of_representsAt afterRep, ?_, balanced.1,
    balanced.2⟩
  cases heavy <;> simp [sequence, AddrTree.oriented, AddrTree.entries, AVLData.pair, AVLData.setBf]

theorem rebalance_restores_double (leans : subData.bf = weight heavy.other)
    (hangsSub : data.key < subData.key ↔ heavy = .right) :
    ∃ after rotated, rebalance heavy ⟨heap, root⟩ (some parent) = .ok after ∧
      Restored (far.height + 2)
        (.oriented heavy (.oriented heavy near sub subData middle) parent data far) context
        after rotated := by
  -- the child leans inwards, so there is a node between it and `parent`
  have middleNotNil : middle ≠ .nil := by
    rintro rfl
    have exact := ((balanced_oriented ..).mp childBalanced).1
    rw [leans, weight_other] at exact
    simp only [AddrTree.height] at exact
    rcases weight_eq heavy with value | value <;> rw [value] at exact <;> omega
  rcases exists_oriented_of_ne_nil heavy middleNotNil with
    ⟨innerNear, inner, innerData, innerFar, rfl⟩
  have lowered := (representsAt_fill _ ⟨heavy, parent, data, far⟩ context).mp represents
  rcases rebalance_double ⟨heavy, parent, data, far⟩ lowered leans hangsSub hangs with
    ⟨after, rebalanced, afterRep⟩
  have balanced := doubleRotation_balanced parent data childBalanced leans higher farBalanced
  refine ⟨after, _, rebalanced, afterRep, linkedFrom_of_representsAt afterRep, ?_, balanced.1,
    balanced.2⟩
  cases heavy <;> simp [sequence, AddrTree.oriented, AddrTree.entries, AVLData.pair, AVLData.setBf]

end Rebalanced

/-- Each of the four rotations, in the state in which the pass that has written the factor
of `parent` selects it. -/
theorem selectedRotation_restores {tree : FactorTree Key Value} {height : Nat}
    (represents : RepresentsAt heap root tree context) (atParent : tree.pointer = some parent)
    (sorted : Sorted AVLData.key (Context.plug tree context))
    (overloaded : Overloaded heavy lean tree) (grown : tree.height = height + 1) :
    ∃ after rotated, selectedRotation heavy lean ⟨heap, root⟩ (some parent) = .ok after ∧
      (∀ before cur, updateFactor before cur (some parent) = .ok heap →
        retracePass ⟨⟨before, root⟩, cur, some parent⟩ =
          .ok (.again ⟨after, cur, some parent⟩)) ∧
      Restored height tree context after rotated := by
  rcases overloaded.exists_oriented with
    ⟨near, sub, subData, middle, address, data, far, rfl, double, leans, childBalanced,
      farBalanced, higher⟩
  rw [AddrTree.pointer_oriented] at atParent
  cases atParent
  have heightEq : height = far.height + 2 := by
    rw [AddrTree.height_oriented] at grown
    omega
  subst heightEq
  have around : Sorted AVLData.key (Context.plug (.oriented heavy near sub subData middle)
      (⟨heavy, parent, data, far⟩ :: context)) := sorted
  have hangs := hangs_of_sorted around
  have hangsSub := hangs_focus around
  have rebalances : ∃ after rotated, rebalance heavy ⟨heap, root⟩ (some parent) = .ok after ∧
      Restored (far.height + 2)
        (.oriented heavy (.oriented heavy near sub subData middle) parent data far) context
        after rotated := by
    by_cases outwards : lean = heavy
    · subst lean
      exact rebalance_restores_single represents hangs childBalanced farBalanced higher leans
    · rw [Side.eq_other_of_ne outwards] at leans
      exact rebalance_restores_double represents hangs childBalanced farBalanced higher leans
        hangsSub
  rcases rebalances with ⟨after, rotated, rebalanced, restored⟩
  refine ⟨after, rotated, ?_, ?_, restored⟩
  · rw [← rebalance_eq_selected represents leans, rebalanced]
  · intro before cur wrote
    have found := ((Linked.oriented_iff ..).mp represents.focus).1
    rw [retracePass_overloaded wrote found (by simpa using double), rebalanced]
    rfl

/-- 20 has been inserted below 30 and 10, and 30 hangs below 5. -/
def crooked : FactorTree Nat Nat :=
  .node (.node .nil 1 ⟨10, 0, 1⟩ (.node .nil 2 ⟨20, 0, 0⟩ .nil)) 0 ⟨30, 0, -2⟩ .nil

def aboveCrooked : Context (AVLData Nat Nat) :=
  [⟨.right, 3, ⟨5, 0, 1⟩, .node .nil 4 ⟨1, 0, 0⟩ .nil⟩]

/-- The nodes before the factor of 30 is written. -/
def crookedHeap : Store (Node Nat Nat) :=
  ((((Store.empty.alloc ⟨⟨30, 0, -1⟩, some 1, none, some 3⟩).alloc
    ⟨⟨10, 0, 1⟩, none, some 2, some 0⟩).alloc ⟨⟨20, 0, 0⟩, none, none, some 1⟩).alloc
    ⟨⟨5, 0, 1⟩, some 4, some 0, none⟩).alloc ⟨⟨1, 0, 0⟩, none, none, some 3⟩

theorem crookedHeap_represents :
    RepresentsAt (crookedHeap.modify 0 (.updateData (.setBf (-2)))) (some 3) crooked
      aboveCrooked :=
  ⟨rfl, ⟨rfl, ⟨rfl, trivial, ⟨rfl, trivial, trivial⟩⟩, trivial⟩,
    ⟨rfl, ⟨rfl, trivial, trivial⟩, trivial⟩, by decide⟩

theorem selectedRotation_restores_crooked :
    ∃ after rotated,
      selectedRotation .left .right ⟨crookedHeap.modify 0 (.updateData (.setBf (-2))), some 3⟩
        (some 0) = .ok after ∧
      retracePass ⟨⟨crookedHeap, some 3⟩, some 1, some 0⟩ =
        .ok (.again ⟨after, some 1, some 0⟩) ∧
      Restored 2 crooked aboveCrooked after rotated := by
  have sorted : Sorted AVLData.key (Context.plug crooked aboveCrooked) := by
    simp [Sorted, keys, crooked, aboveCrooked, Frame.fill, AddrTree.oriented, AddrTree.entries]
  have overloaded : Overloaded .left .right crooked :=
    ⟨rfl, rfl, ⟨rfl, by decide, trivial, ⟨rfl, by decide, trivial, trivial⟩⟩, trivial, rfl⟩
  rcases selectedRotation_restores crookedHeap_represents rfl sorted overloaded rfl with
    ⟨after, rotated, selected, passes, restored⟩
  exact ⟨after, rotated, selected, passes crookedHeap (some 1) rfl, restored⟩

end DataStructAlgorithm.DataStruct.AVLTree
