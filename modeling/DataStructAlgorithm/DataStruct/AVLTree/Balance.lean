import DataStructAlgorithm.DataStruct.AVLTree.Rotation

/-! # Balance factors

A tree is balanced when every stored factor is the difference of the heights
below it and none exceeds one. A context is described relative to the height that
the subtree in its hole has. -/

namespace DataStructAlgorithm.DataStruct.AVLTree

open Foundation

variable {Key Value : Type}

/-- Every stored factor is exact and lies in {-1, 0, 1}. -/
def Balanced : FactorTree Key Value → Prop
  | .nil => True
  | .node left _ data right =>
      data.bf = (right.height : Int) - left.height ∧ (-1 ≤ data.bf ∧ data.bf ≤ 1) ∧
        Balanced left ∧ Balanced right

/-- The same for a context whose hole is `height` high. -/
def ContextBalanced (height : Nat) : Context (AVLData Key Value) → Prop
  | [] => True
  | frame :: rest =>
      frame.data.bf = weight frame.side * ((height : Int) - frame.sibling.height) ∧
        (-1 ≤ frame.data.bf ∧ frame.data.bf ≤ 1) ∧ Balanced frame.sibling ∧
        ContextBalanced (max height frame.sibling.height + 1) rest

@[simp] theorem weight_other (side : Side) : weight side.other = -weight side := by
  cases side <;> rfl

theorem weight_eq (side : Side) : weight side = 1 ∨ weight side = -1 := by
  cases side
  · exact Or.inr rfl
  · exact Or.inl rfl

theorem balanced_oriented (side : Side) (near : FactorTree Key Value) (address : Nat)
    (data : AVLData Key Value) (far : FactorTree Key Value) :
    Balanced (.oriented side near address data far) ↔
      data.bf = weight side * ((near.height : Int) - far.height) ∧
        (-1 ≤ data.bf ∧ data.bf ≤ 1) ∧ Balanced near ∧ Balanced far := by
  cases side <;> simp only [AddrTree.oriented, Balanced, weight] <;> grind

theorem balanced_plug (tree : FactorTree Key Value) (context : Context (AVLData Key Value)) :
    Balanced (Context.plug tree context) ↔
      Balanced tree ∧ ContextBalanced tree.height context := by
  induction context generalizing tree with
  | nil => simp [ContextBalanced]
  | cons frame rest induction =>
      rw [Context.plug_cons, induction, Frame.fill, balanced_oriented, AddrTree.height_oriented,
        ContextBalanced]
      grind

/-- `_isBalance` finds nothing wrong and reports the height. -/
theorem isBalanceFrom_balanced {heap : Store (Node Key Value)} {parent : Ptr}
    {tree : FactorTree Key Value} (linked : Linked heap parent tree) (balanced : Balanced tree)
    (fuel : Nat) (enough : tree.height < fuel) :
    isBalanceFrom fuel heap tree.pointer = .ok (true, tree.height) := by
  induction tree generalizing fuel parent with
  | nil =>
      cases fuel with
      | zero => simp at enough
      | succ fuel => rfl
  | node left address data right leftInduction rightInduction =>
      rcases linked with ⟨found, leftLinked, rightLinked⟩
      rcases balanced with ⟨exact, bounds, leftBalanced, rightBalanced⟩
      cases fuel with
      | zero => simp at enough
      | succ fuel =>
          simp only [AddrTree.height] at enough
          have leftChecked := leftInduction leftLinked leftBalanced fuel (by omega)
          have rightChecked := rightInduction rightLinked rightBalanced fuel (by omega)
          have near : ¬ ((left.height : Int) - right.height).natAbs > 1 := by omega
          rw [AddrTree.pointer_node, isBalanceFrom, Store.load_some found, Outcome.ok_bind]
          simp only [leftChecked, rightChecked, Outcome.ok_bind, Bool.not_true,
            Bool.false_eq_true, if_false, near, AddrTree.height, Outcome.pure_eq_ok]
          split <;> simp only [Except.ok.injEq, Prod.mk.injEq, true_and] <;> omega

/-! ## The rotations restore the balance

`P` is at factor 2 or -2: its subtree on `heavy` is `height + 1` high, the other
one `height - 1`. -/

section Rotated

variable {heavy : Side} (parent : Nat) (data : AVLData Key Value) {sub inner : Nat}
  {subData innerData : AVLData Key Value}
  {near middle innerNear innerFar far : FactorTree Key Value} {height : Nat}

theorem singleRotation_balanced
    (lower : Balanced (.oriented heavy near sub subData middle)) (leans : subData.bf = weight heavy)
    (heightEq : (AddrTree.oriented heavy near sub subData middle).height = far.height + 2)
    (farBalanced : Balanced far) :
    Balanced (.oriented heavy near sub (subData.setBf 0)
        (.oriented heavy middle parent (data.setBf 0) far)) ∧
      (AddrTree.oriented heavy near sub (subData.setBf 0)
        (.oriented heavy middle parent (data.setBf 0) far)).height = far.height + 2 := by
  rw [balanced_oriented] at lower
  rw [AddrTree.height_oriented] at heightEq
  rcases lower with ⟨exact, _, nearBalanced, middleBalanced⟩
  have heights : near.height = far.height + 1 ∧ middle.height = far.height := by
    rw [leans] at exact
    rcases weight_eq heavy with value | value <;> rw [value] at exact <;> omega
  simp only [balanced_oriented, AddrTree.height_oriented, AVLData.bf_setBf, heights]
  exact ⟨⟨by simp, by omega, nearBalanced, ⟨by simp, by omega, middleBalanced, farBalanced⟩⟩,
    by simp⟩

theorem doubleRotation_balanced
    (lower : Balanced (.oriented heavy near sub subData
      (.oriented heavy innerNear inner innerData innerFar)))
    (leans : subData.bf = weight heavy.other)
    (heightEq : (AddrTree.oriented heavy near sub subData
      (.oriented heavy innerNear inner innerData innerFar)).height = far.height + 2)
    (farBalanced : Balanced far) :
    Balanced (.oriented heavy
        (.oriented heavy near sub (subData.setBf (settledSub heavy innerData.bf)) innerNear)
        inner (innerData.setBf 0)
        (.oriented heavy innerFar parent (data.setBf (settledParent heavy innerData.bf)) far)) ∧
      (AddrTree.oriented heavy
        (.oriented heavy near sub (subData.setBf (settledSub heavy innerData.bf)) innerNear)
        inner (innerData.setBf 0)
        (.oriented heavy innerFar parent
          (data.setBf (settledParent heavy innerData.bf)) far)).height = far.height + 2 := by
  simp only [balanced_oriented, AddrTree.height_oriented] at lower heightEq
  rcases lower with ⟨exact, _, nearBalanced, innerExact, innerBound, innerNearBalanced,
    innerFarBalanced⟩
  rw [leans, weight_other] at exact
  simp only [balanced_oriented, AddrTree.height_oriented, AVLData.bf_setBf, settledSub, settledParent,
    weight_other]
  rcases weight_eq heavy with value | value <;> rw [value] at exact innerExact ⊢
  · refine ⟨⟨?_, by omega, ⟨?_, ?_, nearBalanced, innerNearBalanced⟩,
      ⟨?_, ?_, innerFarBalanced, farBalanced⟩⟩, ?_⟩ <;> grind
  · refine ⟨⟨?_, by omega, ⟨?_, ?_, nearBalanced, innerNearBalanced⟩,
      ⟨?_, ?_, innerFarBalanced, farBalanced⟩⟩, ?_⟩ <;> grind

end Rotated

end DataStructAlgorithm.DataStruct.AVLTree
