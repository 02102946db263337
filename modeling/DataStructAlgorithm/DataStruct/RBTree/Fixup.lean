import DataStructAlgorithm.DataStruct.RBTree.Rotation
import DataStructAlgorithm.DataStruct.RBTree.Colouring

/-! # One pass of the fix-up loop

Each way a pass can go is described by the tree before and the tree after it;
everything about the loop is derived from these four theorems. -/

namespace DataStructAlgorithm.DataStruct.RBTree

open Foundation ColouredTree ColouredContext

variable {Value : Type} {heap : Store (Node Value)} {root : Ptr}

theorem isRed_pointer {up : Ptr} {tree : ColouredTree Value} (linked : Linked heap up tree) :
    isRed heap tree.pointer = .ok (redRoot tree) := by
  cases tree with
  | nil => rfl
  | node left address data right => simp [isRed, AddrTree.pointer, linked.1, redRoot]

theorem isRed_parent {focus : Ptr} {context : Context (RbData Value)}
    (linked : LinkedContext heap focus context) :
    isRed heap (Context.parent context) = .ok (headRed context) := by
  cases context with
  | nil => rfl
  | cons frame rest => simp [isRed, linked.1, Frame.node, headRed]

/-- Painting the focus of a represented tree. -/
theorem paint_represents {side : Side} {near far : ColouredTree Value} {address : Nat}
    {data : RbData Value} {context : Context (RbData Value)}
    (represents : RepresentsAt heap root (.oriented side near address data far) context)
    (col : Colour) :
    ∃ after, paint heap (some address) col = .ok after ∧
      RepresentsAt after root (.oriented side near address (data.paint col) far) context := by
  have found := ((Linked.oriented_iff ..).mp represents.focus).1
  exact ⟨_, Store.assign_some _ found, represents.updateData _⟩

theorem paint_represents_fill {tree : ColouredTree Value} {frame : Frame (RbData Value)}
    {context : Context (RbData Value)}
    (represents : RepresentsAt heap root (frame.fill tree) context) (col : Colour) :
    ∃ after, paint heap (some frame.address) col = .ok after ∧
      RepresentsAt after root
        (Frame.fill { frame with data := frame.data.paint col } tree) context :=
  paint_represents represents col

/-- The loop condition fails when there is no parent or it is black. -/
theorem fixupPass_leave {tree : ColouredTree Value} {context : Context (RbData Value)}
    (represents : RepresentsAt heap root tree context) (black : headRed context = false)
    (cur : Ptr) :
    fixupPass ⟨⟨heap, root⟩, cur, Context.parent context⟩ =
      .ok (.leave ⟨⟨heap, root⟩, cur, Context.parent context⟩) := by
  simp [fixupPass, isRed_parent represents.above, black]

section RedParent

variable {tree : ColouredTree Value} {lower upper : Frame (RbData Value)}
  {above : Context (RbData Value)}

/-- With a red parent the pass reads the grandparent and looks at the uncle. -/
theorem fixupPass_red (represents : RepresentsAt heap root tree (lower :: upper :: above))
    (red : lower.data.col = .red) (cur : Ptr) :
    fixupPass ⟨⟨heap, root⟩, cur, some lower.address⟩ =
      if redRoot upper.sibling then
        recolour ⟨⟨heap, root⟩, cur, some lower.address⟩ (some upper.address)
          upper.sibling.pointer
      else
        rotateOut upper.side ⟨⟨heap, root⟩, cur, some lower.address⟩ (some upper.address) := by
  rcases represents with ⟨rootEq, focus, linked, nodup⟩
  have foundLower := linked.1
  have foundUpper := linked.2.2.1
  have uncle := isRed_pointer linked.2.2.2.1
  have siblingDifferent : upper.sibling.pointer ≠ some lower.address := by
    intro equal
    have inside : lower.address ∈ upper.sibling.addresses := by
      cases sibling : upper.sibling with
      | nil => simp [sibling, AddrTree.pointer] at equal
      | node left address data right =>
          rw [sibling] at equal
          cases equal
          simp [AddrTree.addresses]
    simp [Context.addresses, List.nodup_append, inside] at nodup
  have sideEq : (if some lower.address =
      (upper.node (some lower.address) (Context.parent above)).left
      then Side.left else Side.right) = upper.side := by
    cases side : upper.side with
    | left => simp [Frame.node, side, TreeNode.oriented]
    | right => simp [Frame.node, side, TreeNode.oriented, Ne.symm siblingDifferent]
  have redLower : isRed heap (some lower.address) = .ok true := by
    simp [isRed, foundLower, Frame.node, red]
  simp only [fixupPass, redLower, Outcome.ok_bind, if_true, Store.load_some foundLower,
    Store.load_some foundUpper, Frame.node, TreeNode.oriented_parent, Context.parent_cons]
  rw [Frame.node] at sideEq
  rw [sideEq]
  simp [uncle]

/-- A red uncle: the colours of the two upper generations are swapped. -/
theorem fixupPass_recolour (represents : RepresentsAt heap root tree (lower :: upper :: above))
    (red : lower.data.col = .red) (uncleRed : redRoot upper.sibling = true) (cur : Ptr) :
    ∃ (uncle : ColouredTree Value) (after : Store (Node Value)),
      redRoot uncle = false ∧
      (NoRedRed upper.sibling → NoRedRed uncle) ∧
      (∀ count, BlackHeight upper.sibling count → BlackHeight uncle (count + 1)) ∧
      nodes uncle = nodes upper.sibling ∧
      RepresentsAt after root
        (Frame.fill ⟨upper.side, upper.address, upper.data.paint .red, uncle⟩
          (Frame.fill { lower with data := lower.data.paint .black } tree)) above ∧
      fixupPass ⟨⟨heap, root⟩, cur, some lower.address⟩ =
        .ok (if headRed above then
            .again ⟨⟨after, root⟩, some upper.address, Context.parent above⟩
          else .leave ⟨⟨after, root⟩, cur, some lower.address⟩) := by
  rw [fixupPass_red represents red, if_pos uncleRed]
  cases sibling : upper.sibling with
  | nil => simp [sibling, redRoot] at uncleRed
  | node left address data right =>
      have uncleColour : data.col = .red := by simpa [sibling, redRoot] using uncleRed
      -- the uncle comes into focus, then the parent, then the grandparent
      have atUpper := (representsAt_fill _ _ _).mpr ((representsAt_fill _ _ _).mpr represents)
      have atUncle : RepresentsAt heap root (.oriented .left left address data right)
          (⟨upper.side.other, upper.address, upper.data, lower.fill tree⟩ :: above) := by
        rw [← representsAt_fill]
        rw [Frame.fill, sibling] at atUpper
        rw [Frame.fill, AddrTree.oriented_other]
        exact atUpper
      rcases paint_represents atUncle .black with ⟨first, firstPaint, firstRep⟩
      have atLower : RepresentsAt first root (lower.fill tree)
          (⟨upper.side, upper.address, upper.data,
            .oriented .left left address (data.paint .black) right⟩ :: above) := by
        rw [← representsAt_fill] at firstRep ⊢
        simpa [Frame.fill, AddrTree.oriented_other] using firstRep
      rcases paint_represents_fill atLower .black with ⟨second, secondPaint, secondRep⟩
      rcases paint_represents_fill ((representsAt_fill _ _ _).mpr secondRep) .red with
        ⟨third, thirdPaint, thirdRep⟩
      have foundUpper := ((Linked.oriented_iff ..).mp thirdRep.focus).1
      refine ⟨.node left address (data.paint .black) right, third, ?_, ?_, ?_, ?_, thirdRep, ?_⟩
      · simp [redRoot, RbData.paint]
      · intro valid
        have oriented : NoRedRed (.oriented .left left address data right) := valid
        exact noRedRed_black oriented
      · intro count height
        have oriented : BlackHeight (.oriented .left left address data right) count := height
        rcases exists_blackHeight_of_oriented oriented with
          ⟨below, rfl, leftHeight, rightHeight⟩
        rw [uncleColour]
        exact (blackHeight_oriented .left ..).mpr ⟨leftHeight, rightHeight⟩
      · simp [nodes, AddrTree.entries, RbData.paint]
      · have upRed := isRed_parent thirdRep.above
        cases climbs : headRed above with
        | false =>
            rw [climbs] at upRed
            simp [recolour, AddrTree.pointer, firstPaint, secondPaint, thirdPaint,
              Store.load_some foundUpper, upRed]
        | true =>
            rw [climbs] at upRed
            cases above with
            | nil => cases climbs
            | cons top rest =>
                have foundTop := thirdRep.above.1
                rw [Context.parent_cons] at upRed
                simp [recolour, AddrTree.pointer, firstPaint, secondPaint, thirdPaint,
                  Store.load_some foundUpper, upRed, Store.load_some foundTop]

theorem rotateTo_eq (side : Side) (tree : RbTree Value) (parent : Ptr) :
    rotateTo side tree parent = rotate side tree parent := by
  cases side <;> rfl

/-- The closing rotation about the grandparent, and the two paints after it. -/
theorem rotateOut_last {side : Side} {near far uncle : ColouredTree Value} {middle top : Nat}
    {data topData : RbData Value}
    (represents : RepresentsAt heap root (.oriented side
      (.oriented side near middle data far) top topData uncle) above) :
    ∃ turned after, rotateTo side.other ⟨heap, root⟩ (some top) = .ok turned ∧
      (do
        let heap ← paint turned.heap (some middle) .black
        paint heap (some top) .red) = .ok after ∧
      RepresentsAt after turned.root near (⟨side, middle, data.paint .black,
        .oriented side far top (topData.paint .red) uncle⟩ :: above) := by
  have turnedUp : RepresentsAt heap root (.oriented side.other uncle top topData
      (.oriented side.other far middle data near)) above := by
    simpa [AddrTree.oriented_other] using represents
  rcases rotate_represents side.other turnedUp with ⟨turned, rotated, rotatedRep⟩
  rcases paint_represents rotatedRep .black with ⟨first, firstPaint, firstRep⟩
  have atTop : RepresentsAt first turned.root (.oriented side.other uncle top topData far)
      (⟨side.other, middle, data.paint .black, near⟩ :: above) := by
    rw [← representsAt_fill]
    exact firstRep
  rcases paint_represents atTop .red with ⟨second, secondPaint, secondRep⟩
  refine ⟨turned, second, ?_, ?_, ?_⟩
  · rw [rotateTo_eq, rotated]
  · simp [firstPaint, secondPaint]
  · rw [← representsAt_fill] at secondRep ⊢
    simpa [Frame.fill, AddrTree.oriented_other] using secondRep

/-- A black uncle and an outer grandchild: one rotation. -/
theorem fixupPass_outer (represents : RepresentsAt heap root tree (lower :: upper :: above))
    (red : lower.data.col = .red) (uncleBlack : redRoot upper.sibling = false)
    (outer : lower.side = upper.side) (notNil : tree ≠ .nil) :
    ∃ after : RbTree Value,
      fixupPass ⟨⟨heap, root⟩, tree.pointer, some lower.address⟩ =
        .ok (.again ⟨after, tree.pointer, some lower.address⟩) ∧
      RepresentsAt after.heap after.root tree
        (⟨upper.side, lower.address, lower.data.paint .black,
          .oriented upper.side lower.sibling upper.address (upper.data.paint .red)
            upper.sibling⟩ :: above) := by
  rw [fixupPass_red represents red, if_neg (by simp [uncleBlack])]
  have foundLower := represents.above.1
  have atUpper := (representsAt_fill _ _ _).mpr ((representsAt_fill _ _ _).mpr represents)
  rw [Frame.fill, Frame.fill, outer] at atUpper
  rcases rotateOut_last atUpper with ⟨turned, after, rotated, painted, finalRep⟩
  have notInner : tree.pointer ≠ lower.sibling.pointer := by
    intro equal
    cases tree with
    | nil => exact notNil rfl
    | node left address data right =>
        have nodup := represents.nodup
        cases sibling : lower.sibling with
        | nil => simp [sibling, AddrTree.pointer] at equal
        | node _ other _ _ =>
            rw [sibling] at equal
            cases equal
            simp [Context.addresses, sibling, AddrTree.addresses, List.nodup_append] at nodup
  refine ⟨⟨after, turned.root⟩, ?_, finalRep⟩
  rw [Frame.node, outer] at foundLower
  rcases Outcome.bind_eq_ok painted with ⟨first, firstPaint, secondPaint⟩
  simp [rotateOut, Store.load_some foundLower, notInner, rotated, firstPaint, secondPaint]

/-- A black uncle and an inner grandchild: two rotations, and `cur` and `parent`
change their roles. -/
theorem fixupPass_inner {near far : ColouredTree Value} {address : Nat} {data : RbData Value}
    (represents : RepresentsAt heap root (.oriented upper.side near address data far)
      (lower :: upper :: above))
    (red : lower.data.col = .red) (uncleBlack : redRoot upper.sibling = false)
    (inner : lower.side = upper.side.other) :
    ∃ after : RbTree Value,
      fixupPass ⟨⟨heap, root⟩, some address, some lower.address⟩ =
        .ok (.again ⟨after, some lower.address, some address⟩) ∧
      RepresentsAt after.heap after.root
        (.oriented upper.side lower.sibling lower.address lower.data near)
        (⟨upper.side, address, data.paint .black,
          .oriented upper.side far upper.address (upper.data.paint .red)
            upper.sibling⟩ :: above) := by
  rw [fixupPass_red represents red, if_neg (by simp [uncleBlack])]
  have foundLower := represents.above.1
  have atLower := (representsAt_fill _ _ _).mpr represents
  rw [Frame.fill, inner, AddrTree.oriented_other] at atLower
  rcases rotate_represents upper.side atLower with ⟨first, firstRotated, firstRep⟩
  have atUpper := (representsAt_fill _ _ _).mpr firstRep
  rw [Frame.fill] at atUpper
  rcases rotateOut_last atUpper with ⟨turned, after, rotated, painted, finalRep⟩
  refine ⟨⟨after, turned.root⟩, ?_, finalRep⟩
  rw [Frame.node, inner] at foundLower
  rcases Outcome.bind_eq_ok painted with ⟨firstStore, firstPaint, secondPaint⟩
  simp [rotateOut, Store.load_some foundLower, rotateTo_eq upper.side, firstRotated,
    rotated, firstPaint, secondPaint]

end RedParent

end DataStructAlgorithm.DataStruct.RBTree
