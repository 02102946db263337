import DataStructAlgorithm.DataStruct.RBTree.Fixup

/-! # Insertion

The fix-up loop as a whole, and from it what one call of `insert` does to a
red-black tree. -/

namespace DataStructAlgorithm.DataStruct.RBTree

open Foundation ColouredTree ColouredContext

variable {Value : Type}

/-- The loop stands at the red subtree `tree` below `context`, and everything but
the colour of its parent is in order. -/
structure Climbing (state : Fixup Value) (tree : ColouredTree Value)
    (context : Context (RbData Value)) : Prop where
  represents : RepresentsAt state.tree.heap state.tree.root tree context
  cur : state.cur = tree.pointer
  parent : state.parent = Context.parent context
  red : redRoot tree = true
  noRedRed : NoRedRed tree
  valid : ∃ count, BlackHeight tree count ∧ Valid context count

/-- What the loop leaves: a red-black tree but for the colour of its root. -/
structure Climbed (ended : Fixup Value) (tree : ColouredTree Value) : Prop where
  represents : Represents ended.tree.heap ended.tree.root tree
  notNil : tree ≠ .nil
  noRedRed : NoRedRed tree
  valid : ∃ count, BlackHeight tree count

theorem plug_ne_nil {tree : ColouredTree Value} (red : redRoot tree = true)
    (context : Context (RbData Value)) : Context.plug tree context ≠ .nil := by
  cases context with
  | nil =>
      intro equal
      rw [Context.plug_nil] at equal
      simp [equal, redRoot] at red
  | cons frame rest =>
      intro equal
      have bound := Context.length_le_height tree (frame :: rest)
      rw [equal] at bound
      simp [AddrTree.height] at bound

theorem exists_oriented_of_red (side : Side) {tree : ColouredTree Value}
    (red : redRoot tree = true) :
    ∃ near address data far, tree = .oriented side near address data far ∧
      data.col = .red := by
  cases tree with
  | nil => cases red
  | node left address data right =>
      rcases AddrTree.exists_oriented side left address data right with ⟨near, far, equal⟩
      exact ⟨near, address, data, far, equal, by simpa [redRoot] using red⟩

/-- The loop ends as soon as the parent is absent or black. -/
theorem Climbing.leaves {state : Fixup Value} {tree : ColouredTree Value}
    {context : Context (RbData Value)} (climbing : Climbing state tree context)
    (black : headRed context = false) :
    fixupPass state = .ok (.leave state) ∧ Climbed state (Context.plug tree context) := by
  rcases climbing with ⟨represents, curEq, parentEq, red, noRedRed, count, height, valid⟩
  have plugged := plug_valid valid noRedRed height fun _ => black
  constructor
  · have pass := fixupPass_leave represents black state.cur
    rw [← parentEq] at pass
    exact pass
  · exact ⟨(represents_plug _ _).mpr represents, plug_ne_nil red context, plugged.1, plugged.2⟩

/-- The subtree of the grandparent after recolouring: black below, red on top. -/
theorem recoloured_valid {tree uncle : ColouredTree Value} {lower upper : Frame (RbData Value)}
    {above : Context (RbData Value)} {count : Nat}
    (red : lower.data.col = .red) (noRedRed : NoRedRed tree) (height : BlackHeight tree count)
    (valid : Valid (lower :: upper :: above) count) (uncleBlack : redRoot uncle = false)
    (uncleValid : NoRedRed upper.sibling → NoRedRed uncle)
    (uncleHeight : ∀ count, BlackHeight upper.sibling count → BlackHeight uncle (count + 1)) :
    NoRedRed (Frame.fill ⟨upper.side, upper.address, upper.data.paint .red, uncle⟩
        (Frame.fill { lower with data := lower.data.paint .black } tree)) ∧
      BlackHeight (Frame.fill ⟨upper.side, upper.address, upper.data.paint .red, uncle⟩
        (Frame.fill { lower with data := lower.data.paint .black } tree)) (count + 1) ∧
      Valid above (count + 1) := by
  rcases valid with ⟨siblingValid, siblingHeight, redLower, upperValid, upperHeight, _, aboveValid⟩
  have upperBlack : upper.data.col = .black := by
    simpa [headBlack] using (redLower red).2
  rw [red, Colour.weight, Nat.add_zero] at upperHeight aboveValid
  rw [upperBlack] at aboveValid
  refine ⟨?_, ?_, aboveValid⟩
  · refine (noRedRed_oriented ..).mpr ⟨?_, ?_, uncleValid upperValid⟩
    · exact fun _ => ⟨by simp [Frame.fill, RbData.paint], uncleBlack⟩
    · exact (noRedRed_oriented ..).mpr
        ⟨fun black => (by cases black), noRedRed, siblingValid⟩
  · have lowerHeight : BlackHeight
        (Frame.fill { lower with data := lower.data.paint .black } tree) (count + 1) :=
      (blackHeight_oriented ..).mpr ⟨height, siblingHeight⟩
    exact (blackHeight_oriented ..).mpr ⟨lowerHeight, uncleHeight _ upperHeight⟩

/-- The context after a rotation: a black parent, whose other subtree is the old
grandparent, now red. -/
theorem rotated_valid (side : Side) (middle top : Nat) (data : RbData Value)
    {topData : RbData Value} {far uncle : ColouredTree Value} {above : Context (RbData Value)}
    {count : Nat}
    (topBlack : topData.col = .black) (farBlack : redRoot far = false)
    (uncleBlack : redRoot uncle = false) (farValid : NoRedRed far)
    (uncleValid : NoRedRed uncle) (farHeight : BlackHeight far count)
    (uncleHeight : BlackHeight uncle count)
    (aboveValid : Valid above (count + topData.col.weight)) :
    Valid (⟨side, middle, data.paint .black,
      .oriented side far top (topData.paint .red) uncle⟩ :: above) count := by
  rw [topBlack] at aboveValid
  refine ⟨?_, ?_, fun black => (nomatch black), aboveValid⟩
  · exact (noRedRed_oriented ..).mpr ⟨fun _ => ⟨farBlack, uncleBlack⟩, farValid, uncleValid⟩
  · exact (blackHeight_oriented ..).mpr ⟨farHeight, uncleHeight⟩

/-- A red parent is not the root, so there is a grandparent, and it is black. -/
theorem exists_grandparent {context : Context (RbData Value)} {count : Nat}
    (valid : Valid context count) (red : headRed context = true) :
    ∃ lower upper above, context = lower :: upper :: above ∧ lower.data.col = .red ∧
      upper.data.col = .black := by
  cases context with
  | nil => cases red
  | cons lower rest =>
      have lowerRed : lower.data.col = .red := by simpa [headRed] using red
      have grandparent := (valid.2.2.1 lowerRed).2
      cases rest with
      | nil => cases grandparent
      | cons upper above =>
          exact ⟨lower, upper, above, rfl, lowerRed, by simpa [headBlack] using grandparent⟩

/-- What a pass that does not end the loop makes of a climbing state. -/
def GoesOn (state : Fixup Value) (tree : ColouredTree Value)
    (context : Context (RbData Value)) : Prop :=
  ∃ next upTree upContext, fixupPass state = .ok (.again next) ∧
    Climbing next upTree upContext ∧ upContext.length < context.length ∧
    nodes (Context.plug upTree upContext) = nodes (Context.plug tree context)

/-- What a pass that ends the loop makes of a climbing state. -/
def Ends (state : Fixup Value) (tree : ColouredTree Value)
    (context : Context (RbData Value)) : Prop :=
  ∃ ended whole, fixupPass state = .ok (.leave ended) ∧ Climbed ended whole ∧
    nodes whole = nodes (Context.plug tree context)

section Passes

variable {state : Fixup Value} {tree : ColouredTree Value} {lower upper : Frame (RbData Value)}
  {above : Context (RbData Value)}

theorem Climbing.state_eq {context : Context (RbData Value)}
    (climbing : Climbing state tree context) :
    state = ⟨⟨state.tree.heap, state.tree.root⟩, tree.pointer, Context.parent context⟩ := by
  rw [← climbing.cur, ← climbing.parent]

/-- With a red uncle the pass recolours. The grandparent is where the loop goes on if it has to. -/
theorem Climbing.recolour_pass (climbing : Climbing state tree (lower :: upper :: above))
    (lowerRed : lower.data.col = .red) (uncleRed : redRoot upper.sibling = true) :
    ∃ next ended upTree, fixupPass state =
        .ok (if headRed above then .again next else .leave ended) ∧
      Climbing next upTree above ∧ upTree.pointer = some upper.address ∧
      ended.tree = next.tree ∧ ended.cur = state.cur ∧
      nodes (Context.plug upTree above) = nodes (Context.plug tree (lower :: upper :: above)) := by
  rcases climbing.valid with ⟨count, height, valid⟩
  rcases fixupPass_recolour climbing.represents lowerRed uncleRed tree.pointer with
    ⟨uncle, after, uncleBlack, uncleValid, uncleHeight, uncleNodes, recoloured, pass⟩
  rw [← Context.parent_cons lower (upper :: above), ← climbing.state_eq] at pass
  have checked := recoloured_valid lowerRed climbing.noRedRed height valid uncleBlack
    uncleValid uncleHeight
  have sameNodes : nodes (Frame.fill ⟨upper.side, upper.address, upper.data.paint .red, uncle⟩
      (Frame.fill { lower with data := lower.data.paint .black } tree)) =
      nodes (upper.fill (lower.fill tree)) := by
    simp only [nodes] at uncleNodes
    simp only [nodes, Frame.entries_fill, Frame.before, Frame.after]
    cases upper.side <;> cases lower.side <;> simp [uncleNodes, RbData.paint]
  have topRed : redRoot (Frame.fill
      ⟨upper.side, upper.address, upper.data.paint .red, uncle⟩
      (Frame.fill { lower with data := lower.data.paint .black } tree)) = true := by
    simp [Frame.fill, RbData.paint]
  exact ⟨_, _, _, pass, ⟨recoloured, by simp, rfl, topRed, checked.1, _, checked.2.1, checked.2.2⟩,
    by simp, rfl, climbing.cur.symm, nodes_plug_congr sameNodes above⟩

/-- A red uncle: the loop climbs two levels, or ends when that is enough. -/
theorem Climbing.recolours (climbing : Climbing state tree (lower :: upper :: above))
    (lowerRed : lower.data.col = .red) (uncleRed : redRoot upper.sibling = true) :
    GoesOn state tree (lower :: upper :: above) ∨ Ends state tree (lower :: upper :: above) := by
  rcases climbing.recolour_pass lowerRed uncleRed with
    ⟨next, ended, upTree, pass, climbs, _, sameTree, _, sameNodes⟩
  cases colour : headRed above with
  | true =>
      rw [colour] at pass
      refine Or.inl ⟨next, upTree, above, pass, climbs, ?_, sameNodes⟩
      simp only [List.length_cons]
      omega
  | false =>
      rw [colour] at pass
      have climbed := (climbs.leaves colour).2
      have represents := climbed.represents
      rw [← sameTree] at represents
      exact Or.inr ⟨ended, _, pass, ⟨represents, climbed.notNil, climbed.noRedRed, climbed.valid⟩,
        sameNodes⟩

/-- A black uncle and an outer grandchild: one rotation gives a black parent. -/
theorem Climbing.turns_outer (climbing : Climbing state tree (lower :: upper :: above))
    (lowerRed : lower.data.col = .red) (upperBlack : upper.data.col = .black)
    (uncleBlack : redRoot upper.sibling = false) (outer : lower.side = upper.side) :
    GoesOn state tree (lower :: upper :: above) := by
  rcases climbing.valid with ⟨count, height, siblingValid, siblingHeight, redLower, upperValid,
    upperHeight, _, aboveValid⟩
  rw [lowerRed, Colour.weight, Nat.add_zero] at upperHeight aboveValid
  have notNil : tree ≠ .nil := by
    intro equal
    have red := climbing.red
    simp [equal, redRoot] at red
  rcases fixupPass_outer climbing.represents lowerRed uncleBlack outer notNil with
    ⟨after, pass, rotated⟩
  rw [← Context.parent_cons lower (upper :: above), ← climbing.state_eq] at pass
  have turned := rotated_valid upper.side lower.address upper.address lower.data upperBlack
    (redLower lowerRed).1 uncleBlack siblingValid upperValid siblingHeight upperHeight aboveValid
  refine ⟨_, tree, _, pass, ⟨rotated, rfl, rfl, climbing.red, climbing.noRedRed, count, height,
    turned⟩, by simp, ?_⟩
  rw [Context.plug_cons, Context.plug_cons, Context.plug_cons]
  apply nodes_plug_congr
  cases side : upper.side <;>
    simp [nodes, Frame.fill, outer, side, AddrTree.oriented, AddrTree.entries, RbData.paint]

/-- A black uncle and an inner grandchild: the two rotations give a black parent,
below which the old parent is the new `cur`. -/
theorem Climbing.turns_inner (climbing : Climbing state tree (lower :: upper :: above))
    (lowerRed : lower.data.col = .red) (upperBlack : upper.data.col = .black)
    (uncleBlack : redRoot upper.sibling = false) (inner : lower.side = upper.side.other) :
    GoesOn state tree (lower :: upper :: above) := by
  rcases climbing.valid with ⟨count, height, siblingValid, siblingHeight, redLower, upperValid,
    upperHeight, _, aboveValid⟩
  rw [lowerRed, Colour.weight, Nat.add_zero] at upperHeight aboveValid
  have siblingBlack := (redLower lowerRed).1
  rcases exists_oriented_of_red upper.side climbing.red with
    ⟨near, address, data, far, rfl, curRed⟩
  have parts := (noRedRed_oriented ..).mp climbing.noRedRed
  rcases exists_blackHeight_of_oriented height with ⟨below, belowEq, nearHeight, farHeight⟩
  rw [curRed, Colour.weight, Nat.add_zero] at belowEq
  subst belowEq
  rcases fixupPass_inner climbing.represents lowerRed uncleBlack inner with
    ⟨after, pass, rotated⟩
  have turned := rotated_valid upper.side address upper.address data upperBlack
    (parts.1 curRed).2 uncleBlack parts.2.2 upperValid farHeight upperHeight aboveValid
  have stateEq := climbing.state_eq
  rw [AddrTree.pointer_oriented, Context.parent_cons] at stateEq
  rw [← stateEq] at pass
  have loweredRed : redRoot (.oriented upper.side lower.sibling lower.address lower.data
      near) = true := by
    simp [lowerRed]
  have loweredHeight := (blackHeight_oriented upper.side lower.sibling lower.address lower.data
    near count).mpr ⟨siblingHeight, nearHeight⟩
  rw [lowerRed, Colour.weight, Nat.add_zero] at loweredHeight
  refine ⟨_, _, _, pass, ⟨rotated, (AddrTree.pointer_oriented ..).symm, rfl, loweredRed, ?_,
    count, loweredHeight, turned⟩, by simp, ?_⟩
  · exact (noRedRed_oriented ..).mpr
      ⟨fun _ => ⟨siblingBlack, (parts.1 curRed).1⟩, siblingValid, parts.2.1⟩
  · rw [Context.plug_cons, Context.plug_cons, Context.plug_cons]
    apply nodes_plug_congr
    cases side : upper.side <;>
      simp [nodes, Frame.fill, inner, side, AddrTree.oriented, AddrTree.entries,
        RbData.paint, Side.other]

/-- One pass of the loop, whatever it does. -/
theorem Climbing.pass {context : Context (RbData Value)}
    (climbing : Climbing state tree context) :
    GoesOn state tree context ∨ Ends state tree context := by
  cases red : headRed context with
  | false =>
      have leaves := climbing.leaves red
      exact Or.inr ⟨state, _, leaves.1, leaves.2, rfl⟩
  | true =>
      rcases climbing.valid with ⟨count, height, valid⟩
      rcases exists_grandparent valid red with ⟨lower, upper, above, rfl, lowerRed, upperBlack⟩
      cases uncleColour : redRoot upper.sibling with
      | true => exact climbing.recolours lowerRed uncleColour
      | false =>
          by_cases outer : lower.side = upper.side
          · exact Or.inl (climbing.turns_outer lowerRed upperBlack uncleColour outer)
          · exact Or.inl (climbing.turns_inner lowerRed upperBlack uncleColour
              (Side.eq_other_of_ne outer))

end Passes

/-- The fix-up loop ends, with the nodes in the same order. -/
theorem Climbing.ends {state : Fixup Value} {tree : ColouredTree Value}
    {context : Context (RbData Value)} (climbing : Climbing state tree context)
    (fuel : Nat) (enough : context.length < fuel) :
    ∃ ended, repeatLoop fixupPass fuel state = .ok ended ∧
      ∃ whole, Climbed ended whole ∧ nodes whole = nodes (Context.plug tree context) := by
  refine repeatLoop_total
    (fun bound (state : Fixup Value) => ∃ upTree upContext, Climbing state upTree upContext ∧
      upContext.length = bound ∧
      nodes (Context.plug upTree upContext) = nodes (Context.plug tree context))
    (fun ended => ∃ whole, Climbed ended whole ∧
      nodes whole = nodes (Context.plug tree context))
    ?_ fuel context.length state ⟨tree, context, climbing, rfl, rfl⟩ enough
  intro bound state holds
  rcases holds with ⟨upTree, upContext, climbing, rfl, same⟩
  rcases climbing.pass with
    ⟨next, nextTree, nextContext, pass, nextClimbing, less, nextSame⟩ |
    ⟨ended, whole, pass, climbed, endedSame⟩
  · exact Or.inl ⟨next, nextContext.length, pass, less, nextTree, nextContext, nextClimbing,
      rfl, nextSame.trans same⟩
  · exact Or.inr ⟨ended, pass, whole, climbed, endedSame.trans same⟩

/-! ## Where `cur` stands when the loop ends -/

/-- The loop, entered at the child of this context, leaves its variable `cur` as
it is: the parent is black, or recolouring once is enough, or the new node is an
outer grandchild. -/
def KeepsCur : Context (RbData Value) → Prop
  | lower :: upper :: above =>
      lower.data.col = .red →
        if redRoot upper.sibling then headRed above = false else lower.side = upper.side
  | _ => True

theorem keepsCur_of_black {frame : Frame (RbData Value)} (black : frame.data.col = .black)
    (rest : Context (RbData Value)) : KeepsCur (frame :: rest) := by
  cases rest with
  | nil => trivial
  | cons upper above =>
      intro red
      rw [black] at red
      cases red

/-- After a rotation the parent is black, so the next pass ends the loop. -/
theorem cur_of_turned {state ended : Fixup Value} {after : RbTree Value} {cur : Ptr}
    {tree : ColouredTree Value} {frame : Frame (RbData Value)} {above : Context (RbData Value)}
    (rotated : RepresentsAt after.heap after.root tree (frame :: above))
    (pass : fixupPass state = .ok (.again ⟨after, cur, some frame.address⟩))
    (black : frame.data.col = .black) {fuel : Nat}
    (returned : repeatLoop fixupPass fuel state = .ok ended) : ended.cur = cur := by
  have leaves := fixupPass_leave rotated (by simp [headRed, black]) cur
  rw [Context.parent_cons] at leaves
  cases fuel with
  | zero => cases returned
  | succ fuel =>
      rw [repeatLoop_again fuel pass] at returned
      cases fuel with
      | zero => cases returned
      | succ fuel =>
          rw [repeatLoop_leave fuel leaves] at returned
          rw [← Except.ok.inj returned]

section Cur

variable {state ended : Fixup Value} {tree : ColouredTree Value} {context : Context (RbData Value)}
  {lower upper : Frame (RbData Value)} {above : Context (RbData Value)} {fuel : Nat}

theorem Climbing.cur_of_outer (climbing : Climbing state tree (lower :: upper :: above))
    (lowerRed : lower.data.col = .red) (uncleBlack : redRoot upper.sibling = false)
    (outer : lower.side = upper.side) (returned : repeatLoop fixupPass fuel state = .ok ended) :
    ended.cur = state.cur := by
  have stateEq := climbing.state_eq
  rw [Context.parent_cons] at stateEq
  have notNil : tree ≠ .nil := by
    intro equal
    have treeRed := climbing.red
    simp [equal, redRoot] at treeRed
  rcases fixupPass_outer climbing.represents lowerRed uncleBlack outer notNil with
    ⟨after, pass, rotated⟩
  rw [← stateEq] at pass
  rw [cur_of_turned rotated pass rfl returned, climbing.cur]

theorem Climbing.cur_of_inner (climbing : Climbing state tree (lower :: upper :: above))
    (lowerRed : lower.data.col = .red) (uncleBlack : redRoot upper.sibling = false)
    (inner : lower.side = upper.side.other)
    (returned : repeatLoop fixupPass fuel state = .ok ended) : ended.cur = some lower.address := by
  rcases exists_oriented_of_red upper.side climbing.red with ⟨near, address, data, far, rfl, _⟩
  have stateEq := climbing.state_eq
  rw [AddrTree.pointer_oriented, Context.parent_cons] at stateEq
  rcases fixupPass_inner climbing.represents lowerRed uncleBlack inner with ⟨after, pass, rotated⟩
  rw [← stateEq] at pass
  exact cur_of_turned rotated pass rfl returned

theorem Climbing.keeps_cur (climbing : Climbing state tree context) (keeps : KeepsCur context)
    (returned : repeatLoop fixupPass fuel state = .ok ended) : ended.cur = state.cur := by
  cases red : headRed context with
  | false =>
      cases fuel with
      | zero => cases returned
      | succ fuel =>
          rw [repeatLoop_leave fuel (climbing.leaves red).1] at returned
          rw [← Except.ok.inj returned]
  | true =>
      rcases climbing.valid with ⟨count, height, valid⟩
      rcases exists_grandparent valid red with ⟨lower, upper, above, rfl, lowerRed, upperBlack⟩
      have kept := keeps lowerRed
      cases uncleColour : redRoot upper.sibling with
      | true =>
          rw [uncleColour, if_pos rfl] at kept
          rcases climbing.recolour_pass lowerRed uncleColour with
            ⟨next, left, upTree, pass, _, _, _, same, _⟩
          rw [kept] at pass
          cases fuel with
          | zero => cases returned
          | succ fuel =>
              rw [repeatLoop_leave fuel pass] at returned
              rw [← Except.ok.inj returned, same]
      | false =>
          rw [uncleColour, if_neg (by decide)] at kept
          exact climbing.cur_of_outer lowerRed uncleColour kept returned

/-- Once `cur` has left a node that does not stand above, it does not come back to it. -/
theorem Climbing.cur_ne {address : Nat} (climbing : Climbing state tree context)
    (notHere : tree.pointer ≠ some address) (notAbove : address ∉ Context.addresses context)
    (returned : repeatLoop fixupPass fuel state = .ok ended) : ended.cur ≠ some address := by
  induction fuel generalizing state tree context with
  | zero => cases returned
  | succ fuel induction =>
      have atCur := climbing.cur
      cases red : headRed context with
      | false =>
          rw [repeatLoop_leave fuel (climbing.leaves red).1] at returned
          rw [← Except.ok.inj returned, atCur]
          exact notHere
      | true =>
          rcases climbing.valid with ⟨count, height, valid⟩
          rcases exists_grandparent valid red with ⟨lower, upper, above, rfl, lowerRed, upperBlack⟩
          simp only [Context.addresses, List.cons_append, List.mem_cons, List.mem_append,
            not_or] at notAbove
          cases uncleColour : redRoot upper.sibling with
          | true =>
              rcases climbing.recolour_pass lowerRed uncleColour with
                ⟨next, left, upTree, pass, climbs, atUpper, _, same, _⟩
              cases colour : headRed above with
              | true =>
                  rw [colour, if_pos rfl] at pass
                  rw [repeatLoop_again fuel pass] at returned
                  refine induction climbs ?_ notAbove.2.2.2.2 returned
                  rw [atUpper]
                  exact fun equal => notAbove.2.2.1 (Option.some.inj equal).symm
              | false =>
                  rw [colour, if_neg (by decide)] at pass
                  rw [repeatLoop_leave fuel pass] at returned
                  rw [← Except.ok.inj returned, same, atCur]
                  exact notHere
          | false =>
              by_cases outer : lower.side = upper.side
              · rw [climbing.cur_of_outer lowerRed uncleColour outer returned, atCur]
                exact notHere
              · rw [climbing.cur_of_inner lowerRed uncleColour (Side.eq_other_of_ne outer) returned]
                exact fun equal => notAbove.1 (Option.some.inj equal).symm

/-- In the other cases the loop takes `cur` away from where it was. -/
theorem Climbing.moves_cur (climbing : Climbing state tree context) (moves : ¬KeepsCur context)
    (returned : repeatLoop fixupPass fuel state = .ok ended) : ended.cur ≠ state.cur := by
  rcases exists_oriented_of_red .left climbing.red with ⟨near, address, data, far, treeEq, _⟩
  have atCur := climbing.cur
  have nodup := climbing.represents.nodup
  rw [treeEq, AddrTree.pointer_oriented] at atCur
  have notAbove : address ∉ Context.addresses context := by
    rw [treeEq] at nodup
    intro member
    have inTree : address ∈ (AddrTree.oriented .left near address data far).addresses :=
      AddrTree.mem_addresses_of_pointer (AddrTree.pointer_oriented ..)
    exact (List.nodup_append.mp nodup).2.2 _ inTree _ member rfl
  rw [atCur]
  rcases context with _ | ⟨lower, _ | ⟨upper, above⟩⟩
  · exact absurd trivial moves
  · exact absurd trivial moves
  · rw [KeepsCur, Classical.not_imp] at moves
    rcases moves with ⟨lowerRed, moves⟩
    simp only [Context.addresses, List.cons_append, List.mem_cons, List.mem_append,
      not_or] at notAbove
    cases uncleColour : redRoot upper.sibling with
    | true =>
        rw [uncleColour, if_pos rfl, Bool.not_eq_false] at moves
        rcases climbing.recolour_pass lowerRed uncleColour with
          ⟨next, left, upTree, pass, climbs, atUpper, _⟩
        rw [moves, if_pos rfl] at pass
        cases fuel with
        | zero => cases returned
        | succ fuel =>
            rw [repeatLoop_again fuel pass] at returned
            refine climbs.cur_ne ?_ notAbove.2.2.2.2 returned
            rw [atUpper]
            exact fun equal => notAbove.2.2.1 (Option.some.inj equal).symm
    | false =>
        rw [uncleColour, if_neg (by decide)] at moves
        rw [climbing.cur_of_inner lowerRed uncleColour (Side.eq_other_of_ne moves) returned]
        exact fun equal => notAbove.1 (Option.some.inj equal).symm

end Cur

/-- Painting the root black makes the result of the loop red-black. -/
theorem Climbed.paint_root {ended : Fixup Value} {whole : ColouredTree Value}
    (climbed : Climbed ended whole) :
    ∃ heap painted, paint ended.tree.heap ended.tree.root .black = .ok heap ∧
      Represents heap ended.tree.root painted ∧ RedBlack painted ∧
      nodes painted = nodes whole := by
  rcases climbed with ⟨represents, notNil, noRedRed, count, height⟩
  cases whole with
  | nil => exact absurd rfl notNil
  | node left address data right =>
      have oriented : RepresentsAt ended.tree.heap ended.tree.root
          (.oriented .left left address data right) [] := represents.at_root
      rcases paint_represents oriented .black with ⟨heap, painted, after⟩
      rw [represents.root_eq]
      rw [represents.root_eq] at after
      refine ⟨heap, _, painted, (represents_plug _ _).mpr after, ⟨?_, ?_, ?_⟩, ?_⟩
      · simp [RbData.paint]
      · have valid : NoRedRed (.oriented .left left address data right) := noRedRed
        exact noRedRed_black valid
      · have counted : BlackHeight (.oriented .left left address data right) count := height
        rcases exists_blackHeight_of_oriented counted with ⟨below, _, leftHeight, rightHeight⟩
        exact ⟨_, (blackHeight_oriented .left ..).mpr ⟨leftHeight, rightHeight⟩⟩
      · simp [nodes, AddrTree.oriented, AddrTree.entries, RbData.paint]

/-- A new red leaf at the end of the descent is where the loop starts. -/
theorem climbing_leaf {heap : Store (Node Value)} {root : Ptr} {value : Value} {address : Nat}
    {frame : Frame (RbData Value)} {rest : Context (RbData Value)}
    (redBlack : RedBlack (Context.plug .nil (frame :: rest)))
    (represents : RepresentsAt heap root (.node .nil address ⟨value, .red⟩ .nil)
      (frame :: rest)) :
    Climbing ⟨⟨heap, root⟩, some address, some frame.address⟩
      (.node .nil address ⟨value, .red⟩ .nil) (frame :: rest) := by
  rcases redBlack.blackHeight with ⟨total, height⟩
  rcases valid_of_plug redBlack.noRedRed height redBlack.rootBlack with
    ⟨count, valid, _, nilHeight, _⟩
  have countZero : count = 0 := (blackHeight_nil count).mp nilHeight
  subst countZero
  refine ⟨represents, rfl, rfl, by simp [redRoot], ?_, 0, ?_, valid⟩
  · exact ⟨fun _ => ⟨rfl, rfl⟩, trivial, trivial⟩
  · simp [BlackHeight, blackCounts, Colour.weight]

/-- The nodes around the place where a leaf is hung. -/
theorem nodes_leaf (context : Context (RbData Value)) (address : Nat) (data : RbData Value) :
    ∃ first second, nodes (Context.plug .nil context) = first ++ second ∧
      nodes (Context.plug (.node .nil address data .nil) context) =
        first ++ (address, data.value) :: second := by
  refine ⟨(Context.before context).map fun entry => (entry.1, entry.2.value),
    (Context.after context).map fun entry => (entry.1, entry.2.value), ?_, ?_⟩
  · rw [nodes_plug]
    simp [nodes, AddrTree.entries]
  · rw [nodes_plug]
    simp [nodes, AddrTree.entries]

/-! ## One call of `insert` -/

section Calls

variable [LinearOrder Value] {tree : RbTree Value} {whole : ColouredTree Value}

/-- What a call leaves behind when its value was absent. -/
structure Grown (before : ColouredTree Value) (after : RbTree Value)
    (whole : ColouredTree Value) (address : Nat) (value : Value) : Prop where
  represents : Represents after.heap after.root whole
  redBlack : RedBlack whole
  sorted : Sorted RbData.value whole
  nodes : ∃ first second, before.nodes = first ++ second ∧
    whole.nodes = first ++ (address, value) :: second

theorem Grown.mem_values {before after : ColouredTree Value} {grown : RbTree Value}
    {address : Nat} {value : Value} (result : Grown before grown after address value)
    (queried : Value) : queried ∈ keys RbData.value after ↔
      queried = value ∨ queried ∈ keys RbData.value before := by
  rcases result.nodes with ⟨first, second, beforeEq, afterEq⟩
  rw [← map_snd_nodes, ← map_snd_nodes, beforeEq, afterEq]
  simp only [List.map_append, List.map_cons, List.mem_append, List.mem_cons]
  grind

/-- The old nodes are still there, at their addresses. -/
theorem Grown.keeps_nodes {before after : ColouredTree Value} {grown : RbTree Value}
    {address : Nat} {value : Value} (result : Grown before grown after address value) :
    before.nodes ⊆ after.nodes := by
  rcases result.nodes with ⟨first, second, beforeEq, afterEq⟩
  intro node member
  rw [beforeEq, List.mem_append] at member
  rw [afterEq, List.mem_append, List.mem_cons]
  rcases member with member | member
  · exact Or.inl member
  · exact Or.inr (Or.inr member)

theorem sorted_of_nodes {first second : ColouredTree Value} (same : nodes first = nodes second)
    (sorted : Sorted RbData.value second) : Sorted RbData.value first := by
  unfold Sorted at sorted ⊢
  rw [← map_snd_nodes] at sorted ⊢
  rw [same]
  exact sorted

/-- A value that is present is found, and nothing changes. -/
theorem insertCur_found (represents : Represents tree.heap tree.root whole)
    (sorted : Sorted RbData.value whole) {value : Value} (present : value ∈ keys RbData.value whole)
    (fuel : Nat) (enough : whole.height < fuel) :
    ∃ address, (address, value) ∈ nodes whole ∧
      insertCur fuel tree value = .ok (tree, some address, false) := by
  rcases descend_locates (against RbData.value value) represents fuel enough with
    ⟨result, descended, located⟩
  have rootSome : ∃ root, tree.root = some root := by
    rw [represents.root_eq]
    cases whole with
    | nil => cases present
    | node left address data right => exact ⟨address, rfl⟩
  rcases rootSome with ⟨root, rootEq⟩
  cases result with
  | missing parent =>
      rcases located with ⟨context, _, rfl, follows⟩
      exact absurd present (follows.not_mem sorted)
  | found cur =>
      rcases located with ⟨left, address, data, right, context, rfl, rfl, equal, _⟩
      refine ⟨address, ?_, ?_⟩
      · rw [nodes_plug, ← against_eq_eq.mp equal]
        simp [nodes, AddrTree.entries]
      · rw [rootEq] at descended
        simp [insertCur, rootEq, descended]

/-- The first insertion makes a black root. -/
theorem insertCur_empty (rootEq : tree.root = none) (value : Value) (fuel : Nat) :
    ∃ after, insertCur fuel tree value = .ok (after, some tree.heap.next, true) ∧
      Represents after.heap after.root
        (.node .nil tree.heap.next ⟨value, .black⟩ .nil) := by
  refine ⟨⟨(tree.heap.alloc ⟨⟨value, .red⟩, none, none, none⟩).modify tree.heap.next
    (.updateData (.paint .black)), some tree.heap.next⟩, ?_, rfl, ?_, by simp [AddrTree.addresses]⟩
  · simp [insertCur, rootEq, paint]
  · exact ⟨by simp [TreeNode.updateData, RbData.paint, AddrTree.pointer], trivial, trivial⟩

/-- Whether the iterator that `MyMap/rb_tree.h` builds from `cur` after the fix-up
loop would be the new node: its parent is black, or recolouring once is enough,
or it is an outer grandchild. -/
def keepsCur (fuel : Nat) (tree : RbTree Value) (value : Value) : Outcome Bool := do
  match ← descend (against RbData.value value) fuel tree.heap tree.root with
  | .found _ => pure true
  | .missing none => pure true
  | .missing (some parent) => do
      let node ← tree.heap.load (some parent)
      if node.data.col = .black then pure true
      else do
        let above ← tree.heap.load node.parent
        let side : Side := if some parent = above.left then .left else .right
        if ← isRed tree.heap (above.child side.other) then do
          let climbs ← isRed tree.heap above.parent
          pure !climbs
        else pure (side = if against RbData.value value node.data = .gt then .right else .left)

/-- A value that is present is found, and no loop is run. -/
theorem keepsCur_found (represents : Represents tree.heap tree.root whole)
    (sorted : Sorted RbData.value whole) {value : Value}
    (present : value ∈ keys RbData.value whole) {fuel : Nat} (enough : whole.height < fuel) :
    keepsCur fuel tree value = .ok true := by
  rcases descend_locates (against RbData.value value) represents fuel enough with
    ⟨result, descended, located⟩
  cases result with
  | found cur => rw [keepsCur, descended, Outcome.ok_bind, Outcome.pure_eq_ok]
  | missing parent =>
      rcases located with ⟨context, _, rfl, follows⟩
      exact absurd present (follows.not_mem sorted)

/-- `keepsCur` decides the condition on the path of the descent. -/
theorem keepsCur_iff {frame : Frame (RbData Value)} {rest : Context (RbData Value)}
    (represents : Represents tree.heap tree.root (Context.plug .nil (frame :: rest)))
    (redBlack : RedBlack (Context.plug .nil (frame :: rest))) {value : Value}
    (follows : Follows (against RbData.value value) (frame :: rest)) {fuel : Nat}
    (descended : descend (against RbData.value value) fuel tree.heap tree.root =
      .ok (.missing (some frame.address))) :
    keepsCur fuel tree value = .ok true ↔ KeepsCur (frame :: rest) := by
  have parts := (represents_plug _ _).mp represents
  have foundParent := parts.above.1
  have head := follows.head
  cases colour : frame.data.col with
  | black =>
      have keeps : keepsCur fuel tree value = .ok true := by
        simp [keepsCur, descended, Store.load_some foundParent, Frame.node, colour]
      exact iff_of_true keeps (keepsCur_of_black colour rest)
  | red =>
  cases rest with
  | nil =>
      have black := redBlack.rootBlack
      simp [Frame.fill, colour] at black
  | cons upper above =>
      have foundUpper := parts.above.2.2.1
      have uncle := isRed_pointer parts.above.2.2.2.1
      have climbs := isRed_parent parts.above.2.2.2.2
      have different : upper.sibling.pointer ≠ some frame.address := by
        have lifted := (representsAt_fill _ _ _).mpr parts
        rw [← Frame.pointer_fill frame .nil]
        refine lifted.sibling_ne ?_
        intro equal
        have pointerEq := Frame.pointer_fill frame .nil
        rw [equal] at pointerEq
        cases pointerEq
      have sideEq : (if some frame.address =
          (upper.node (some frame.address) (Context.parent above)).left
          then Side.left else Side.right) = upper.side := by
        cases side : upper.side with
        | left => simp [Frame.node, side, TreeNode.oriented]
        | right => simp [Frame.node, side, TreeNode.oriented, Ne.symm different]
      have hangs : (if against RbData.value value frame.data = .gt then Side.right
          else Side.left) = frame.side := by
        rw [head]
        cases frame.side <;> rfl
      simp only [keepsCur, descended, Outcome.ok_bind, Store.load_some foundParent,
        Store.load_some foundUpper, Frame.node, TreeNode.oriented_data, colour,
        reduceCtorEq, if_false, TreeNode.oriented_parent, Context.parent_cons, KeepsCur,
        true_implies]
      rw [Frame.node] at sideEq
      rw [sideEq, hangs, TreeNode.oriented_child_other, uncle, Outcome.ok_bind]
      cases uncleColour : redRoot upper.sibling with
      | true => simp [climbs]
      | false => simp [eq_comm]

/-- Insertion below an existing node, from the end of the descent on. -/
theorem insertCur_missing {frame : Frame (RbData Value)} {rest : Context (RbData Value)}
    (represents : Represents tree.heap tree.root (Context.plug .nil (frame :: rest)))
    (redBlack : RedBlack (Context.plug .nil (frame :: rest)))
    (sorted : Sorted RbData.value (Context.plug .nil (frame :: rest))) {value : Value}
    (follows : Follows (against RbData.value value) (frame :: rest)) {fuel : Nat}
    (descended : descend (against RbData.value value) fuel tree.heap tree.root =
      .ok (.missing (some frame.address)))
    (rootSome : ∃ root, tree.root = some root) (enough : (frame :: rest).length < fuel) :
    ∃ after cur grown, insertCur fuel tree value = .ok (after, cur, true) ∧
      Grown (Context.plug .nil (frame :: rest)) after grown tree.heap.next value ∧
      (cur = some tree.heap.next ↔ keepsCur fuel tree value = .ok true) := by
  rcases rootSome with ⟨root, rootEq⟩
  rcases attach_represents represents follows ⟨value, .red⟩ with ⟨heap, attached, leafRep⟩
  have climbing := climbing_leaf redBlack leafRep
  have foundParent := leafRep.above.1
  have leafSorted := follows.sorted_leaf sorted ⟨value, .red⟩ rfl tree.heap.next
  have leafNodes := nodes_leaf (frame :: rest) tree.heap.next ⟨value, .red⟩
  have keepsIff := keepsCur_iff represents redBlack follows descended
  rw [rootEq] at descended
  cases colour : frame.data.col with
  | black =>
      have leaves := climbing.leaves (by simp [headRed, colour])
      refine ⟨⟨heap, tree.root⟩, _, _, ?_, ⟨leaves.2.represents, ⟨?_, leaves.2.noRedRed,
        leaves.2.valid⟩, leafSorted, leafNodes⟩, iff_of_true rfl ?_⟩
      · simp [insertCur, rootEq, descended, attached, Store.load_some foundParent, Frame.node,
          colour]
      · rw [redRoot_plug_cons _ .nil]
        exact redBlack.rootBlack
      · rw [keepsIff]
        exact keepsCur_of_black colour rest
  | red =>
      rcases climbing.ends fuel enough with ⟨ended, looped, whole, climbed, sameNodes⟩
      rcases climbed.paint_root with ⟨painted, grown, paintEq, grownRep, grownRedBlack, paintNodes⟩
      have allNodes := paintNodes.trans sameNodes
      rw [rootEq] at looped
      refine ⟨⟨painted, ended.tree.root⟩, ended.cur, grown, ?_, ⟨grownRep, grownRedBlack,
        sorted_of_nodes allNodes leafSorted, ?_⟩, ?_⟩
      · simp [insertCur, rootEq, descended, attached, Store.load_some foundParent, Frame.node,
          colour, looped, paintEq]
      · rw [allNodes]
        exact leafNodes
      · rw [keepsIff]
        rw [← rootEq] at looped
        constructor
        · intro atNew
          by_contra moves
          exact climbing.moves_cur moves looped atNew
        · exact fun keeps => climbing.keeps_cur keeps looped

/-- A value that is absent is inserted. -/
theorem insertCur_absent (represents : Represents tree.heap tree.root whole)
    (redBlack : RedBlack whole) (sorted : Sorted RbData.value whole) {value : Value}
    (absent : value ∉ keys RbData.value whole) (fuel : Nat) (enough : whole.height < fuel) :
    ∃ after cur grown, insertCur fuel tree value = .ok (after, cur, true) ∧
      Grown whole after grown tree.heap.next value ∧
      (cur = some tree.heap.next ↔ keepsCur fuel tree value = .ok true) := by
  rcases descend_locates (against RbData.value value) represents fuel enough with
    ⟨result, descended, located⟩
  cases result with
  | found cur =>
      rcases located with ⟨left, address, data, right, context, rfl, rfl, equal, _⟩
      refine absurd ?_ absent
      rw [← map_snd_nodes, nodes_plug, ← against_eq_eq.mp equal]
      simp [nodes, AddrTree.entries]
  | missing parent =>
      rcases located with ⟨context, rfl, rfl, follows⟩
      cases context with
      | nil =>
          rcases insertCur_empty represents.root_eq value fuel with
            ⟨after, returned, represented⟩
          refine ⟨after, _, _, returned, ⟨represented, ⟨by simp [redRoot], ?_, ?_⟩, ?_, ?_⟩,
            iff_of_true rfl (by simp [keepsCur, descended])⟩
          · exact ⟨fun red => (by cases red), trivial, trivial⟩
          · exact ⟨1, by simp [BlackHeight, blackCounts, Colour.weight]⟩
          · simp [Sorted, keys, AddrTree.entries]
          · exact ⟨[], [], rfl, rfl⟩
      | cons frame rest =>
          have bound := Context.length_le_height (.nil : ColouredTree Value) (frame :: rest)
          have rootSome : ∃ root, tree.root = some root := by
            rw [represents.root_eq]
            exact Context.exists_pointer_plug _ frame rest
          exact insertCur_missing represents redBlack sorted follows descended rootSome
            (by omega)

end Calls

end DataStructAlgorithm.DataStruct.RBTree
