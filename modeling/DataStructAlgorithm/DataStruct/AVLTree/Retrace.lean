import DataStructAlgorithm.DataStruct.AVLTree.Balance

/-! # Retracing

The loop climbs while the subtree it comes from has grown by one. A rotation ends
it in the pass that follows, unless the double rotation has left a factor at
`parent` that is not zero. -/

namespace DataStructAlgorithm.DataStruct.AVLTree

open Foundation

variable {Key Value : Type}

/-- The subtree leans towards the path `down` that the loop has come up along,
and the path ends at a leaf. -/
def Leans (tree : FactorTree Key Value) : List Side → Prop
  | [] => ∃ address data, tree = .node .nil address data .nil ∧ data.bf = 0
  | side :: down => ∃ near address data far,
      tree = .oriented side near address data far ∧ data.bf = weight side ∧ Leans near down

/-- At the lowest node of the path that is not in balance, the path does not turn
to the heavy side, back, and to the heavy side again. -/
def Straight (down : List Side) : Context (AVLData Key Value) → Prop
  | [] => True
  | frame :: rest =>
      if frame.data.bf = 0 then Straight (frame.side :: down) rest
      else frame.data.bf = weight frame.side → down.take 2 ≠ [frame.side.other, frame.side]

theorem Leans.notNil {tree : FactorTree Key Value} {down : List Side}
    (leans : Leans tree down) : tree ≠ .nil := by
  cases down with
  | nil =>
      rcases leans with ⟨address, data, rfl, _⟩
      exact fun equal => nomatch equal
  | cons side down =>
      rcases leans with ⟨near, address, data, far, rfl, _⟩
      cases side <;> exact fun equal => nomatch equal

/-- A subtree that does not lean to a side has no factor towards it. -/
theorem Leans.other_side {tree : FactorTree Key Value} {down : List Side}
    (leans : Leans tree down) {side : Side} (away : down.head? ≠ some side) :
    ∃ near address data far, tree = .oriented side near address data far ∧
      data.bf ≠ weight side := by
  cases down with
  | nil =>
      rcases leans with ⟨address, data, rfl, zero⟩
      refine ⟨.nil, address, data, .nil, by cases side <;> rfl, ?_⟩
      rcases weight_eq side with value | value <;> omega
  | cons first down =>
      rcases leans with ⟨near, address, data, far, rfl, exact, _⟩
      have firstEq : first = side.other := by
        apply Side.eq_other_of_ne
        intro equal
        exact away (congrArg some equal)
      subst first
      refine ⟨far, address, data, near, AddrTree.oriented_other .., ?_⟩
      rw [exact, weight_other]
      rcases weight_eq side with value | value <;> omega

/-- The frame above the focus with the factor that the pass gives it. -/
def retraced (frame : Frame (AVLData Key Value)) : Frame (AVLData Key Value) :=
  { frame with data := frame.data.setBf (frame.data.bf + weight frame.side) }

theorem retraced_bf (frame : Frame (AVLData Key Value)) :
    (retraced frame).data.bf = frame.data.bf + weight frame.side := rfl

@[simp] theorem retraced_key (frame : Frame (AVLData Key Value)) :
    (retraced frame).data.key = frame.data.key := rfl

@[simp] theorem retraced_side (frame : Frame (AVLData Key Value)) :
    (retraced frame).side = frame.side := rfl

@[simp] theorem retraced_address (frame : Frame (AVLData Key Value)) :
    (retraced frame).address = frame.address := rfl

@[simp] theorem retraced_sibling (frame : Frame (AVLData Key Value)) :
    (retraced frame).sibling = frame.sibling := rfl

section Pass

variable {heap : Store (Node Key Value)} {root : Ptr} {focus : FactorTree Key Value}
  {frame : Frame (AVLData Key Value)} {rest : Context (AVLData Key Value)}

/-- A pass first writes the factor of the parent. -/
theorem updateFactor_frame (represents : RepresentsAt heap root focus (frame :: rest))
    (notNil : focus ≠ .nil) :
    ∃ after, updateFactor heap focus.pointer (some frame.address) = .ok after ∧
      RepresentsAt after root focus (retraced frame :: rest) := by
  have different := represents.sibling_ne notNil
  have found := represents.above.1
  have lifted := (representsAt_fill focus frame rest).mpr represents
  rcases setBf_represents lifted (frame.data.bf + weight frame.side) with
    ⟨after, written, afterRep⟩
  refine ⟨after, ?_, (representsAt_fill focus (retraced frame) rest).mp afterRep⟩
  cases side : frame.side with
  | left =>
      simpa [updateFactor, Store.load_some found, side, weight, Frame.node, TreeNode.oriented,
        Int.sub_eq_add_neg] using written
  | right =>
      simpa [updateFactor, Store.load_some found, side, weight, Frame.node, TreeNode.oriented,
        different] using written

variable [LinearOrder Key]

/-- A pass that writes a factor of 2 or -2 rebalances and goes on from the same nodes. -/
theorem retracePass_overloaded {before heap : Store (Node Key Value)} {cur : Ptr} {parent : Nat}
    {node : Node Key Value} {heavy : Side}
    (wrote : updateFactor before cur (some parent) = .ok heap)
    (found : heap.cell parent = some node) (overloaded : node.data.bf = 2 * weight heavy) :
    retracePass ⟨⟨before, root⟩, cur, some parent⟩ = (do
      let tree ← rebalance heavy ⟨heap, root⟩ (some parent)
      pure (.again ⟨tree, cur, some parent⟩)) := by
  have nonzero : node.data.bf ≠ 0 ∧ node.data.bf.natAbs ≠ 1 := by
    rcases weight_eq heavy with value | value <;> rw [value] at overloaded <;> omega
  simp only [retracePass, Outcome.ok_bind, wrote, Store.load_some found, if_neg nonzero.1,
    if_neg nonzero.2]
  cases heavy with
  | left =>
      have negative : node.data.bf = -2 := by simpa [weight] using overloaded
      simp [negative]
  | right =>
      have positive : node.data.bf = 2 := by simpa [weight] using overloaded
      simp [positive]

/-- What a pass does with the factor of the parent, and how it goes on. -/
theorem retracePass_frame (represents : RepresentsAt heap root focus (frame :: rest))
    (notNil : focus ≠ .nil) :
    ∃ after, RepresentsAt after root focus (retraced frame :: rest) ∧
      ((retraced frame).data.bf = 0 →
        retracePass ⟨⟨heap, root⟩, focus.pointer, some frame.address⟩ =
          .ok (.leave (⟨after, root⟩, true))) ∧
      ((retraced frame).data.bf.natAbs = 1 →
        retracePass ⟨⟨heap, root⟩, focus.pointer, some frame.address⟩ =
          .ok (.again ⟨⟨after, root⟩, some frame.address, Context.parent rest⟩)) ∧
      ((retraced frame).data.bf = 2 * weight frame.side →
        retracePass ⟨⟨heap, root⟩, focus.pointer, some frame.address⟩ = do
          let tree ← rebalance frame.side ⟨after, root⟩ (some frame.address)
          pure (.again ⟨tree, focus.pointer, some frame.address⟩)) := by
  rcases updateFactor_frame represents notNil with ⟨after, wrote, lowered⟩
  have foundAfter := lowered.above.1
  have afterData : ((retraced frame).node focus.pointer (Context.parent rest)).data =
      (retraced frame).data := TreeNode.oriented_data ..
  have afterParent : ((retraced frame).node focus.pointer (Context.parent rest)).parent =
      Context.parent rest := TreeNode.oriented_parent ..
  have foundRetraced : after.cell frame.address =
      some ((retraced frame).node focus.pointer (Context.parent rest)) := foundAfter
  refine ⟨after, lowered, ?_, ?_, ?_⟩
  · intro value
    simp only [retracePass, Outcome.ok_bind, wrote,
      Store.load_some foundRetraced, afterData, if_pos value]
    rfl
  · intro value
    have nonzero : (retraced frame).data.bf ≠ 0 := by omega
    simp only [retracePass, Outcome.ok_bind, wrote,
      Store.load_some foundRetraced, afterData, if_neg nonzero, if_pos value, afterParent]
    rfl
  · intro value
    exact retracePass_overloaded wrote foundRetraced (by rw [afterData, value])

/-- With the heavy subtree leaning outwards, `rebalance` is a single rotation. -/
theorem rebalance_single (frame : Frame (AVLData Key Value))
    {near middle : FactorTree Key Value} {sub : Nat} {subData : AVLData Key Value}
    (represents : RepresentsAt heap root (.oriented frame.side near sub subData middle)
      (frame :: rest))
    (leans : subData.bf = weight frame.side) (hangs : Hangs frame.data.key rest) :
    ∃ after, rebalance frame.side ⟨heap, root⟩ (some frame.address) = .ok after ∧
      RepresentsAt after.heap after.root
        (.oriented frame.side near sub (subData.setBf 0)
          (.oriented frame.side middle frame.address (frame.data.setBf 0) frame.sibling)) rest := by
  have foundFrame := represents.above.1
  have foundSub := ((Linked.oriented_iff ..).mp represents.focus).1
  have facing : RepresentsAt heap root
      (.oriented frame.side.other frame.sibling frame.address frame.data
        (.oriented frame.side.other middle sub subData near)) rest := by
    simpa only [AddrTree.oriented_other, Frame.fill] using
      (representsAt_fill _ frame rest).mpr represents
  rcases rotate_represents frame.side.other facing hangs with ⟨after, rotated, afterRep⟩
  refine ⟨after, ?_, by simpa only [AddrTree.oriented_other] using afterRep⟩
  rw [AddrTree.pointer_oriented] at foundFrame
  cases side : frame.side <;> rw [side] at leans rotated foundSub <;>
    simp only [Side.other] at rotated <;>
    simp [rebalance, foundFrame, foundSub, Frame.node, side, TreeNode.oriented, TreeNode.child,
      leans, weight, leftLeftRotation, rightRightRotation, rotated]

/-- With the heavy subtree leaning inwards, `rebalance` is a double rotation. -/
theorem rebalance_double (frame : Frame (AVLData Key Value))
    {near innerNear innerFar : FactorTree Key Value} {sub inner : Nat}
    {subData innerData : AVLData Key Value}
    (represents : RepresentsAt heap root
      (.oriented frame.side near sub subData
        (.oriented frame.side innerNear inner innerData innerFar)) (frame :: rest))
    (leans : subData.bf = weight frame.side.other)
    (hangsSub : frame.data.key < subData.key ↔ frame.side = .right)
    (hangs : Hangs frame.data.key rest) :
    ∃ after, rebalance frame.side ⟨heap, root⟩ (some frame.address) = .ok after ∧
      RepresentsAt after.heap after.root
        (.oriented frame.side
          (.oriented frame.side near sub (subData.setBf (settledSub frame.side innerData.bf))
            innerNear)
          inner (innerData.setBf 0)
          (.oriented frame.side innerFar frame.address
            (frame.data.setBf (settledParent frame.side innerData.bf)) frame.sibling)) rest := by
  have foundFrame := represents.above.1
  have foundSub := ((Linked.oriented_iff ..).mp represents.focus).1
  rcases doubleRotation_represents ((representsAt_fill _ frame rest).mpr represents) hangsSub hangs
    with ⟨after, rotated, afterRep⟩
  refine ⟨after, ?_, afterRep⟩
  rw [AddrTree.pointer_oriented] at foundFrame
  rw [weight_other] at leans
  cases side : frame.side <;> rw [side] at leans rotated foundSub <;>
    simp only [doubleRotation] at rotated <;>
    simp [rebalance, foundFrame, foundSub, Frame.node, side, TreeNode.oriented, TreeNode.child,
      leans, weight, rotated]

/-- In a search tree the parent of the focus hangs on the side its key belongs to. -/
theorem hangs_of_sorted (sorted : Sorted AVLData.key (Context.plug focus (frame :: rest))) :
    Hangs frame.data.key rest := by
  cases rest with
  | nil => trivial
  | cons upper above =>
      rw [Context.plug_cons] at sorted
      apply sorted.hangs
      simp only [keys, Frame.entries_fill]
      cases side : frame.side <;> simp [Frame.before, Frame.after, side]

/-- So does the focus itself. -/
theorem hangs_focus {side : Side} {near far : FactorTree Key Value} {address : Nat}
    {data : AVLData Key Value}
    (sorted : Sorted AVLData.key
      (Context.plug (.oriented side near address data far) (frame :: rest))) :
    frame.data.key < data.key ↔ frame.side = .right := by
  apply sorted.hangs
  cases side <;> simp [keys, AddrTree.oriented, AddrTree.entries]

/-- The pass after a rotation that has cleared the factor of `parent`. -/
theorem retracePass_settled {up : Ptr} {side : Side} {near far : FactorTree Key Value}
    {cur parent : Nat} {data : AVLData Key Value}
    (linked : Linked heap up (.oriented side near parent data far)) (zero : data.bf = 0)
    (notNear : cur ∉ near.addresses) (notFar : cur ∉ far.addresses) :
    retracePass ⟨⟨heap, root⟩, some cur, some parent⟩ = .ok (.leave (⟨heap, root⟩, true)) := by
  have found := ((Linked.oriented_iff ..).mp linked).1
  have nearDifferent : near.pointer ≠ some cur := fun equal =>
    notNear (AddrTree.mem_addresses_of_pointer equal)
  have farDifferent : far.pointer ≠ some cur := fun equal =>
    notFar (AddrTree.mem_addresses_of_pointer equal)
  cases side <;>
    simp [retracePass, updateFactor, Store.load_some found, TreeNode.oriented, nearDifferent,
      farDifferent, zero]

/-- A pass below a parent that its outward leaning child overloads: a single rotation,
and the pass after it leaves the loop. -/
theorem retracePass_single {near middle : FactorTree Key Value} {sub : Nat}
    {subData : AVLData Key Value}
    (represents : RepresentsAt heap root (.oriented frame.side near sub subData middle)
      (frame :: rest))
    (heavy : frame.data.bf = weight frame.side) (leans : subData.bf = weight frame.side)
    (hangs : Hangs frame.data.key rest) :
    ∃ after, retracePass ⟨⟨heap, root⟩, some sub, some frame.address⟩ =
        .ok (.again ⟨after, some sub, some frame.address⟩) ∧
      retracePass ⟨after, some sub, some frame.address⟩ = .ok (.leave (after, true)) ∧
      RepresentsAt after.heap after.root
        (.oriented frame.side near sub (subData.setBf 0)
          (.oriented frame.side middle frame.address (frame.data.setBf 0) frame.sibling)) rest := by
  rcases retracePass_frame represents (AddrTree.oriented_ne_nil _ _ _ _ _) with
    ⟨heap, heapRep, _, _, turn⟩
  have double : (retraced frame).data.bf = 2 * weight frame.side := by
    rw [retraced_bf, heavy]
    omega
  rcases rebalance_single (retraced frame) heapRep leans hangs with ⟨after, rebalanced, afterRep⟩
  have again := turn double
  rw [retraced_side, retraced_address] at rebalanced
  rw [AddrTree.pointer_oriented, rebalanced, Outcome.ok_bind] at again
  have lower := ((Linked.oriented_iff ..).mp afterRep.focus).2.2
  have apart := (AddrTree.nodup_oriented ..).mp (List.nodup_append.mp afterRep.nodup).1
  rw [AddrTree.mem_oriented, not_or, not_or] at apart
  exact ⟨after, again, retracePass_settled lower rfl apart.2.1.2.1 apart.2.1.2.2, afterRep⟩

/-- A pass below a parent that its inward leaning child overloads: a double rotation,
after which that child is away from the parent. -/
theorem retracePass_double {near innerNear innerFar : FactorTree Key Value} {sub inner : Nat}
    {subData innerData : AVLData Key Value}
    (represents : RepresentsAt heap root
      (.oriented frame.side near sub subData
        (.oriented frame.side innerNear inner innerData innerFar)) (frame :: rest))
    (heavy : frame.data.bf = weight frame.side) (leans : subData.bf = weight frame.side.other)
    (hangsSub : frame.data.key < subData.key ↔ frame.side = .right)
    (hangs : Hangs frame.data.key rest) :
    ∃ after, retracePass ⟨⟨heap, root⟩, some sub, some frame.address⟩ =
        .ok (.again ⟨after, some sub, some frame.address⟩) ∧
      sub ∉ (AddrTree.oriented frame.side innerFar frame.address
        (frame.data.setBf (settledParent frame.side innerData.bf)) frame.sibling).addresses ∧
      RepresentsAt after.heap after.root
        (.oriented frame.side
          (.oriented frame.side near sub (subData.setBf (settledSub frame.side innerData.bf))
            innerNear)
          inner (innerData.setBf 0)
          (.oriented frame.side innerFar frame.address
            (frame.data.setBf (settledParent frame.side innerData.bf)) frame.sibling)) rest := by
  rcases retracePass_frame represents (AddrTree.oriented_ne_nil _ _ _ _ _) with
    ⟨heap, heapRep, _, _, turn⟩
  have double : (retraced frame).data.bf = 2 * weight frame.side := by
    rw [retraced_bf, heavy]
    omega
  rcases rebalance_double (retraced frame) heapRep leans hangsSub hangs with
    ⟨after, rebalanced, afterRep⟩
  have again := turn double
  rw [retraced_side, retraced_address] at rebalanced
  rw [AddrTree.pointer_oriented, rebalanced, Outcome.ok_bind] at again
  have apart := (AddrTree.nodup_oriented ..).mp (List.nodup_append.mp afterRep.nodup).1
  exact ⟨after, again, apart.2.2.2.2 sub ((AddrTree.mem_oriented ..).mpr (Or.inl rfl)), afterRep⟩

end Pass

/-! ## The loop -/

section Loop

variable {tree : AVLTree Key Value} {focus : FactorTree Key Value}
  {frame : Frame (AVLData Key Value)} {context rest : Context (AVLData Key Value)}
  {down : List Side} {sorted : List Key}

/-- The loop has come up to the root of `focus`, which has grown by one. -/
structure Climb (tree : AVLTree Key Value) (focus : FactorTree Key Value)
    (context : Context (AVLData Key Value)) (down : List Side) (sorted : List Key) : Prop where
  represents : RepresentsAt tree.heap tree.root focus context
  balanced : Balanced focus
  above : ∃ height, focus.height = height + 1 ∧ ContextBalanced height context
  leans : Leans focus down
  straight : Straight down context
  keysEq : keys AVLData.key (Context.plug focus context) = sorted

/-- The tree is balanced and has the keys it should have. -/
def Finished (tree : AVLTree Key Value) (sorted : List Key) : Prop :=
  ∃ whole, Represents tree.heap tree.root whole ∧ Balanced whole ∧
    keys AVLData.key whole = sorted

namespace Climb

theorem finished_root (climb : Climb tree focus [] down sorted) : Finished tree sorted :=
  ⟨focus, (represents_plug _ _).mpr climb.represents, climb.balanced, climb.keysEq⟩

theorem keys_retraced (climb : Climb tree focus (frame :: rest) down sorted) :
    keys AVLData.key (Context.plug ((retraced frame).fill focus) rest) = sorted := by
  rw [← climb.keysEq, Context.plug_cons]
  apply keys_plug_congr
  simp [keys, Frame.entries_fill, Frame.before, Frame.after, retraced]
  cases frame.side <;> simp

/-- Next to a heavy side that has grown: the height that the context expects is the one before. -/
theorem around (climb : Climb tree focus (frame :: rest) down sorted)
    (heavy : frame.data.bf = weight frame.side) :
    focus.height = frame.sibling.height + 2 ∧ Balanced frame.sibling ∧
      ContextBalanced (frame.sibling.height + 2) rest := by
  rcases climb.above with ⟨height, heightEq, exact, _, siblingBalanced, restBalanced⟩
  have siblingHeight : height = frame.sibling.height + 1 := by
    rw [heavy] at exact
    rcases weight_eq frame.side with value | value <;> rw [value] at exact <;> omega
  have same : max height frame.sibling.height + 1 = frame.sibling.height + 2 := by omega
  rw [same] at restBalanced
  exact ⟨by omega, siblingBalanced, restBalanced⟩

/-- A rotation ends with a balanced tree of the height that the context expects. -/
theorem finished_turned (climb : Climb tree focus (frame :: rest) down sorted)
    {after : AVLTree Key Value} {turned : FactorTree Key Value} {height : Nat}
    (afterRep : RepresentsAt after.heap after.root turned rest)
    (balanced : Balanced turned ∧ turned.height = height)
    (restBalanced : ContextBalanced height rest)
    (sameKeys : keys AVLData.key turned = keys AVLData.key (frame.fill focus)) :
    Finished after sorted := by
  refine ⟨_, (represents_plug _ _).mpr afterRep, ?_, ?_⟩
  · rw [← balanced.2] at restBalanced
    exact (balanced_plug _ _).mpr ⟨balanced.1, restBalanced⟩
  · rw [← climb.keysEq, Context.plug_cons]
    exact keys_plug_congr sameKeys rest

variable [LinearOrder Key]

/-- The light side has grown: the height below `parent` stays. -/
theorem absorbed (climb : Climb tree focus (frame :: rest) down sorted)
    (light : frame.data.bf = -weight frame.side) :
    ∃ after, retracePass ⟨tree, focus.pointer, some frame.address⟩ =
      .ok (.leave (after, true)) ∧ Finished after sorted := by
  rcases retracePass_frame climb.represents climb.leans.notNil with
    ⟨heap, heapRep, left, _⟩
  have zero : (retraced frame).data.bf = 0 := by
    rw [retraced_bf, light]
    omega
  rcases climb.above with ⟨height, heightEq, exact, _, siblingBalanced, restBalanced⟩
  have siblingHeight : frame.sibling.height = height + 1 := by
    rw [light] at exact
    rcases weight_eq frame.side with value | value <;> rw [value] at exact <;> omega
  refine ⟨_, left zero, _, (represents_plug _ _).mpr ((representsAt_fill _ _ _).mpr heapRep),
    ?_, climb.keys_retraced⟩
  rw [balanced_plug, Frame.fill, balanced_oriented, AddrTree.height_oriented]
  refine ⟨⟨?_, ?_, climb.balanced, siblingBalanced⟩, ?_⟩
  · rw [zero, heightEq, retraced_sibling, siblingHeight]
    simp
  · omega
  · rw [heightEq]
    simpa [retraced, siblingHeight] using restBalanced

/-- Both sides were equally high: the loop climbs. -/
theorem climbed (climb : Climb tree focus (frame :: rest) down sorted)
    (even : frame.data.bf = 0) :
    ∃ after, retracePass ⟨tree, focus.pointer, some frame.address⟩ =
        .ok (.again ⟨after, some frame.address, Context.parent rest⟩) ∧
      Climb after ((retraced frame).fill focus) rest (frame.side :: down) sorted := by
  rcases retracePass_frame climb.represents climb.leans.notNil with
    ⟨heap, heapRep, _, again, _⟩
  have one : (retraced frame).data.bf = weight frame.side := by
    rw [retraced_bf, even]
    omega
  have bound := weight_eq frame.side
  rcases climb.above with ⟨height, heightEq, exact, _, siblingBalanced, restBalanced⟩
  have siblingHeight : frame.sibling.height = height := by
    rw [even] at exact
    rcases bound with value | value <;> rw [value] at exact <;> omega
  refine ⟨_, again (by omega), (representsAt_fill _ _ _).mpr heapRep, ?_, ⟨height + 1, ?_, ?_⟩,
    ?_, ?_, climb.keys_retraced⟩
  · rw [Frame.fill, balanced_oriented, one, heightEq, retraced_sibling, siblingHeight]
    refine ⟨?_, by omega, climb.balanced, siblingBalanced⟩
    rw [retraced_side]
    rcases bound with value | value <;> rw [value] <;> omega
  · simp [Frame.fill, heightEq, siblingHeight]
  · simpa [siblingHeight] using restBalanced
  · exact ⟨focus, frame.address, (retraced frame).data, frame.sibling, rfl, one, climb.leans⟩
  · have straight := climb.straight
    rwa [Straight, if_pos even] at straight

/-- The state after a rotation: the next pass leaves the loop. -/
def Settled (state : Retrace Key Value) (sorted : List Key) : Prop :=
  retracePass state = .ok (.leave (state.tree, true)) ∧ Finished state.tree sorted

theorem hangs (climb : Climb tree focus (frame :: rest) down sorted)
    (increasing : sorted.Pairwise (· < ·)) : Hangs frame.data.key rest := by
  have keysEq := climb.keysEq
  exact hangs_of_sorted (by rwa [Sorted, keysEq])

/-- The heavy side has grown and leans outwards: a single rotation. -/
theorem rotated_once {near middle : FactorTree Key Value} {sub : Nat}
    {subData : AVLData Key Value}
    (climb : Climb tree (.oriented frame.side near sub subData middle) (frame :: rest) down sorted)
    (increasing : sorted.Pairwise (· < ·)) (heavy : frame.data.bf = weight frame.side)
    (leans : subData.bf = weight frame.side) :
    ∃ after, retracePass ⟨tree, some sub, some frame.address⟩ =
        .ok (.again ⟨after, some sub, some frame.address⟩) ∧
      Settled ⟨after, some sub, some frame.address⟩ sorted := by
  rcases climb.around heavy with ⟨grown, siblingBalanced, restBalanced⟩
  rcases retracePass_single climb.represents heavy leans (climb.hangs increasing) with
    ⟨after, again, left, afterRep⟩
  have balanced := singleRotation_balanced frame.address frame.data climb.balanced leans grown
    siblingBalanced
  refine ⟨after, again, left, climb.finished_turned afterRep balanced restBalanced ?_⟩
  cases side : frame.side <;>
    simp [keys, AddrTree.oriented, AddrTree.entries, Frame.fill, side]

/-- The heavy side has grown and leans inwards, with its inner subtree not leaning
to the heavy side: a double rotation. -/
theorem rotated_twice {near innerNear innerFar : FactorTree Key Value} {sub inner : Nat}
    {subData innerData : AVLData Key Value}
    (climb : Climb tree (.oriented frame.side near sub subData
      (.oriented frame.side innerNear inner innerData innerFar)) (frame :: rest) down sorted)
    (increasing : sorted.Pairwise (· < ·)) (heavy : frame.data.bf = weight frame.side)
    (leans : subData.bf = weight frame.side.other)
    (innerLeans : innerData.bf ≠ weight frame.side) :
    ∃ after, retracePass ⟨tree, some sub, some frame.address⟩ =
        .ok (.again ⟨after, some sub, some frame.address⟩) ∧
      Settled ⟨after, some sub, some frame.address⟩ sorted := by
  rcases climb.around heavy with ⟨grown, siblingBalanced, restBalanced⟩
  have hangsSub : frame.data.key < subData.key ↔ frame.side = .right :=
    hangs_focus (by rwa [Sorted, climb.keysEq])
  rcases retracePass_double climb.represents heavy leans hangsSub (climb.hangs increasing) with
    ⟨after, again, subApart, afterRep⟩
  have lower := ((Linked.oriented_iff ..).mp afterRep.focus).2.2
  rw [AddrTree.mem_oriented, not_or, not_or] at subApart
  have zero : settledParent frame.side innerData.bf = 0 := if_neg innerLeans
  have balanced := doubleRotation_balanced frame.address frame.data climb.balanced leans grown
    siblingBalanced
  refine ⟨after, again, retracePass_settled lower zero subApart.2.1 subApart.2.2,
    climb.finished_turned afterRep balanced restBalanced ?_⟩
  cases side : frame.side <;>
    simp [keys, AddrTree.oriented, AddrTree.entries, Frame.fill, side]

/-- The heavy side has grown: a rotation ends the loop. -/
theorem rotated (climb : Climb tree focus (frame :: rest) down sorted)
    (increasing : sorted.Pairwise (· < ·)) (heavy : frame.data.bf = weight frame.side) :
    ∃ after, retracePass ⟨tree, focus.pointer, some frame.address⟩ =
        .ok (.again ⟨after, focus.pointer, some frame.address⟩) ∧
      Settled ⟨after, focus.pointer, some frame.address⟩ sorted := by
  have leans := climb.leans
  cases down with
  | nil =>
      -- a new leaf cannot be on the side that is already longer
      rcases leans with ⟨address, data, rfl, _⟩
      rcases climb.above with ⟨height, heightEq, exact, _⟩
      have heightZero : height = 0 := by simpa [AddrTree.height] using heightEq.symm
      rw [heavy, heightZero] at exact
      rcases weight_eq frame.side with value | value <;> rw [value] at exact <;> omega
  | cons side down =>
      rcases leans with ⟨near, sub, subData, far, rfl, exact, nearLeans⟩
      rw [AddrTree.pointer_oriented]
      by_cases outwards : side = frame.side
      · subst side
        exact climb.rotated_once increasing heavy exact
      · have sideEq := Side.eq_other_of_ne outwards
        subst side
        have notZero : frame.data.bf ≠ 0 := by
          rcases weight_eq frame.side with value | value <;> omega
        have straight := climb.straight
        rw [Straight, if_neg notZero] at straight
        have away : down.head? ≠ some frame.side := by
          intro equal
          apply straight heavy
          cases down with
          | nil => cases equal
          | cons first rest =>
              cases equal
              rfl
        rcases nearLeans.other_side away with
          ⟨innerNear, inner, innerData, innerFar, rfl, innerLeans⟩
        simp only [AddrTree.oriented_other] at climb
        exact climb.rotated_twice increasing heavy exact innerLeans

end Climb

variable [LinearOrder Key]

/-- The retracing loop ends with a balanced tree and returns true. -/
theorem retrace_finishes (climb : Climb tree focus context down sorted)
    (increasing : sorted.Pairwise (· < ·)) (fuel : Nat) (enough : context.length + 1 < fuel) :
    ∃ after, repeatLoop retracePass fuel ⟨tree, focus.pointer, Context.parent context⟩ =
      .ok (after, true) ∧ Finished after sorted := by
  have looped : ∃ result, repeatLoop retracePass fuel
      ⟨tree, focus.pointer, Context.parent context⟩ = .ok result ∧
      (result.2 = true ∧ Finished result.1 sorted) := by
    refine repeatLoop_total
      (fun bound state => (∃ tree focus context down,
          state = ⟨tree, focus.pointer, Context.parent context⟩ ∧
          Climb tree focus context down sorted ∧ context.length + 1 = bound) ∨
        Climb.Settled state sorted)
      _ ?_ fuel (context.length + 1) _ (Or.inl ⟨tree, focus, context, down, rfl, climb, rfl⟩)
      enough
    intro bound state holds
    rcases holds with ⟨tree, focus, context, down, rfl, climb, rfl⟩ | settled
    · cases context with
      | nil => exact Or.inr ⟨_, rfl, rfl, climb.finished_root⟩
      | cons frame rest =>
          rcases climb.above with ⟨height, _, _, bounds, _⟩
          have options : frame.data.bf = -weight frame.side ∨ frame.data.bf = 0 ∨
              frame.data.bf = weight frame.side := by
            rcases weight_eq frame.side with value | value <;> omega
          rcases options with light | even | heavy
          · rcases climb.absorbed light with ⟨after, leaves, finished⟩
            exact Or.inr ⟨_, leaves, rfl, finished⟩
          · rcases climb.climbed even with ⟨after, again, next⟩
            refine Or.inl ⟨_, rest.length + 1, again, by simp, Or.inl ⟨after, _, rest, _, ?_,
              next, rfl⟩⟩
            rw [Frame.fill, AddrTree.pointer_oriented, retraced_address]
          · rcases climb.rotated increasing heavy with ⟨after, again, settled⟩
            exact Or.inl ⟨_, 0, again, by simp, Or.inr settled⟩
    · exact Or.inr ⟨_, settled.1, rfl, settled.2⟩
  rcases looped with ⟨⟨after, flag⟩, returned, flagEq, finished⟩
  exact ⟨after, by rw [returned, ← flagEq], finished⟩

end Loop

end DataStructAlgorithm.DataStruct.AVLTree
