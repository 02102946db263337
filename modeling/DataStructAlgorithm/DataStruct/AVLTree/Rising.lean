import DataStructAlgorithm.DataStruct.AVLTree.Retrace

/-! # Retracing with any factors

The factors that insertions produce need not be exact, but they stay in {-1, 0, 1}
and every rotation finds the nodes it needs: when the loop meets a heavy parent, it
comes from a child that leans to a subtree it has just come up through. Only a new
leaf does not lean, and below a parent that already leans to it the loop gives up. -/

namespace DataStructAlgorithm.DataStruct.AVLTree

open Foundation

variable {Key Value : Type}

/-- The pairs of the tree in order. -/
abbrev pairs (tree : FactorTree Key Value) : List (Key × Value) :=
  keys AVLData.pair tree

theorem keys_eq_map_pairs (tree : FactorTree Key Value) :
    keys AVLData.key tree = (pairs tree).map Prod.fst := by
  simp [keys, AVLData.pair]

/-- Every stored factor is -1, 0 or 1. -/
def Bounded : FactorTree Key Value → Prop
  | .nil => True
  | .node left _ data right => data.bf.natAbs ≤ 1 ∧ Bounded left ∧ Bounded right

def ContextBounded : Context (AVLData Key Value) → Prop
  | [] => True
  | frame :: rest => frame.data.bf.natAbs ≤ 1 ∧ Bounded frame.sibling ∧ ContextBounded rest

theorem bounded_oriented (side : Side) (near : FactorTree Key Value) (address : Nat)
    (data : AVLData Key Value) (far : FactorTree Key Value) :
    Bounded (.oriented side near address data far) ↔
      data.bf.natAbs ≤ 1 ∧ Bounded near ∧ Bounded far := by
  cases side with
  | left => exact Iff.rfl
  | right => exact and_congr_right fun _ => And.comm

theorem bounded_plug (tree : FactorTree Key Value) (context : Context (AVLData Key Value)) :
    Bounded (Context.plug tree context) ↔ Bounded tree ∧ ContextBounded context := by
  induction context generalizing tree with
  | nil => simp [ContextBounded]
  | cons frame rest induction =>
      rw [Context.plug_cons, induction, Frame.fill, bounded_oriented, ContextBounded]
      constructor
      · intro parts
        rcases parts with ⟨⟨own, focus, sibling⟩, above⟩
        exact ⟨focus, own, sibling, above⟩
      · intro parts
        rcases parts with ⟨focus, own, sibling, above⟩
        exact ⟨⟨own, focus, sibling⟩, above⟩

theorem natAbs_weight (side : Side) : (weight side).natAbs = 1 := by
  cases side <;> rfl

theorem settledParent_le (heavy : Side) (bf : Int) : (settledParent heavy bf).natAbs ≤ 1 := by
  unfold settledParent
  split
  · exact Nat.le_of_eq (natAbs_weight _)
  · exact Nat.zero_le 1

theorem settledSub_le (heavy : Side) (bf : Int) : (settledSub heavy bf).natAbs ≤ 1 := by
  unfold settledSub
  split
  · exact Nat.le_of_eq (natAbs_weight _)
  · exact Nat.zero_le 1

theorem exists_oriented_of_ne_nil (side : Side) {tree : FactorTree Key Value}
    (notNil : tree ≠ .nil) :
    ∃ near address data far, tree = .oriented side near address data far := by
  cases tree with
  | nil => exact absurd rfl notNil
  | node left address data right =>
      rcases AddrTree.exists_oriented side left address data right with ⟨near, far, equal⟩
      exact ⟨near, address, data, far, equal⟩

/-- The tree leans to a side on which it has a subtree. -/
def Leaning (tree : FactorTree Key Value) : Prop :=
  ∃ side near address data far, tree = .oriented side near address data far ∧
    data.bf = weight side ∧ near ≠ .nil

/-- The loop has come up to the root of `focus`, the pairs being as they should. -/
structure Rising (tree : AVLTree Key Value) (focus : FactorTree Key Value)
    (context : Context (AVLData Key Value)) (listed : List (Key × Value)) : Prop where
  represents : RepresentsAt tree.heap tree.root focus context
  pairsEq : pairs (Context.plug focus context) = listed
  notNil : focus ≠ .nil
  bounded : Bounded focus
  above : ContextBounded context

/-- The tree has the pairs it should have, and factors in {-1, 0, 1}. -/
def Kept (tree : AVLTree Key Value) (listed : List (Key × Value)) : Prop :=
  ∃ whole, Represents tree.heap tree.root whole ∧ Bounded whole ∧ pairs whole = listed

section Loop

variable {tree : AVLTree Key Value} {focus : FactorTree Key Value}
  {frame : Frame (AVLData Key Value)} {context rest : Context (AVLData Key Value)}
  {listed : List (Key × Value)}

theorem pairs_retraced (focus : FactorTree Key Value) (frame : Frame (AVLData Key Value))
    (rest : Context (AVLData Key Value)) :
    pairs (Context.plug ((retraced frame).fill focus) rest) =
      pairs (Context.plug focus (frame :: rest)) := by
  rw [Context.plug_cons]
  apply keys_plug_congr
  simp only [keys, Frame.entries_fill, Frame.before, Frame.after, retraced]
  cases frame.side <;> simp [AVLData.pair, AVLData.setBf]

namespace Rising

theorem kept (rising : Rising tree focus context listed) : Kept tree listed :=
  ⟨_, (represents_plug _ _).mpr rising.represents,
    (bounded_plug _ _).mpr ⟨rising.bounded, rising.above⟩, rising.pairsEq⟩

variable [LinearOrder Key]

theorem sorted (rising : Rising tree focus context listed)
    (increasing : (listed.map Prod.fst).Pairwise (· < ·)) :
    Sorted AVLData.key (Context.plug focus context) := by
  rw [Sorted, keys_eq_map_pairs, rising.pairsEq]
  exact increasing

/-- The parent leaned to the other side: its factor becomes zero. -/
theorem absorbed (rising : Rising tree focus (frame :: rest) listed)
    (light : frame.data.bf = -weight frame.side) :
    ∃ after, retracePass ⟨tree, focus.pointer, some frame.address⟩ =
      .ok (.leave (after, true)) ∧ Kept after listed := by
  rcases retracePass_frame rising.represents rising.notNil with ⟨heap, heapRep, left, _⟩
  have zero : (retraced frame).data.bf = 0 := by
    rw [retraced_bf, light]
    omega
  rcases rising.above with ⟨_, siblingBounded, restBounded⟩
  refine ⟨_, left zero, Context.plug ((retraced frame).fill focus) rest,
    (represents_plug _ _).mpr ((representsAt_fill _ _ _).mpr heapRep), ?_, ?_⟩
  · refine (bounded_plug _ _).mpr ⟨(bounded_oriented ..).mpr ⟨?_, rising.bounded,
      siblingBounded⟩, restBounded⟩
    rw [zero]
    exact Nat.zero_le 1
  · rw [pairs_retraced, rising.pairsEq]

/-- The parent was level: the loop climbs, and the parent leans to the focus. -/
theorem climbed (rising : Rising tree focus (frame :: rest) listed)
    (even : frame.data.bf = 0) :
    ∃ after, retracePass ⟨tree, focus.pointer, some frame.address⟩ =
        .ok (.again ⟨after, some frame.address, Context.parent rest⟩) ∧
      Rising after ((retraced frame).fill focus) rest listed ∧
      Leaning ((retraced frame).fill focus) := by
  rcases retracePass_frame rising.represents rising.notNil with ⟨heap, heapRep, _, again, _⟩
  have one : (retraced frame).data.bf = weight frame.side := by
    rw [retraced_bf, even]
    omega
  have unit := natAbs_weight frame.side
  rcases rising.above with ⟨_, siblingBounded, restBounded⟩
  refine ⟨_, again (by omega), ⟨(representsAt_fill _ _ _).mpr heapRep, ?_, ?_, ?_,
    restBounded⟩, frame.side, focus, frame.address, _, frame.sibling, rfl, one, rising.notNil⟩
  · rw [pairs_retraced, rising.pairsEq]
  · intro equal
    have pointerEq := Frame.pointer_fill (retraced frame) focus
    rw [equal] at pointerEq
    cases pointerEq
  · exact (bounded_oriented ..).mpr ⟨by omega, rising.bounded, siblingBounded⟩

/-- A child leaning outwards: after a single rotation the next pass ends the loop. -/
theorem rotated_once {near middle : FactorTree Key Value} {sub : Nat}
    {subData : AVLData Key Value}
    (rising : Rising tree (.oriented frame.side near sub subData middle) (frame :: rest) listed)
    (increasing : (listed.map Prod.fst).Pairwise (· < ·))
    (heavy : frame.data.bf = weight frame.side) (leans : subData.bf = weight frame.side) :
    ∃ after, retracePass ⟨tree, some sub, some frame.address⟩ =
        .ok (.again ⟨after, some sub, some frame.address⟩) ∧
      retracePass ⟨after, some sub, some frame.address⟩ = .ok (.leave (after, true)) ∧
      Kept after listed := by
  have hangs := hangs_of_sorted (rising.sorted increasing)
  rcases retracePass_single rising.represents heavy leans hangs with
    ⟨after, again, left, afterRep⟩
  rcases rising.above with ⟨_, siblingBounded, restBounded⟩
  rcases (bounded_oriented ..).mp rising.bounded with ⟨_, nearBounded, middleBounded⟩
  refine ⟨after, again, left, _, (represents_plug _ _).mpr afterRep, ?_, ?_⟩
  · refine (bounded_plug _ _).mpr ⟨(bounded_oriented ..).mpr ⟨Nat.zero_le 1, nearBounded,
      (bounded_oriented ..).mpr ⟨Nat.zero_le 1, middleBounded, siblingBounded⟩⟩, restBounded⟩
  · rw [← rising.pairsEq, Context.plug_cons]
    apply keys_plug_congr
    cases side : frame.side <;>
      simp [keys, AddrTree.oriented, AddrTree.entries, Frame.fill, side, AVLData.pair,
        AVLData.setBf]

/-- A child leaning inwards: a double rotation, which may leave a factor at the
parent. -/
theorem rotated_twice {near innerNear innerFar : FactorTree Key Value} {sub inner : Nat}
    {subData innerData : AVLData Key Value}
    (rising : Rising tree (.oriented frame.side near sub subData
      (.oriented frame.side innerNear inner innerData innerFar)) (frame :: rest) listed)
    (increasing : (listed.map Prod.fst).Pairwise (· < ·))
    (heavy : frame.data.bf = weight frame.side) (leans : subData.bf = weight frame.side.other) :
    ∃ after lifted lowered, retracePass ⟨tree, some sub, some frame.address⟩ =
        .ok (.again ⟨after, some sub, some frame.address⟩) ∧
      lowered = .oriented frame.side innerFar frame.address
        (frame.data.setBf (settledParent frame.side innerData.bf)) frame.sibling ∧
      lifted.data.bf = 0 ∧ sub ∉ lowered.addresses ∧
      Rising after lowered (lifted :: rest) listed := by
  have sorted := rising.sorted increasing
  have hangs : Hangs frame.data.key rest := hangs_of_sorted sorted
  have hangsSub : frame.data.key < subData.key ↔ frame.side = .right := hangs_focus sorted
  rcases retracePass_double rising.represents heavy leans hangsSub hangs with
    ⟨after, again, subApart, afterRep⟩
  rcases rising.above with ⟨_, siblingBounded, restBounded⟩
  rcases (bounded_oriented ..).mp rising.bounded with ⟨_, nearBounded, innerBounded⟩
  rcases (bounded_oriented ..).mp innerBounded with ⟨_, innerNearBounded, innerFarBounded⟩
  refine ⟨after, ⟨frame.side.other, inner, innerData.setBf 0, .oriented frame.side near sub
    (subData.setBf (settledSub frame.side innerData.bf)) innerNear⟩, _, again, rfl, rfl,
    subApart, ?_, ?_, ?_, ?_, ?_⟩
  · refine (representsAt_fill _ _ _).mp ?_
    rw [Frame.fill, AddrTree.oriented_other]
    exact afterRep
  · rw [← rising.pairsEq, Context.plug_cons, Context.plug_cons]
    apply keys_plug_congr
    cases side : frame.side <;>
      simp [keys, AddrTree.oriented, AddrTree.entries, Frame.fill, side, AVLData.pair,
        AVLData.setBf, Side.other]
  · exact AddrTree.oriented_ne_nil _ _ _ _ _
  · exact (bounded_oriented ..).mpr ⟨settledParent_le _ _, innerFarBounded, siblingBounded⟩
  · exact ⟨Nat.zero_le 1, (bounded_oriented ..).mpr ⟨settledSub_le _ _, nearBounded,
      innerNearBounded⟩, restBounded⟩

end Rising

variable [LinearOrder Key]

/-- The pass after a double rotation that has left a factor at `parent`: `cur` is no
child of it any more, and the loop climbs without counting anything. -/
theorem retracePass_stranded {heap : Store (Node Key Value)} {root up : Ptr} {side : Side}
    {near far : FactorTree Key Value} {cur parent : Nat} {data : AVLData Key Value}
    (linked : Linked heap up (.oriented side near parent data far)) (one : data.bf.natAbs = 1)
    (away : cur ∉ (AddrTree.oriented side near parent data far).addresses) :
    retracePass ⟨⟨heap, root⟩, some cur, some parent⟩ =
      .ok (.again ⟨⟨heap, root⟩, some parent, up⟩) := by
  have found := ((Linked.oriented_iff ..).mp linked).1
  rw [AddrTree.mem_oriented, not_or, not_or] at away
  have nearDifferent : near.pointer ≠ some cur := fun equal =>
    away.2.1 (AddrTree.mem_addresses_of_pointer equal)
  have farDifferent : far.pointer ≠ some cur := fun equal =>
    away.2.2 (AddrTree.mem_addresses_of_pointer equal)
  have nonzero : data.bf ≠ 0 := by omega
  cases side <;>
    simp [retracePass, updateFactor, Store.load_some found, TreeNode.oriented, nearDifferent,
      farDifferent, one, nonzero]

/-- From a leaning focus the loop ends and returns true. -/
theorem Rising.ends (rising : Rising tree focus context listed) (leaning : Leaning focus)
    (increasing : (listed.map Prod.fst).Pairwise (· < ·)) (fuel : Nat)
    (enough : 3 * context.length < fuel) :
    ∃ after, repeatLoop retracePass fuel ⟨tree, focus.pointer, Context.parent context⟩ =
      .ok (after, true) ∧ Kept after listed := by
  induction context generalizing tree focus fuel with
  | nil =>
      rcases Nat.exists_eq_succ_of_ne_zero (show fuel ≠ 0 by omega) with ⟨more, rfl⟩
      exact ⟨tree, repeatLoop_leave more rfl, rising.kept⟩
  | cons frame rest induction =>
      simp only [List.length_cons] at enough
      have spare : ∃ more, fuel = more + 3 ∧ 3 * rest.length < more := ⟨fuel - 3, by omega, by omega⟩
      rcases spare with ⟨more, rfl, lessFuel⟩
      have options : frame.data.bf = -weight frame.side ∨ frame.data.bf = 0 ∨
          frame.data.bf = weight frame.side := by
        have bound := rising.above.1
        rcases weight_eq frame.side with value | value <;> omega
      rw [Context.parent_cons]
      rcases options with light | even | heavy
      · rcases rising.absorbed light with ⟨after, leaves, kept⟩
        exact ⟨after, repeatLoop_leave _ leaves, kept⟩
      · rcases rising.climbed even with ⟨after, again, next, nextLeaning⟩
        rw [repeatLoop_again _ again]
        have pointerEq := Frame.pointer_fill (retraced frame) focus
        rw [retraced_address] at pointerEq
        rw [← pointerEq]
        exact induction next nextLeaning (more + 2) (by omega)
      · rcases leaning with ⟨side, near, sub, subData, far, rfl, exact, nearNode⟩
        rw [AddrTree.pointer_oriented]
        by_cases outwards : side = frame.side
        · subst side
          rcases rising.rotated_once increasing heavy exact with ⟨after, again, leaves, kept⟩
          exact ⟨after, by rw [repeatLoop_again _ again, repeatLoop_leave _ leaves], kept⟩
        · have sideEq := Side.eq_other_of_ne outwards
          subst side
          rcases exists_oriented_of_ne_nil frame.side nearNode with
            ⟨innerNear, inner, innerData, innerFar, rfl⟩
          simp only [AddrTree.oriented_other] at rising
          rcases rising.rotated_twice increasing heavy exact with
            ⟨after, lifted, lowered, again, loweredEq, liftedLevel, away, turned⟩
          have linked := turned.represents.focus
          rw [repeatLoop_again _ again]
          by_cases zero : settledParent frame.side innerData.bf = 0
          · subst lowered
            rw [AddrTree.mem_oriented, not_or, not_or] at away
            exact ⟨after, repeatLoop_leave _ (retracePass_settled linked zero away.2.1 away.2.2),
              turned.kept⟩
          · have one : (settledParent frame.side innerData.bf).natAbs = 1 := by
              have bound := settledParent_le frame.side innerData.bf
              omega
            have stranded : retracePass ⟨after, some sub, some frame.address⟩ =
                .ok (.again ⟨after, lowered.pointer, some lifted.address⟩) := by
              subst lowered
              rw [AddrTree.pointer_oriented]
              exact retracePass_stranded linked one away
            rcases turned.climbed liftedLevel with ⟨final, climbs, next, nextLeaning⟩
            rw [repeatLoop_again _ stranded, repeatLoop_again _ climbs]
            have pointerEq := Frame.pointer_fill (retraced lifted) lowered
            rw [retraced_address] at pointerEq
            rw [← pointerEq]
            exact induction next nextLeaning more lessFuel

end Loop

end DataStructAlgorithm.DataStruct.AVLTree
