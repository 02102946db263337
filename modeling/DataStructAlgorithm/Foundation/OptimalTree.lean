import Mathlib.Algebra.BigOperators.Group.List.Basic
import Mathlib.Algebra.Order.Ring.Nat
import Mathlib.Data.List.Perm.Subperm
import Mathlib.Data.Tree.Basic

/-! # Binary trees of minimal weighted path length

A leaf is a node without children. A tree is compared with the greedy merging of its leaf
weights: of the depths of a tree only the list matters, the weights can be exchanged
between them, and two of the greatest depths can be replaced by a smaller one. -/

namespace DataStructAlgorithm.Foundation

variable {Label : Type}

/-- The leaves of a tree whose root is at a depth, with their depths. -/
def leavesAt (depth : Nat) : BinaryTree Label → List (Label × Nat)
  | .nil => []
  | .node label .nil .nil => [(label, depth)]
  | .node _ left right => leavesAt (depth + 1) left ++ leavesAt (depth + 1) right

def leaves (tree : BinaryTree Label) : List Label :=
  (leavesAt 0 tree).map Prod.fst

/-- The sum of the weights multiplied by the depths. -/
def totalCost (items : List (Nat × Nat)) : Nat :=
  (items.map fun item => item.1 * item.2).sum

/-- The sum of leaf weight times depth. -/
def weightedPathLength (weight : Label → Nat) (tree : BinaryTree Label) : Nat :=
  ((leavesAt 0 tree).map fun leaf => weight leaf.1 * leaf.2).sum

/-- Every node has zero or two children. -/
def Full : BinaryTree Label → Prop
  | .nil => True
  | .node _ left right => (left = .nil ↔ right = .nil) ∧ Full left ∧ Full right

/-- The label of the root. -/
def rootLabel : BinaryTree Label → Option Label
  | .nil => none
  | .node label _ _ => some label

/-- The weight of a node with two children is the sum of their weights. -/
def Sums (weight : Label → Nat) : BinaryTree Label → Prop
  | .nil => True
  | .node label left right =>
      (∀ first second, rootLabel left = some first → rootLabel right = some second →
        weight label = weight first + weight second) ∧ Sums weight left ∧ Sums weight right

/-- The label of a node with two children is made of their labels. -/
def Combines (add : Label → Label → Label) : BinaryTree Label → Prop
  | .nil => True
  | .node label left right =>
      (∀ first second, rootLabel left = some first → rootLabel right = some second →
        label = add first second) ∧ Combines add left ∧ Combines add right

theorem Combines.sums {add : Label → Label → Label} {weight : Label → Nat}
    (additive : ∀ first second, weight (add first second) = weight first + weight second)
    {tree : BinaryTree Label} (combines : Combines add tree) : Sums weight tree := by
  induction tree with
  | nil => trivial
  | node label left right leftInduction rightInduction =>
      rcases combines with ⟨isCombined, leftCombines, rightCombines⟩
      refine ⟨?_, leftInduction leftCombines, rightInduction rightCombines⟩
      intro first second isFirst isSecond
      rw [isCombined first second isFirst isSecond, additive]

/-! ## Leaves -/

theorem leavesAt_inner {label : Label} {left right : BinaryTree Label}
    (inner : ¬(left = .nil ∧ right = .nil)) (depth : Nat) :
    leavesAt depth (.node label left right) =
      leavesAt (depth + 1) left ++ leavesAt (depth + 1) right := by
  rw [leavesAt]
  exact fun leftNil rightNil => inner ⟨leftNil, rightNil⟩

/-- The depth of the root is added to all depths. -/
theorem leavesAt_eq_map (depth : Nat) (tree : BinaryTree Label) :
    leavesAt depth tree = (leavesAt 0 tree).map fun leaf => (leaf.1, leaf.2 + depth) := by
  induction tree generalizing depth with
  | nil => rfl
  | node label left right leftInduction rightInduction =>
      by_cases leaf : left = .nil ∧ right = .nil
      · rcases leaf with ⟨rfl, rfl⟩
        simp [leavesAt]
      · rw [leavesAt_inner leaf, leavesAt_inner leaf, leftInduction, rightInduction,
          leftInduction (0 + 1), rightInduction (0 + 1), List.map_append, List.map_map,
          List.map_map]
        simp only [Function.comp_def, Nat.zero_add, Nat.add_assoc, Nat.add_comm 1 depth]

/-! ## Depths -/

/-- The lists of the depths of the leaves of a full tree: a leaf is replaced by a node
with two leaves. -/
inductive Depths : List Nat → Prop
  | leaf : Depths [0]
  | split {depth : Nat} {others : List Nat} (known : Depths (depth :: others)) :
      Depths ((depth + 1) :: (depth + 1) :: others)
  | perm {depths others : List Nat} (known : Depths depths) (same : others.Perm depths) :
      Depths others

/-- A leaf can be replaced by a full tree. -/
theorem Depths.grow {tree : BinaryTree Label} (full : Full tree) (nonempty : tree ≠ .nil)
    {depth : Nat} {others : List Nat} (known : Depths (depth :: others)) :
    Depths ((leavesAt depth tree).map Prod.snd ++ others) := by
  induction tree generalizing depth others with
  | nil => exact absurd rfl nonempty
  | node label left right leftInduction rightInduction =>
      rcases full with ⟨both, leftFull, rightFull⟩
      by_cases leftNil : left = .nil
      · have rightNil := both.mp leftNil
        subst leftNil rightNil
        exact known
      · have rightNe : right ≠ .nil := fun rightNil => leftNil (both.mpr rightNil)
        rw [leavesAt_inner fun leaf => leftNil leaf.1, List.map_append, List.append_assoc]
        have rightGrown := rightInduction rightFull rightNe (known.split.perm (List.Perm.refl _))
        apply (leftInduction leftFull leftNil (rightGrown.perm List.perm_middle.symm)).perm
        exact List.Perm.refl _

/-- Two leaves of greatest depth can be replaced by one. -/
theorem Depths.deepest {depths : List Nat} (known : Depths depths) (several : 1 < depths.length) :
    ∃ depth others, depths.Perm ((depth + 1) :: (depth + 1) :: others) ∧
      (∀ other ∈ others, other ≤ depth + 1) ∧ Depths (depth :: others) := by
  induction known with
  | leaf => simp at several
  | perm known same induction =>
      rw [same.length_eq] at several
      rcases induction several with ⟨depth, others, parts, below, fewer⟩
      exact ⟨depth, others, same.trans parts, below, fewer⟩
  | @split depth others known induction =>
      rcases others with _ | ⟨next, rest⟩
      · exact ⟨depth, [], List.Perm.refl _, by simp, known⟩
      · rcases induction (by simp) with ⟨greatest, remaining, parts, below, fewer⟩
        have depthMem : depth ∈ (greatest + 1) :: (greatest + 1) :: remaining :=
          parts.mem_iff.mp List.mem_cons_self
        by_cases isGreatest : depth = greatest + 1
        · refine ⟨depth, next :: rest, List.Perm.refl _, fun other member => ?_, known⟩
          have otherMem := parts.mem_iff.mp (List.mem_cons_of_mem depth member)
          rw [List.mem_cons, List.mem_cons] at otherMem
          rcases otherMem with equal | equal | inRemaining
          · omega
          · omega
          · have low := below other inRemaining
            omega
        · have inRemaining : depth ∈ remaining := by
            rw [List.mem_cons, List.mem_cons] at depthMem
            exact (depthMem.resolve_left isGreatest).resolve_left isGreatest
          have low := below depth inRemaining
          have cut := List.perm_cons_erase inRemaining
          -- The two new leaves are not deeper than the pair that was deepest before.
          refine ⟨greatest, (depth + 1) :: (depth + 1) :: remaining.erase depth, ?_, ?_, ?_⟩
          · have moved : (next :: rest).Perm
                ((greatest + 1) :: (greatest + 1) :: remaining.erase depth) := by
              have whole : (depth :: next :: rest).Perm
                  (depth :: (greatest + 1) :: (greatest + 1) :: remaining.erase depth) :=
                parts.trans (((cut.cons _).cons _).trans
                  ((List.Perm.swap depth _ _).cons _ |>.trans (List.Perm.swap depth _ _)))
              exact whole.cons_inv
            have added := (moved.cons (depth + 1)).cons (depth + 1)
            apply added.trans
            exact List.perm_append_comm_assoc [depth + 1, depth + 1] [greatest + 1, greatest + 1] _
          · intro other member
            rw [List.mem_cons, List.mem_cons] at member
            rcases member with equal | equal | inErased
            · omega
            · omega
            · exact below other (List.mem_of_mem_erase inErased)
          · have moved : (depth :: greatest :: remaining.erase depth).Perm
                (greatest :: remaining) :=
              (List.Perm.swap greatest depth _).trans (cut.symm.cons greatest)
            apply (fewer.perm moved).split.perm
            exact (List.perm_append_comm_assoc [greatest] [depth + 1, depth + 1] _)

/-! ## Exchanging weights -/

theorem totalCost_cons (item : Nat × Nat) (items : List (Nat × Nat)) :
    totalCost (item :: items) = item.1 * item.2 + totalCost items := by
  rw [totalCost, List.map_cons, List.sum_cons]
  rfl

theorem totalCost_perm {items others : List (Nat × Nat)} (same : items.Perm others) :
    totalCost items = totalCost others :=
  (same.map _).sum_eq

/-- The smallest weight can be moved to the greatest depth. -/
theorem exchange {items : List (Nat × Nat)} {weight depth : Nat}
    (hasWeight : weight ∈ items.map Prod.fst) (least : ∀ item ∈ items, weight ≤ item.1)
    (hasDepth : depth ∈ items.map Prod.snd) (deepest : ∀ item ∈ items, item.2 ≤ depth) :
    ∃ others, (items.map Prod.fst).Perm (weight :: others.map Prod.fst) ∧
      (items.map Prod.snd).Perm (depth :: others.map Prod.snd) ∧
      weight * depth + totalCost others ≤ totalCost items := by
  rcases List.mem_map.mp hasWeight with ⟨⟨_, shallow⟩, lightMem, rfl⟩
  rcases List.mem_map.mp hasDepth with ⟨⟨heavy, _⟩, deepMem, rfl⟩
  dsimp only at *
  have lightFirst := List.perm_cons_erase lightMem
  rcases List.mem_cons.mp (lightFirst.mem_iff.mp deepMem) with same | deepLeft
  · rw [Prod.mk.injEq] at same
    rcases same with ⟨rfl, rfl⟩
    refine ⟨items.erase (heavy, _), lightFirst.map Prod.fst, lightFirst.map Prod.snd, ?_⟩
    rw [totalCost_perm lightFirst, totalCost_cons]
  · have bothFirst := lightFirst.trans ((List.perm_cons_erase deepLeft).cons _)
    refine ⟨(heavy, shallow) :: (items.erase _).erase _, bothFirst.map Prod.fst,
      (bothFirst.map Prod.snd).trans (List.Perm.swap _ _ _), ?_⟩
    rw [totalCost_perm bothFirst, totalCost_cons, totalCost_cons, totalCost_cons]
    have rearranged := mul_add_mul_le_mul_add_mul (least _ deepMem) (deepest _ lightMem)
    dsimp only at rearranged ⊢
    omega

/-! ## Greedy merging -/

/-- Two smallest weights are replaced by their sum until one weight is left. The cost is
the sum of the sums. -/
inductive Greedy : List Nat → Nat → Prop
  | single (weight : Nat) : Greedy [weight] 0
  | merge {first second cost : Nat} {others : List Nat}
      (firstLeast : first ≤ second) (secondLeast : ∀ other ∈ others, second ≤ other)
      (merged : Greedy ((first + second) :: others) cost) :
      Greedy (first :: second :: others) (cost + (first + second))
  | perm {weights others : List Nat} {cost : Nat} (known : Greedy weights cost)
      (same : others.Perm weights) : Greedy others cost

/-- Greedy merging does not cost more than any assignment of the weights to the depths
of a full tree. -/
theorem Greedy.le_totalCost {weights : List Nat} {cost : Nat} (greedy : Greedy weights cost)
    {items : List (Nat × Nat)} (sameWeights : (items.map Prod.fst).Perm weights)
    (depths : Depths (items.map Prod.snd)) : cost ≤ totalCost items := by
  induction greedy generalizing items with
  | single weight => exact Nat.zero_le _
  | perm known same induction => exact induction (sameWeights.trans same) depths
  | @merge first second cost others firstLeast secondLeast merged induction =>
      have length := sameWeights.length_eq
      rw [List.length_map, List.length_cons, List.length_cons] at length
      have several : 1 < (items.map Prod.snd).length := by
        rw [List.length_map]
        omega
      rcases depths.deepest several with ⟨depth, shallow, parts, below, fewer⟩
      have deepest : ∀ item ∈ items, item.2 ≤ depth + 1 := by
        intro item member
        have depthMem := parts.mem_iff.mp (List.mem_map_of_mem member)
        rw [List.mem_cons, List.mem_cons] at depthMem
        rcases depthMem with equal | equal | inShallow
        · exact Nat.le_of_eq equal
        · exact Nat.le_of_eq equal
        · exact below _ inShallow
      have least : ∀ item ∈ items, first ≤ item.1 := by
        intro item member
        have weightMem := sameWeights.mem_iff.mp (List.mem_map_of_mem member)
        rw [List.mem_cons, List.mem_cons] at weightMem
        rcases weightMem with equal | equal | inOthers
        · exact Nat.le_of_eq equal.symm
        · rw [equal]
          exact firstLeast
        · exact Nat.le_trans firstLeast (secondLeast _ inOthers)
      rcases exchange (sameWeights.mem_iff.mpr List.mem_cons_self) least
        (parts.mem_iff.mpr List.mem_cons_self) deepest with
        ⟨oneLess, oneWeights, oneDepths, oneCost⟩
      have restWeights := (oneWeights.symm.trans sameWeights).cons_inv
      have restDepths := (oneDepths.symm.trans parts).cons_inv
      have leastOfRest : ∀ item ∈ oneLess, second ≤ item.1 := by
        intro item member
        rcases List.mem_cons.mp (restWeights.mem_iff.mp (List.mem_map_of_mem member)) with
          equal | inOthers
        · exact Nat.le_of_eq equal.symm
        · exact secondLeast _ inOthers
      have deepestOfRest : ∀ item ∈ oneLess, item.2 ≤ depth + 1 := by
        intro item member
        rcases List.mem_cons.mp (restDepths.mem_iff.mp (List.mem_map_of_mem member)) with
          equal | inShallow
        · exact Nat.le_of_eq equal
        · exact below _ inShallow
      rcases exchange (restWeights.mem_iff.mpr List.mem_cons_self) leastOfRest
        (restDepths.mem_iff.mpr List.mem_cons_self) deepestOfRest with
        ⟨twoLess, twoWeights, twoDepths, twoCost⟩
      have lastWeights := (twoWeights.symm.trans restWeights).cons_inv
      have lastDepths := (twoDepths.symm.trans restDepths).cons_inv
      have joined := @induction ((first + second, depth) :: twoLess) (lastWeights.cons _)
        (fewer.perm (lastDepths.cons _))
      rw [totalCost_cons] at joined
      dsimp only at joined
      have pair : first * (depth + 1) + second * (depth + 1) =
          (first + second) * depth + (first + second) := by
        rw [Nat.mul_succ, Nat.mul_succ, Nat.add_mul]
        omega
      omega

/-! ## Trees whose nodes can have one child -/

/-- Nodes with one child can be left out, and no leaf gets deeper. -/
theorem exists_full {tree : BinaryTree Label} (nonempty : tree ≠ .nil) :
    ∃ other : BinaryTree Label, other ≠ .nil ∧ Full other ∧ ∀ low high, low ≤ high →
      List.Forall₂ (fun short long => short.1 = long.1 ∧ short.2 ≤ long.2)
        (leavesAt low other) (leavesAt high tree) := by
  induction tree with
  | nil => exact absurd rfl nonempty
  | node label left right leftInduction rightInduction =>
      by_cases leftNil : left = .nil
      · subst leftNil
        by_cases rightNil : right = .nil
        · subst rightNil
          refine ⟨.node label .nil .nil, nonempty, ⟨Iff.rfl, trivial, trivial⟩, ?_⟩
          intro low high le
          exact List.Forall₂.cons ⟨rfl, le⟩ List.Forall₂.nil
        · rcases rightInduction rightNil with ⟨other, otherNe, full, shorter⟩
          refine ⟨other, otherNe, full, fun low high le => ?_⟩
          rw [leavesAt_inner fun leaf => rightNil leaf.2]
          exact shorter low (high + 1) (Nat.le_succ_of_le le)
      · rcases leftInduction leftNil with ⟨leftOther, leftNe, leftFull, leftShorter⟩
        by_cases rightNil : right = .nil
        · subst rightNil
          refine ⟨leftOther, leftNe, leftFull, fun low high le => ?_⟩
          rw [leavesAt_inner fun leaf => leftNil leaf.1]
          rw [show leavesAt (high + 1) (.nil : BinaryTree Label) = [] from rfl, List.append_nil]
          exact leftShorter low (high + 1) (Nat.le_succ_of_le le)
        · rcases rightInduction rightNil with ⟨rightOther, rightNe, rightFull, rightShorter⟩
          refine ⟨.node label leftOther rightOther, nofun,
            ⟨iff_of_false leftNe rightNe, leftFull, rightFull⟩, fun low high le => ?_⟩
          rw [leavesAt_inner fun leaf => leftNe leaf.1, leavesAt_inner fun leaf => leftNil leaf.1]
          exact List.rel_append (leftShorter _ _ (Nat.succ_le_succ le))
            (rightShorter _ _ (Nat.succ_le_succ le))

/-- Greedy merging does not cost more than any binary tree whose leaves have the weights. -/
theorem Greedy.le_weightedPathLength {weights : List Nat} {cost : Nat} (greedy : Greedy weights cost)
    (weight : Label → Nat) {tree : BinaryTree Label} (nonempty : tree ≠ .nil)
    (same : ((leaves tree).map weight).Perm weights) : cost ≤ weightedPathLength weight tree := by
  rcases exists_full nonempty with ⟨other, otherNe, full, shorter⟩
  have related := shorter 0 0 (Nat.le_refl 0)
  have names : (leavesAt 0 other).map Prod.fst = (leavesAt 0 tree).map Prod.fst := by
    generalize leavesAt 0 other = short at related
    generalize leavesAt 0 tree = long at related
    induction related with
    | nil => rfl
    | cons pair _ induction => rw [List.map_cons, List.map_cons, pair.1, induction]
  have cheaper : weightedPathLength weight other ≤ weightedPathLength weight tree := by
    rw [weightedPathLength, weightedPathLength]
    generalize leavesAt 0 other = short at related
    generalize leavesAt 0 tree = long at related
    clear names
    induction related with
    | nil => exact Nat.le_refl _
    | cons pair _ induction =>
        rw [List.map_cons, List.map_cons, List.sum_cons, List.sum_cons, pair.1]
        exact Nat.add_le_add (Nat.mul_le_mul_left _ pair.2) induction
  have grown := Depths.leaf.grow full otherNe
  rw [List.append_nil] at grown
  have bounded := @Greedy.le_totalCost _ _ greedy
    ((leavesAt 0 other).map fun leaf => (weight leaf.1, leaf.2))
    (by
      rw [List.map_map]
      rw [leaves, ← names, List.map_map] at same
      exact same)
    (by
      rw [List.map_map]
      exact grown)
  rw [totalCost, List.map_map] at bounded
  exact Nat.le_trans bounded cheaper

/-! ## Joining two trees -/

theorem leaves_join (label : Label) {left right : BinaryTree Label} (nonempty : left ≠ .nil) :
    leaves (.node label left right) = leaves left ++ leaves right := by
  rw [leaves, leavesAt_inner fun leaf => nonempty leaf.1, List.map_append, leavesAt_eq_map (0 + 1),
    leavesAt_eq_map (0 + 1) right, List.map_map, List.map_map]
  rfl

/-- The leaves of a tree have the weight of its root. -/
theorem sum_leaves {weight : Label → Nat} {tree : BinaryTree Label} (full : Full tree)
    (sums : Sums weight tree) {label : Label} (isRoot : rootLabel tree = some label) :
    ((leaves tree).map weight).sum = weight label := by
  induction tree generalizing label with
  | nil => cases isRoot
  | node own left right leftInduction rightInduction =>
      cases isRoot
      rcases full with ⟨both, leftFull, rightFull⟩
      rcases sums with ⟨isSum, leftSums, rightSums⟩
      cases left with
      | nil =>
          rw [both.mp rfl]
          simp [leaves, leavesAt]
      | node leftLabel leftLeft leftRight =>
          cases right with
          | nil => exact absurd (both.mpr rfl) nofun
          | node rightLabel rightLeft rightRight =>
              have inner : BinaryTree.node leftLabel leftLeft leftRight ≠ .nil := nofun
              rw [leaves_join own inner, List.map_append, List.sum_append,
                leftInduction leftFull leftSums rfl, rightInduction rightFull rightSums rfl]
              exact (isSum leftLabel rightLabel rfl rfl).symm

/-- Joining two trees adds the weights of their leaves to the path lengths. -/
theorem weightedPathLength_join (weight : Label → Nat) (label : Label)
    {left right : BinaryTree Label} (nonempty : left ≠ .nil) :
    weightedPathLength weight (.node label left right) =
      weightedPathLength weight left + weightedPathLength weight right +
        (((leaves left).map weight).sum + ((leaves right).map weight).sum) := by
  have deeper : ∀ items : List (Label × Nat),
      ((items.map fun leaf => (leaf.1, leaf.2 + (0 + 1))).map
        fun leaf => weight leaf.1 * leaf.2).sum =
      (items.map fun leaf => weight leaf.1 * leaf.2).sum +
        ((items.map Prod.fst).map weight).sum := by
    intro items
    induction items with
    | nil => rfl
    | cons item items induction =>
        simp only [List.map_cons, List.sum_cons] at induction ⊢
        rw [induction, Nat.zero_add, Nat.mul_succ]
        omega
  rw [weightedPathLength, leavesAt_inner fun leaf => nonempty leaf.1, List.map_append,
    List.sum_append, leavesAt_eq_map (0 + 1), leavesAt_eq_map (0 + 1) right, deeper, deeper]
  simp only [weightedPathLength, leaves]
  omega

end DataStructAlgorithm.Foundation
