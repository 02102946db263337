import Mathlib.Combinatorics.SimpleGraph.Paths
import Mathlib.Order.Bounds.Basic
import DataStructAlgorithm.Foundation.LinkedTree

/-! # Longest paths in a tree

A tree is a graph whose nodes are joined to their children. A path turns at one node at most: it
comes up on one side of the node and goes down on the other. -/

namespace DataStructAlgorithm.Foundation

variable {Data : Type u}

namespace AddrTree

/-- The first node is the parent of the second one. -/
def Edge : AddrTree Data → (parent child : Nat) → Prop
  | .nil, _, _ => False
  | .node left address _ right, parent, child =>
      (parent = address ∧ (left.pointer = some child ∨ right.pointer = some child)) ∨
        Edge left parent child ∨ Edge right parent child

def graph (tree : AddrTree Data) : SimpleGraph Nat :=
  SimpleGraph.fromRel tree.Edge

/-- How many edges a path between two nodes can have. -/
def pathLengths (tree : AddrTree Data) : Set Nat :=
  {edges | ∃ first last, first ∈ tree.addresses ∧ last ∈ tree.addresses ∧
    ∃ path : tree.graph.Walk first last, path.IsPath ∧ path.length = edges}

/-- Every node is the turning point of some path. -/
def longest : AddrTree Data → Nat
  | .nil => 0
  | .node left _ _ right => max (left.height + right.height) (max left.longest right.longest)

/-- A way down to the deepest level. -/
def deepest : AddrTree Data → List Nat
  | .nil => []
  | .node left address _ right =>
      address :: if right.height ≤ left.height then deepest left else deepest right

end AddrTree

/-- The nodes on a path, in order. -/
structure PathIn (tree : AddrTree Data) (path : List Nat) : Prop where
  nodup : path.Nodup
  chain : path.IsChain tree.graph.Adj
  inside : ∀ address ∈ path, address ∈ tree.addresses

/-- A path from the root. -/
structure PathDown (tree : AddrTree Data) (path : List Nat) : Prop extends PathIn tree path where
  starts : ∃ root rest, path = root :: rest ∧ tree.pointer = some root

/-! ## Edges -/

section Edges

variable {tree left right : AddrTree Data} {address parent child first second : Nat} {data : Data}

theorem AddrTree.Edge.mem (edge : tree.Edge parent child) :
    parent ∈ tree.addresses ∧ child ∈ tree.addresses := by
  induction tree with
  | nil => exact edge.elim
  | node left address data right leftInduction rightInduction =>
      rw [mem_node, mem_node]
      rcases edge with ⟨rfl, onLeft | onRight⟩ | onLeft | onRight
      · exact ⟨Or.inr (Or.inl rfl), Or.inl (mem_addresses_of_pointer onLeft)⟩
      · exact ⟨Or.inr (Or.inl rfl), Or.inr (Or.inr (mem_addresses_of_pointer onRight))⟩
      · exact ⟨Or.inl (leftInduction onLeft).1, Or.inl (leftInduction onLeft).2⟩
      · exact ⟨Or.inr (Or.inr (rightInduction onRight).1),
          Or.inr (Or.inr (rightInduction onRight).2)⟩

theorem mem_of_adj (adjacent : tree.graph.Adj first second) :
    first ∈ tree.addresses ∧ second ∈ tree.addresses := by
  rcases ((SimpleGraph.fromRel_adj ..).mp adjacent).2 with edge | edge
  · exact edge.mem
  · exact edge.mem.symm

/-- Which child is the left one makes no difference. -/
theorem graph_swap :
    (AddrTree.node left address data right).graph =
      (AddrTree.node right address data left).graph := by
  have same : ∀ parent child, (AddrTree.node left address data right).Edge parent child ↔
      (AddrTree.node right address data left).Edge parent child := by
    intro parent child
    simp only [AddrTree.Edge]
    rw [or_comm (a := left.pointer = some child), or_comm (a := left.Edge parent child)]
  ext first second
  rw [AddrTree.graph, AddrTree.graph, SimpleGraph.fromRel_adj, SimpleGraph.fromRel_adj, same, same]

theorem adj_of_left (adjacent : left.graph.Adj first second) :
    (AddrTree.node left address data right).graph.Adj first second := by
  rcases (SimpleGraph.fromRel_adj ..).mp adjacent with ⟨different, edge⟩
  exact (SimpleGraph.fromRel_adj ..).mpr ⟨different,
    edge.imp (fun below => Or.inr (Or.inl below)) fun below => Or.inr (Or.inl below)⟩

theorem adj_root (apart : AddrTree.Apart left address right) (root : left.pointer = some child) :
    (AddrTree.node left address data right).graph.Adj address child := by
  refine (SimpleGraph.fromRel_adj ..).mpr ⟨?_, Or.inl (Or.inl ⟨rfl, Or.inl root⟩)⟩
  rintro rfl
  exact apart.notLeft (AddrTree.mem_addresses_of_pointer root)

/-- The neighbours of the root are its children. -/
theorem child_of_adj (apart : AddrTree.Apart left address right)
    (adjacent : (AddrTree.node left address data right).graph.Adj address child) :
    left.pointer = some child ∨ right.pointer = some child := by
  rcases (SimpleGraph.fromRel_adj ..).mp adjacent with
    ⟨_, (⟨_, child⟩ | below | below) | ⟨_, onLeft | onRight⟩ | below | below⟩
  · exact child
  · exact absurd below.mem.1 apart.notLeft
  · exact absurd below.mem.1 apart.notRight
  · exact absurd (AddrTree.mem_addresses_of_pointer onLeft) apart.notLeft
  · exact absurd (AddrTree.mem_addresses_of_pointer onRight) apart.notRight
  · exact absurd below.mem.2 apart.notLeft
  · exact absurd below.mem.2 apart.notRight

/-- Edges that are not at the root stay in the subtree of their end. -/
theorem adj_left (apart : AddrTree.Apart left address right)
    (adjacent : (AddrTree.node left address data right).graph.Adj first second)
    (notFirst : first ≠ address) (notSecond : second ≠ address) (inLeft : second ∈ left.addresses) :
    left.graph.Adj first second := by
  have notRight := apart.disjoint second inLeft
  rcases (SimpleGraph.fromRel_adj ..).mp adjacent with
    ⟨different, (⟨root, _⟩ | below | below) | ⟨root, _⟩ | below | below⟩
  · exact absurd root notFirst
  · exact (SimpleGraph.fromRel_adj ..).mpr ⟨different, Or.inl below⟩
  · exact absurd below.mem.2 notRight
  · exact absurd root notSecond
  · exact (SimpleGraph.fromRel_adj ..).mpr ⟨different, Or.inr below⟩
  · exact absurd below.mem.1 notRight

theorem AddrTree.Apart.swap (apart : AddrTree.Apart left address right) :
    AddrTree.Apart right address left :=
  ⟨apart.rightNodup, apart.leftNodup, apart.notRight, apart.notLeft,
    fun queried inRight inLeft => apart.disjoint queried inLeft inRight⟩

end Edges

/-! ## Paths -/

namespace PathIn

variable {tree left right : AddrTree Data} {address : Nat} {data : Data}
  {path before after : List Nat}

theorem swap (within : PathIn (.node left address data right) path) :
    PathIn (.node right address data left) path := by
  refine ⟨within.nodup, ?_, fun queried member => ?_⟩
  · rw [graph_swap]
    exact within.chain
  · have inside := AddrTree.mem_node.mp (within.inside queried member)
    exact AddrTree.mem_node.mpr (or_left_comm.mp (or_rotate.mp inside))

theorem of_left (within : PathIn left path) :
    PathIn (.node left address data right) path :=
  ⟨within.nodup, within.chain.imp fun _ _ => adj_of_left,
    fun queried member => AddrTree.mem_node.mpr (Or.inl (within.inside queried member))⟩

theorem tail {first : Nat} (within : PathIn tree (first :: path)) : PathIn tree path :=
  ⟨within.nodup.of_cons, within.chain.tail, fun queried member =>
    within.inside queried (List.mem_cons_of_mem _ member)⟩

/-- A path that avoids the root stays in the subtree where it ends. -/
theorem avoid (apart : AddrTree.Apart left address right) (notNil : path ≠ [])
    (within : PathIn (.node left address data right) path) (avoids : address ∉ path) :
    PathIn left path ∨ PathIn right path := by
  induction path with
  | nil => exact absurd rfl notNil
  | cons first rest induction =>
      rw [List.mem_cons, not_or] at avoids
      cases rest with
      | nil =>
          have single : ∀ side : AddrTree Data, first ∈ side.addresses → PathIn side [first] :=
            fun side member => ⟨List.nodup_singleton _, List.isChain_singleton _,
              fun queried queriedMember => List.mem_singleton.mp queriedMember ▸ member⟩
          rcases AddrTree.mem_node.mp (within.inside first List.mem_cons_self) with
            inLeft | rfl | inRight
          · exact Or.inl (single left inLeft)
          · exact absurd rfl avoids.1
          · exact Or.inr (single right inRight)
      | cons second rest =>
          have adjacent := within.chain.rel
          have notSecond : second ≠ address := fun same =>
            avoids.2 (same ▸ List.mem_cons_self)
          have extend : ∀ {side other : AddrTree Data}, AddrTree.Apart side address other →
              (AddrTree.node side address data other).graph.Adj first second →
              PathIn side (second :: rest) → PathIn side (first :: second :: rest) := by
            intro side other sideApart sideAdjacent below
            have joined := adj_left sideApart sideAdjacent (Ne.symm avoids.1) notSecond
              (below.inside second List.mem_cons_self)
            refine ⟨within.nodup, below.chain.cons_cons joined, fun queried member => ?_⟩
            rcases List.mem_cons.mp member with rfl | member
            · exact (mem_of_adj joined).1
            · exact below.inside queried member
          rcases induction (List.cons_ne_nil _ _) within.tail avoids.2 with below | below
          · exact Or.inl (extend apart adjacent below)
          · exact Or.inr (extend apart.swap (graph_swap ▸ adjacent) below)

theorem of_right (within : PathIn right path) : PathIn (.node left address data right) path :=
  within.of_left.swap

theorem reverse (within : PathIn tree path) : PathIn tree path.reverse := by
  refine ⟨List.nodup_reverse.mpr within.nodup, ?_, fun queried member =>
    within.inside queried (List.mem_reverse.mp member)⟩
  rw [List.isChain_reverse]
  exact within.chain.imp fun _ _ adjacent => adjacent.symm

/-- At one of its nodes a path is cut into two paths from there. -/
theorem through_iff : PathIn tree (before ++ address :: after) ↔
    PathIn tree (address :: before.reverse) ∧ PathIn tree (address :: after) ∧
      before.Disjoint after := by
  have upward : (address :: before.reverse) = (before ++ [address]).reverse := by
    rw [List.reverse_append, List.reverse_singleton, List.singleton_append]
  constructor
  · intro within
    have chains := List.isChain_split.mp within.chain
    have nodup := List.nodup_append'.mp within.nodup
    refine ⟨?_, ⟨nodup.2.1, chains.2, fun queried member =>
      within.inside queried (List.mem_append_right _ member)⟩,
      List.disjoint_of_disjoint_cons_right nodup.2.2⟩
    rw [upward]
    refine reverse ⟨?_, chains.1, fun queried member => ?_⟩
    · exact within.nodup.sublist
        (.append_left (List.cons_sublist_cons.mpr (List.nil_sublist after)) before)
    · rcases List.mem_append.mp member with member | member
      · exact within.inside queried (List.mem_append_left _ member)
      · rw [List.mem_singleton.mp member]
        exact within.inside address (List.mem_append_right _ List.mem_cons_self)
  · rintro ⟨up, down, disjoint⟩
    rw [upward] at up
    have forward := up.reverse
    rw [List.reverse_reverse] at forward
    have nodup := List.nodup_append'.mp forward.nodup
    refine ⟨List.nodup_append'.mpr ⟨nodup.1, down.nodup, ?_⟩,
      List.isChain_split.mpr ⟨forward.chain, down.chain⟩, fun queried member => ?_⟩
    · exact List.disjoint_cons_right.mpr
        ⟨fun member => nodup.2.2 member List.mem_cons_self, disjoint⟩
    · rcases List.mem_append.mp member with member | member
      · exact forward.inside queried (List.mem_append_left _ member)
      · exact down.inside queried member

end PathIn

namespace PathDown

variable {tree left right : AddrTree Data} {address : Nat} {data : Data} {path other : List Nat}

theorem swap (down : PathDown (.node left address data right) path) :
    PathDown (.node right address data left) path :=
  ⟨down.toPathIn.swap, down.starts⟩

/-- Two paths from a root have it in common. -/
theorem not_disjoint (down : PathDown tree path) (otherDown : PathDown tree other) :
    ¬path.Disjoint other := by
  rcases down.starts with ⟨root, rest, rfl, isRoot⟩
  rcases otherDown.starts with ⟨otherRoot, otherRest, rfl, isOther⟩
  rw [isRoot] at isOther
  cases isOther
  exact fun disjoint => disjoint List.mem_cons_self List.mem_cons_self

theorem cons (apart : AddrTree.Apart left address right) (down : PathDown left path) :
    PathIn (.node left address data right) (address :: path) := by
  rcases down.starts with ⟨root, rest, rfl, isRoot⟩
  refine ⟨List.nodup_cons.mpr ⟨fun member => apart.notLeft (down.inside _ member), down.nodup⟩,
    down.toPathIn.of_left.chain.cons_cons (adj_root apart isRoot), fun queried member => ?_⟩
  rcases List.mem_cons.mp member with rfl | member
  · exact AddrTree.mem_node.mpr (Or.inr (Or.inl rfl))
  · exact AddrTree.mem_node.mpr (Or.inl (down.inside queried member))

end PathDown

section Root

variable {left right : AddrTree Data} {address : Nat} {data : Data} {path : List Nat}

/-- Behind the root a path goes down in one of the subtrees. -/
theorem pathIn_root (apart : AddrTree.Apart left address right) :
    PathIn (.node left address data right) (address :: path) ↔
      path = [] ∨ PathDown left path ∨ PathDown right path := by
  constructor
  · intro within
    cases path with
    | nil => exact Or.inl rfl
    | cons child rest =>
        have avoids := (List.nodup_cons.mp within.nodup).1
        have goesDown : ∀ {side other : AddrTree Data}, AddrTree.Apart side address other →
            side.pointer = some child → PathIn side (child :: rest) ∨ PathIn other (child :: rest) →
            PathDown side (child :: rest) := by
          intro side other sideApart root below
          refine ⟨below.resolve_right fun wrong => ?_, child, rest, rfl, root⟩
          exact sideApart.disjoint child (AddrTree.mem_addresses_of_pointer root)
            (wrong.inside child List.mem_cons_self)
        have below := within.tail.avoid apart (List.cons_ne_nil _ _) avoids
        rcases child_of_adj apart within.chain.rel with root | root
        · exact Or.inr (Or.inl (goesDown apart root below))
        · exact Or.inr (Or.inr (goesDown apart.swap root below.symm))
  · rintro (rfl | down | down)
    · exact ⟨List.nodup_singleton _, List.isChain_singleton _, fun queried member =>
        AddrTree.mem_node.mpr (Or.inr (Or.inl (List.mem_singleton.mp member)))⟩
    · exact down.cons apart
    · exact (down.cons apart.swap).swap

end Root

/-! ## Lengths -/

section Lengths

variable {tree : AddrTree Data} {path : List Nat}

/-- A path from the root ends at the deepest level or before. -/
theorem PathDown.length_le (nodup : tree.addresses.Nodup) (down : PathDown tree path) :
    path.length ≤ tree.height := by
  induction tree generalizing path with
  | nil =>
      rcases down.starts with ⟨root, rest, rfl, isRoot⟩
      cases isRoot
  | node left address data right leftInduction rightInduction =>
      have apart := AddrTree.Apart.of_nodup nodup
      rcases down.starts with ⟨root, rest, rfl, isRoot⟩
      cases isRoot
      rw [List.length_cons, AddrTree.height]
      rcases (pathIn_root apart).mp down.toPathIn with rfl | below | below
      · exact Nat.succ_le_succ (Nat.zero_le _)
      · have bound := leftInduction apart.leftNodup below
        omega
      · have bound := rightInduction apart.rightNodup below
        omega

/-- Two ways from the root go down on different sides. -/
theorem arms_le {left right : AddrTree Data} {address : Nat} {other : List Nat}
    (apart : AddrTree.Apart left address right)
    (one : path = [] ∨ PathDown left path ∨ PathDown right path)
    (another : other = [] ∨ PathDown left other ∨ PathDown right other)
    (disjoint : path.Disjoint other) :
    path.length + other.length ≤ left.height + right.height := by
  have onLeft : ∀ {arm}, PathDown left arm → arm.length ≤ left.height :=
    fun down => down.length_le apart.leftNodup
  have onRight : ∀ {arm}, PathDown right arm → arm.length ≤ right.height :=
    fun down => down.length_le apart.rightNodup
  rcases one with rfl | goesLeft | goesRight
  · rw [List.length_nil, Nat.zero_add]
    rcases another with rfl | otherLeft | otherRight
    · exact Nat.zero_le _
    · exact Nat.le_add_right_of_le (onLeft otherLeft)
    · exact Nat.le_add_left_of_le (onRight otherRight)
  · rcases another with rfl | otherLeft | otherRight
    · exact Nat.le_add_right_of_le (onLeft goesLeft)
    · exact absurd disjoint (goesLeft.not_disjoint otherLeft)
    · exact Nat.add_le_add (onLeft goesLeft) (onRight otherRight)
  · rcases another with rfl | otherLeft | otherRight
    · exact Nat.le_add_left_of_le (onRight goesRight)
    · rw [Nat.add_comm]
      exact Nat.add_le_add (onLeft otherLeft) (onRight goesRight)
    · exact absurd disjoint (goesRight.not_disjoint otherRight)

theorem PathIn.length_le (nodup : tree.addresses.Nodup) (within : PathIn tree path) :
    path.length ≤ tree.longest + 1 := by
  induction tree generalizing path with
  | nil =>
      cases path with
      | nil => exact Nat.zero_le _
      | cons first rest => cases within.inside first List.mem_cons_self
  | node left address data right leftInduction rightInduction =>
      have apart := AddrTree.Apart.of_nodup nodup
      rw [AddrTree.longest]
      by_cases turns : address ∈ path
      · rcases List.append_of_mem turns with ⟨before, after, rfl⟩
        rcases PathIn.through_iff.mp within with ⟨up, down, disjoint⟩
        have arms := arms_le apart ((pathIn_root apart).mp up) ((pathIn_root apart).mp down)
          fun _ member => disjoint (List.mem_reverse.mp member)
        rw [List.length_reverse] at arms
        rw [List.length_append, List.length_cons]
        omega
      · by_cases empty : path = []
        · rw [empty]
          exact Nat.zero_le _
        · rcases within.avoid apart empty turns with below | below
          · have bound := leftInduction apart.leftNodup below
            omega
          · have bound := rightInduction apart.rightNodup below
            omega

/-- The way down to the deepest level is as long as the tree is high. -/
theorem length_deepest (tree : AddrTree Data) : tree.deepest.length = tree.height := by
  induction tree with
  | nil => rfl
  | node left address data right leftInduction rightInduction =>
      rw [AddrTree.deepest, List.length_cons, AddrTree.height]
      split
      · rw [leftInduction]
        omega
      · rw [rightInduction]
        omega

/-- There is no way down into an empty tree. -/
theorem deepest_down (nodup : tree.addresses.Nodup) :
    tree.deepest = [] ∨ PathDown tree tree.deepest := by
  induction tree with
  | nil => exact Or.inl rfl
  | node left address data right leftInduction rightInduction =>
      have apart := AddrTree.Apart.of_nodup nodup
      refine Or.inr ⟨(pathIn_root apart).mpr ?_, address, _, rfl, rfl⟩
      split
      · exact (leftInduction apart.leftNodup).imp_right Or.inl
      · exact (rightInduction apart.rightNodup).imp_right Or.inr

/-- Up from the deepest level on the left and down to the deepest level on the right. -/
theorem deepest_through {left right : AddrTree Data} {address : Nat} {data : Data}
    (apart : AddrTree.Apart left address right) :
    PathIn (.node left address data right)
      (left.deepest.reverse ++ address :: right.deepest) := by
  have onLeft := deepest_down apart.leftNodup
  have onRight := deepest_down apart.rightNodup
  refine PathIn.through_iff.mpr ⟨?_, ?_, ?_⟩
  · rw [List.reverse_reverse]
    exact (pathIn_root apart).mpr (onLeft.imp_right Or.inl)
  · exact (pathIn_root apart).mpr (onRight.imp_right Or.inr)
  · intro queried inLeft inRight
    rw [List.mem_reverse] at inLeft
    rcases onLeft with none | leftDown
    · rw [none] at inLeft
      cases inLeft
    · rcases onRight with none | rightDown
      · rw [none] at inRight
        cases inRight
      · exact apart.disjoint queried (leftDown.inside queried inLeft)
          (rightDown.inside queried inRight)

theorem exists_longest (nodup : tree.addresses.Nodup) (notNil : tree ≠ .nil) :
    ∃ path, PathIn tree path ∧ path.length = tree.longest + 1 := by
  induction tree with
  | nil => exact absurd rfl notNil
  | node left address data right leftInduction rightInduction =>
      have apart := AddrTree.Apart.of_nodup nodup
      have nonempty : ∀ {side : AddrTree Data}, 0 < side.longest → side ≠ .nil := by
        rintro side positive rfl
        cases positive
      rw [AddrTree.longest]
      by_cases turning : max left.longest right.longest ≤ left.height + right.height
      · refine ⟨_, deepest_through apart, ?_⟩
        rw [List.length_append, List.length_reverse, List.length_cons, length_deepest,
          length_deepest]
        omega
      · by_cases onLeft : right.longest ≤ left.longest
        · rcases leftInduction apart.leftNodup (nonempty (by omega)) with ⟨path, within, length⟩
          exact ⟨path, within.of_left, by omega⟩
        · rcases rightInduction apart.rightNodup (nonempty (by omega)) with ⟨path, within, length⟩
          exact ⟨path, within.of_right, by omega⟩

theorem mem_pathLengths_iff {edges : Nat} :
    edges ∈ tree.pathLengths ↔ ∃ path, PathIn tree path ∧ path.length = edges + 1 := by
  constructor
  · rintro ⟨first, last, inFirst, inLast, path, isPath, rfl⟩
    refine ⟨path.support, ⟨isPath.support_nodup, path.isChain_adj_support, ?_⟩,
      path.length_support⟩
    clear isPath inLast
    induction path with
    | nil => exact fun queried member => List.mem_singleton.mp member ▸ inFirst
    | cons adjacent path induction =>
        intro queried member
        rw [SimpleGraph.Walk.support_cons, List.mem_cons] at member
        rcases member with rfl | member
        · exact inFirst
        · exact induction (mem_of_adj adjacent).2 queried member
  · rintro ⟨path, within, length⟩
    have notNil : path ≠ [] := by
      rintro rfl
      cases length
    refine ⟨path.head notNil, path.getLast notNil, within.inside _ (List.head_mem _),
      within.inside _ (List.getLast_mem _),
      SimpleGraph.Walk.ofSupport path notNil within.chain, ?_, ?_⟩
    · rw [SimpleGraph.Walk.isPath_def, SimpleGraph.Walk.support_ofSupport]
      exact within.nodup
    · rw [SimpleGraph.Walk.length_ofSupport, length]
      rfl

theorem pathLengths_nil : (AddrTree.nil : AddrTree Data).pathLengths = ∅ :=
  Set.eq_empty_of_forall_notMem fun _ ⟨_, _, inFirst, _⟩ => List.not_mem_nil inFirst

/-- Each node is tried as the one where the path turns. -/
theorem isGreatest_longest (nodup : tree.addresses.Nodup) (notNil : tree ≠ .nil) :
    IsGreatest tree.pathLengths tree.longest := by
  constructor
  · exact mem_pathLengths_iff.mpr (exists_longest nodup notNil)
  · intro edges member
    rcases mem_pathLengths_iff.mp member with ⟨path, within, length⟩
    have bound := within.length_le nodup
    omega

end Lengths

end DataStructAlgorithm.Foundation
