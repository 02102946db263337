import DataStructAlgorithm.Foundation.LinkedTree

/-! # Subtrees and common ancestors

The path to a node is written from the node up to the root. Two paths meet first at the lowest
common ancestor, when they are walked from the same depth. -/

namespace DataStructAlgorithm.Foundation

variable {Data : Type u}

/-- A tree stands in another one, at a depth. -/
inductive SubtreeAt (sub : AddrTree Data) : (depth : Nat) → AddrTree Data → Prop
  | here : SubtreeAt sub 0 sub
  | left {depth : Nat} {near far : AddrTree Data} {address : Nat} {data : Data}
      (below : SubtreeAt sub depth near) : SubtreeAt sub (depth + 1) (.node near address data far)
  | right {depth : Nat} {near far : AddrTree Data} {address : Nat} {data : Data}
      (below : SubtreeAt sub depth far) : SubtreeAt sub (depth + 1) (.node near address data far)

/-- The second node is in the subtree of the first one, perhaps as its root. -/
def Above (whole : AddrTree Data) (upper lower : Nat) : Prop :=
  ∃ sub depth, SubtreeAt sub depth whole ∧ sub.pointer = some upper ∧ lower ∈ sub.addresses

/-- The deepest node whose subtree has both. -/
def LowestCommonAncestor (whole : AddrTree Data) (first second node : Nat) : Prop :=
  ∃ sub depth, SubtreeAt sub depth whole ∧ sub.pointer = some node ∧
    first ∈ sub.addresses ∧ second ∈ sub.addresses ∧
    ∀ other otherDepth, SubtreeAt other otherDepth whole → first ∈ other.addresses →
      second ∈ other.addresses → otherDepth ≤ depth

section Subtrees

variable {left right whole sub other : AddrTree Data} {address depth otherDepth : Nat} {data : Data}

theorem SubtreeAt.subset (at_ : SubtreeAt sub depth whole) : sub.addresses ⊆ whole.addresses := by
  induction at_ with
  | here => exact fun _ member => member
  | left below induction => exact fun _ member => AddrTree.mem_node.mpr (Or.inl (induction member))
  | right below induction =>
      exact fun _ member => AddrTree.mem_node.mpr (Or.inr (Or.inr (induction member)))

/-- At each depth a node stands in one subtree. -/
theorem SubtreeAt.unique (at_ : SubtreeAt sub depth whole) (nodup : whole.addresses.Nodup)
    (otherAt : SubtreeAt other depth whole) {queried : Nat} (member : queried ∈ sub.addresses)
    (otherMember : queried ∈ other.addresses) : sub = other := by
  induction at_ with
  | here =>
      cases otherAt
      rfl
  | left below induction =>
      have apart := AddrTree.Apart.of_nodup nodup
      cases otherAt with
      | left otherBelow => exact induction apart.leftNodup otherBelow
      | right otherBelow =>
          exact absurd (otherBelow.subset otherMember) (apart.disjoint _ (below.subset member))
  | right below induction =>
      have apart := AddrTree.Apart.of_nodup nodup
      cases otherAt with
      | left otherBelow =>
          exact absurd (below.subset member) (apart.disjoint _ (otherBelow.subset otherMember))
      | right otherBelow => exact induction apart.rightNodup otherBelow

/-- A node is in no subtree that stands deeper than its own. -/
theorem SubtreeAt.depth_le (at_ : SubtreeAt sub depth whole) (nodup : whole.addresses.Nodup)
    (otherAt : SubtreeAt other otherDepth whole) {queried : Nat} (root : sub.pointer = some queried)
    (member : queried ∈ other.addresses) : otherDepth ≤ depth := by
  have inside := AddrTree.mem_addresses_of_pointer root
  induction at_ generalizing otherDepth with
  | here =>
      cases otherAt with
      | here => exact Nat.le_refl 0
      | left otherBelow =>
          cases root
          exact absurd (otherBelow.subset member) (AddrTree.Apart.of_nodup nodup).notLeft
      | right otherBelow =>
          cases root
          exact absurd (otherBelow.subset member) (AddrTree.Apart.of_nodup nodup).notRight
  | left below induction =>
      have apart := AddrTree.Apart.of_nodup nodup
      cases otherAt with
      | here => exact Nat.zero_le _
      | left otherBelow => exact Nat.succ_le_succ (induction apart.leftNodup otherBelow)
      | right otherBelow =>
          exact absurd (otherBelow.subset member) (apart.disjoint _ (below.subset inside))
  | right below induction =>
      have apart := AddrTree.Apart.of_nodup nodup
      cases otherAt with
      | here => exact Nat.zero_le _
      | left otherBelow =>
          exact absurd (below.subset inside) (apart.disjoint _ (otherBelow.subset member))
      | right otherBelow => exact Nat.succ_le_succ (induction apart.rightNodup otherBelow)

end Subtrees

/-! ## Lowest common ancestors -/

namespace LowestCommonAncestor

variable {left right whole : AddrTree Data} {address first second node other : Nat} {data : Data}

theorem mem (lowest : LowestCommonAncestor whole first second node) : node ∈ whole.addresses := by
  rcases lowest with ⟨sub, depth, at_, root, _⟩
  exact at_.subset (AddrTree.mem_addresses_of_pointer root)

theorem symm (lowest : LowestCommonAncestor whole first second node) :
    LowestCommonAncestor whole second first node := by
  rcases lowest with ⟨sub, depth, at_, root, inFirst, inSecond, deepest⟩
  exact ⟨sub, depth, at_, root, inSecond, inFirst, fun other otherDepth otherAt others these =>
    deepest other otherDepth otherAt these others⟩

theorem unique (nodup : whole.addresses.Nodup)
    (lowest : LowestCommonAncestor whole first second node)
    (otherLowest : LowestCommonAncestor whole first second other) : node = other := by
  rcases lowest with ⟨sub, depth, at_, root, inFirst, inSecond, deepest⟩
  rcases otherLowest with ⟨otherSub, otherDepth, otherAt, otherRoot, otherFirst, otherSecond,
    otherDeepest⟩
  have same : depth = otherDepth := Nat.le_antisymm
    (otherDeepest sub depth at_ inFirst inSecond)
    (deepest otherSub otherDepth otherAt otherFirst otherSecond)
  subst same
  cases at_.unique nodup otherAt inFirst otherFirst
  exact Option.some.inj (root.symm.trans otherRoot)

/-- Both nodes are on the left: so is what is above them. -/
theorem of_left (apart : AddrTree.Apart left address right)
    (lowest : LowestCommonAncestor left first second node) :
    LowestCommonAncestor (.node left address data right) first second node := by
  rcases lowest with ⟨sub, depth, at_, root, inFirst, inSecond, deepest⟩
  refine ⟨sub, depth + 1, .left at_, root, inFirst, inSecond, ?_⟩
  intro other otherDepth otherAt otherFirst otherSecond
  cases otherAt with
  | here => exact Nat.zero_le _
  | left below => exact Nat.succ_le_succ (deepest other _ below otherFirst otherSecond)
  | right below =>
      exact absurd (below.subset otherFirst) (apart.disjoint _ (at_.subset inFirst))

theorem of_right (apart : AddrTree.Apart left address right)
    (lowest : LowestCommonAncestor right first second node) :
    LowestCommonAncestor (.node left address data right) first second node := by
  rcases lowest with ⟨sub, depth, at_, root, inFirst, inSecond, deepest⟩
  refine ⟨sub, depth + 1, .right at_, root, inFirst, inSecond, ?_⟩
  intro other otherDepth otherAt otherFirst otherSecond
  cases otherAt with
  | here => exact Nat.zero_le _
  | left below =>
      exact absurd (at_.subset inFirst) (apart.disjoint _ (below.subset otherFirst))
  | right below => exact Nat.succ_le_succ (deepest other _ below otherFirst otherSecond)

/-- The nodes are not in the same subtree of the root. -/
theorem top (inFirst : first ∈ (AddrTree.node left address data right).addresses)
    (inSecond : second ∈ (AddrTree.node left address data right).addresses)
    (notLeft : ¬(first ∈ left.addresses ∧ second ∈ left.addresses))
    (notRight : ¬(first ∈ right.addresses ∧ second ∈ right.addresses)) :
    LowestCommonAncestor (.node left address data right) first second address := by
  refine ⟨_, 0, .here, rfl, inFirst, inSecond, ?_⟩
  intro other otherDepth otherAt otherFirst otherSecond
  cases otherAt with
  | here => exact Nat.le_refl 0
  | left below => exact absurd ⟨below.subset otherFirst, below.subset otherSecond⟩ notLeft
  | right below => exact absurd ⟨below.subset otherFirst, below.subset otherSecond⟩ notRight

/-- A node that is above another one is the lowest that is above both. -/
theorem eq_first_iff (nodup : whole.addresses.Nodup)
    (lowest : LowestCommonAncestor whole first second node) :
    node = first ↔ Above whole first second := by
  rcases lowest with ⟨sub, depth, at_, root, inFirst, inSecond, deepest⟩
  constructor
  · rintro rfl
    exact ⟨sub, depth, at_, root, inSecond⟩
  · rintro ⟨upper, upperDepth, upperAt, upperRoot, below⟩
    have inUpper := AddrTree.mem_addresses_of_pointer upperRoot
    have same : depth = upperDepth := Nat.le_antisymm
      (upperAt.depth_le nodup at_ upperRoot inFirst) (deepest upper upperDepth upperAt inUpper below)
    subst same
    cases at_.unique nodup upperAt inFirst inUpper
    exact Option.some.inj (root.symm.trans upperRoot)

end LowestCommonAncestor

/-! ## Paths -/

/-- The path from a node up to the root, empty if the node is not in the tree. -/
def pathTo (target : Ptr) : AddrTree Data → List Nat
  | .nil => []
  | .node left address _ right =>
      if some address = target then [address]
      else if pathTo target left ≠ [] then pathTo target left ++ [address]
      else if pathTo target right ≠ [] then pathTo target right ++ [address]
      else []

/-- The first entry that two lists of one length have at the same place. -/
def meeting : List Nat → List Nat → Ptr
  | first :: firsts, second :: seconds =>
      if first = second then some first else meeting firsts seconds
  | _, _ => none

/-- The same, when the longer list has been cut to the length of the other one. -/
def meetingOf (firsts seconds : List Nat) : Ptr :=
  meeting (firsts.drop (firsts.length - seconds.length))
    (seconds.drop (seconds.length - firsts.length))

section Paths

variable {tree left right : AddrTree Data} {address : Nat} {data : Data} {target : Ptr}

theorem pathTo_subset : pathTo target tree ⊆ tree.addresses := by
  induction tree with
  | nil => exact fun _ member => member
  | node left address data right leftInduction rightInduction =>
      intro queried member
      rw [AddrTree.mem_node]
      rw [pathTo] at member
      split at member
      next => exact Or.inr (Or.inl (List.mem_singleton.mp member))
      next =>
        split at member
        next =>
          rcases List.mem_append.mp member with below | here
          · exact Or.inl (leftInduction below)
          · exact Or.inr (Or.inl (List.mem_singleton.mp here))
        next =>
          split at member
          next =>
            rcases List.mem_append.mp member with below | here
            · exact Or.inr (Or.inr (rightInduction below))
            · exact Or.inr (Or.inl (List.mem_singleton.mp here))
          next => cases member

theorem pathTo_ne_nil_iff :
    pathTo target tree ≠ [] ↔ ∃ node ∈ tree.addresses, some node = target := by
  induction tree with
  | nil => simp [pathTo, AddrTree.addresses]
  | node left address data right leftInduction rightInduction =>
      simp only [AddrTree.mem_node, or_and_right, exists_or, exists_eq_left, ← leftInduction,
        ← rightInduction]
      rw [pathTo]
      by_cases here : some address = target
      · simp [here]
      · by_cases below : pathTo target left = []
        · by_cases other : pathTo target right = [] <;> simp [here, below, other]
        · simp [here, below]

theorem meeting_append (firsts seconds : List Nat) (same : firsts.length = seconds.length)
    (address : Nat) :
    meeting (firsts ++ [address]) (seconds ++ [address]) =
      (meeting firsts seconds).or (some address) := by
  induction firsts generalizing seconds with
  | nil =>
      cases seconds with
      | nil => simp [meeting]
      | cons second seconds => cases same
  | cons first firsts induction =>
      cases seconds with
      | nil => cases same
      | cons second seconds =>
          rw [List.cons_append, List.cons_append, meeting, meeting]
          split
          next => rfl
          next => exact induction seconds (Nat.succ.inj same)

/-- Both paths lead on to the same node. -/
theorem meetingOf_append (firsts seconds : List Nat) (address : Nat) :
    meetingOf (firsts ++ [address]) (seconds ++ [address]) =
      (meetingOf firsts seconds).or (some address) := by
  rw [meetingOf, meetingOf, ← meeting_append _ _ (by simp only [List.length_drop]; omega)]
  simp only [List.length_append, List.length_singleton, Nat.add_sub_add_right]
  rw [List.drop_append_of_le_length (Nat.sub_le _ _),
    List.drop_append_of_le_length (Nat.sub_le _ _)]

theorem meeting_eq_none {firsts seconds : List Nat}
    (disjoint : ∀ queried ∈ firsts, queried ∉ seconds) : meeting firsts seconds = none := by
  induction firsts generalizing seconds with
  | nil => rfl
  | cons first firsts induction =>
      cases seconds with
      | nil => rfl
      | cons second seconds =>
          have different : first ≠ second := fun equal =>
            disjoint first List.mem_cons_self (equal ▸ List.mem_cons_self)
          rw [meeting, if_neg different]
          exact induction fun queried member inSeconds =>
            disjoint queried (List.mem_cons_of_mem _ member) (List.mem_cons_of_mem _ inSeconds)

theorem meetingOf_eq_none {firsts seconds : List Nat}
    (disjoint : ∀ queried ∈ firsts, queried ∉ seconds) : meetingOf firsts seconds = none :=
  meeting_eq_none fun queried member inSeconds =>
    disjoint queried (List.mem_of_mem_drop member) (List.mem_of_mem_drop inSeconds)

theorem meetingOf_nil_left (seconds : List Nat) : meetingOf [] seconds = none :=
  meetingOf_eq_none nofun

theorem meetingOf_nil_right (firsts : List Nat) : meetingOf firsts [] = none :=
  meetingOf_eq_none fun _ _ => List.not_mem_nil

/-- The path to a node of a tree comes from the subtree that the node is in. -/
theorem pathTo_node {queried : Nat} (apart : AddrTree.Apart left address right)
    (member : queried ∈ (AddrTree.node left address data right).addresses) :
    ∃ below, pathTo (some queried) (.node left address data right) = below ++ [address] ∧
      (queried ∈ left.addresses ∧ below = pathTo (some queried) left ∨
        queried = address ∧ below = [] ∨
        queried ∈ right.addresses ∧ below = pathTo (some queried) right) := by
  have inLeft : pathTo (some queried) left ≠ [] ↔ queried ∈ left.addresses := by
    rw [pathTo_ne_nil_iff]
    simp
  have inRight : pathTo (some queried) right ≠ [] ↔ queried ∈ right.addresses := by
    rw [pathTo_ne_nil_iff]
    simp
  rw [pathTo]
  rcases AddrTree.mem_node.mp member with below | rfl | below
  · have notHere : ¬some address = some queried := fun equal =>
      apart.notLeft (Option.some.inj equal ▸ below)
    rw [if_neg notHere, if_pos (inLeft.mpr below)]
    exact ⟨_, rfl, Or.inl ⟨below, rfl⟩⟩
  · rw [if_pos rfl]
    exact ⟨[], rfl, Or.inr (Or.inl ⟨rfl, rfl⟩)⟩
  · have notHere : ¬some address = some queried := fun equal =>
      apart.notRight (Option.some.inj equal ▸ below)
    have notLeft : ¬pathTo (some queried) left ≠ [] := fun other =>
      apart.disjoint queried (inLeft.mp other) below
    rw [if_neg notHere, if_neg notLeft, if_pos (inRight.mpr below)]
    exact ⟨_, rfl, Or.inr (Or.inr ⟨below, rfl⟩)⟩

/-- The paths to two nodes meet at their lowest common ancestor. -/
theorem meetingOf_pathTo (nodup : tree.addresses.Nodup) {first second : Nat}
    (inFirst : first ∈ tree.addresses) (inSecond : second ∈ tree.addresses) :
    ∃ node, meetingOf (pathTo (some first) tree) (pathTo (some second) tree) = some node ∧
      LowestCommonAncestor tree first second node := by
  induction tree with
  | nil => cases inFirst
  | node left address data right leftInduction rightInduction =>
      have apart := AddrTree.Apart.of_nodup nodup
      rcases pathTo_node apart inFirst with ⟨firsts, firstEq, fromFirst⟩
      rcases pathTo_node apart inSecond with ⟨seconds, secondEq, fromSecond⟩
      rw [firstEq, secondEq, meetingOf_append]
      have top : meetingOf firsts seconds = none →
          ¬(first ∈ left.addresses ∧ second ∈ left.addresses) →
          ¬(first ∈ right.addresses ∧ second ∈ right.addresses) →
          ∃ node, (meetingOf firsts seconds).or (some address) = some node ∧
            LowestCommonAncestor (.node left address data right) first second node := by
        intro apartPaths notLeft notRight
        rw [apartPaths]
        exact ⟨address, rfl, .top inFirst inSecond notLeft notRight⟩
      rcases fromFirst with ⟨firstLeft, rfl⟩ | ⟨rfl, rfl⟩ | ⟨firstRight, rfl⟩
      · rcases fromSecond with ⟨secondLeft, rfl⟩ | ⟨rfl, rfl⟩ | ⟨secondRight, rfl⟩
        · rcases leftInduction apart.leftNodup firstLeft secondLeft with ⟨node, met, lowest⟩
          rw [met]
          exact ⟨node, rfl, lowest.of_left apart⟩
        · exact top (meetingOf_nil_right _) (fun both => apart.notLeft both.2)
            (fun both => apart.notRight both.2)
        · refine top (meetingOf_eq_none ?_) (fun both => apart.disjoint _ both.2 secondRight)
            (fun both => apart.disjoint _ firstLeft both.1)
          exact fun queried inLeft inRight =>
            apart.disjoint queried (pathTo_subset inLeft) (pathTo_subset inRight)
      · exact top (meetingOf_nil_left _) (fun both => apart.notLeft both.1)
          (fun both => apart.notRight both.1)
      · rcases fromSecond with ⟨secondLeft, rfl⟩ | ⟨rfl, rfl⟩ | ⟨secondRight, rfl⟩
        · refine top (meetingOf_eq_none ?_) (fun both => apart.disjoint _ both.1 firstRight)
            (fun both => apart.disjoint _ secondLeft both.2)
          exact fun queried inRight inLeft =>
            apart.disjoint queried (pathTo_subset inLeft) (pathTo_subset inRight)
        · exact top (meetingOf_nil_right _) (fun both => apart.notLeft both.2)
            (fun both => apart.notRight both.2)
        · rcases rightInduction apart.rightNodup firstRight secondRight with ⟨node, met, lowest⟩
          rw [met]
          exact ⟨node, rfl, lowest.of_right apart⟩

end Paths

end DataStructAlgorithm.Foundation
