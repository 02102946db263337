import Mathlib.Data.List.Nodup
import DataStructAlgorithm.DataStruct.ThreadTree.ThreadTree

/-! # Installing threads

Both traversals visit the nodes one after the other and, at each of them, connect the
node with the one before. What they have done so far is described by the list of the
nodes visited; the two orders differ in this list only. -/

namespace DataStructAlgorithm.DataStruct.ThreadTree

open Foundation

variable {T : Type}

/-- A node as the constructor of the tree leaves it. -/
def fresh (node : ForkNode T) : Node T :=
  ⟨newNode node.data, node.left, node.right⟩

/-- A node whose missing links are replaced by threads to the nodes before and after
it. The right link stays null when there is no node after it. -/
def threaded (node : ForkNode T) (before after : Ptr) : Node T :=
  ⟨⟨node.data, if node.left = none then .thread else .link,
      if node.right = none ∧ after ≠ none then .thread else .link⟩,
    node.left.or before, node.right.or after⟩

/-- The nodes with their addresses, in order. -/
def inOrder : AddrTree T → List (Nat × ForkNode T)
  | .nil => []
  | .node left address data right =>
      inOrder left ++ (address, ⟨data, left.pointer, right.pointer⟩) :: inOrder right

/-- The nodes with their addresses, in pre-order. -/
def preOrder : AddrTree T → List (Nat × ForkNode T)
  | .nil => []
  | .node left address data right =>
      (address, ⟨data, left.pointer, right.pointer⟩) :: (preOrder left ++ preOrder right)

/-- The address of the first node of a list. -/
def firstOr (after : Ptr) : List (Nat × ForkNode T) → Ptr
  | [] => after
  | entry :: _ => some entry.1

/-- The address of the last node of a list. -/
def lastOr (before : Ptr) : List (Nat × ForkNode T) → Ptr
  | [] => before
  | entry :: rest => lastOr (some entry.1) rest

/-- The nodes of a list are threaded one to the other. -/
def Threaded (heap : Store (Node T)) (before : Ptr) (after : Ptr) :
    List (Nat × ForkNode T) → Prop
  | [] => True
  | (address, node) :: rest =>
      heap.cell address = some (threaded node before (firstOr after rest)) ∧
        Threaded heap (some address) after rest

/-! ## Lists of nodes -/

section Lists

variable {heap other : Store (Node T)} {before after : Ptr} {front back : List (Nat × ForkNode T)}

@[simp] theorem firstOr_append :
    firstOr after (front ++ back) = firstOr (firstOr after back) front := by
  cases front <;> rfl

@[simp] theorem lastOr_append :
    lastOr before (front ++ back) = lastOr (lastOr before front) back := by
  induction front generalizing before with
  | nil => rfl
  | cons entry front induction => exact induction

theorem threaded_append : Threaded heap before after (front ++ back) ↔
    Threaded heap before (firstOr after back) front ∧
      Threaded heap (lastOr before front) after back := by
  induction front generalizing before with
  | nil => exact ⟨fun threads => ⟨trivial, threads⟩, And.right⟩
  | cons entry front induction =>
      rcases entry with ⟨address, node⟩
      rw [List.cons_append, Threaded, induction, firstOr_append, Threaded, and_assoc]
      rfl

theorem Threaded.congr {entries : List (Nat × ForkNode T)}
    (threads : Threaded heap before after entries)
    (same : ∀ address ∈ entries.map Prod.fst, other.cell address = heap.cell address) :
    Threaded other before after entries := by
  induction entries generalizing before with
  | nil => trivial
  | cons entry entries induction =>
      rcases entry with ⟨address, node⟩
      rw [List.map_cons, List.forall_mem_cons] at same
      exact ⟨same.1.trans threads.1, induction threads.2 same.2⟩

/-- What a node is in the middle of a threaded list. -/
theorem Threaded.cell {address : Nat} {node : ForkNode T}
    (threads : Threaded heap before after (front ++ (address, node) :: back)) :
    heap.cell address = some (threaded node (lastOr before front) (firstOr after back)) :=
  (threaded_append.mp threads).2.1

theorem map_fst_inOrder (tree : AddrTree T) : (inOrder tree).map Prod.fst = tree.addresses := by
  induction tree with
  | nil => rfl
  | node left address data right leftInduction rightInduction =>
      rw [inOrder, AddrTree.addresses, List.map_append, List.map_cons, leftInduction,
        rightInduction]

theorem preOrder_perm (tree : AddrTree T) : (preOrder tree).Perm (inOrder tree) := by
  induction tree with
  | nil => exact List.Perm.refl _
  | node left address data right leftInduction rightInduction =>
      rw [preOrder, inOrder]
      exact ((leftInduction.append rightInduction).cons _).trans List.perm_middle.symm

theorem map_fst_preOrder (tree : AddrTree T) :
    ((preOrder tree).map Prod.fst).Perm tree.addresses := by
  rw [← map_fst_inOrder]
  exact (preOrder_perm tree).map Prod.fst

theorem data_inOrder (tree : AddrTree T) :
    (inOrder tree).map (fun entry => entry.2.data) = tree.toList := by
  induction tree with
  | nil => rfl
  | node left address data right leftInduction rightInduction =>
      rw [inOrder, AddrTree.toList_node, List.map_append, List.map_cons, leftInduction,
        rightInduction]

theorem firstOr_preOrder (tree : AddrTree T) :
    firstOr after (preOrder tree) = tree.pointer.or after := by
  cases tree <;> rfl

end Lists

/-! ## One node -/

section Visit

variable {heap : Store (Node T)} {address : Nat} {node : ForkNode T}

/-- The left link of a visited node. -/
theorem installLeft_spec (prev : Ptr) (found : heap.cell address = some (fresh node)) :
    ∃ after, installLeft heap address prev = .ok after ∧
      after.cell address = some (threaded node prev none) ∧
      ∀ other, other ≠ address → after.cell other = heap.cell other := by
  rw [installLeft, Store.load_some found, Outcome.ok_bind]
  by_cases missing : node.left = none
  · have absent : (fresh node).left = none := missing
    refine ⟨heap.modify address (threadLeft prev), ?_, ?_, ?_⟩
    · rw [if_pos absent, Store.assign_some _ found]
    · rw [Store.cell_modify_same, found]
      simp [threaded, threadLeft, fresh, newNode, missing]
    · exact fun other different => Store.cell_modify_of_ne _ _ different
  · have present : (fresh node).left ≠ none := missing
    refine ⟨heap, if_neg present, ?_, fun _ _ => rfl⟩
    rw [found]
    rcases Option.ne_none_iff_exists'.mp missing with ⟨child, isChild⟩
    simp [threaded, fresh, newNode, isChild]

/-- The right link of the node that was visited before. -/
theorem installRight_spec {before : Ptr} (root : Nat)
    (found : heap.cell address = some (threaded node before none)) :
    ∃ after, installRight heap root (some address) = .ok after ∧
      after.cell address = some (threaded node before (some root)) ∧
      ∀ other, other ≠ address → after.cell other = heap.cell other := by
  simp only [installRight, Store.load_some found, Outcome.ok_bind]
  by_cases missing : node.right = none
  · have absent : (threaded node before none).right = none := by
      simp [threaded, missing]
    refine ⟨heap.modify address (threadRight (some root)), ?_, ?_, ?_⟩
    · rw [if_pos absent, Store.assign_some _ found]
    · rw [Store.cell_modify_same, found]
      simp [threaded, threadRight, missing]
    · exact fun other different => Store.cell_modify_of_ne _ _ different
  · have present : (threaded node before none).right ≠ none := by
      simp [threaded, missing]
    refine ⟨heap, if_neg present, ?_, fun _ _ => rfl⟩
    rw [found]
    rcases Option.ne_none_iff_exists'.mp missing with ⟨child, isChild⟩
    simp [threaded, isChild]

end Visit

/-- Visiting a node appends it to the threaded list. -/
theorem installThreads_spec {heap : Store (Node T)} {visited : List (Nat × ForkNode T)}
    {address : Nat} {node : ForkNode T} (threads : Threaded heap none none visited)
    (found : heap.cell address = some (fresh node))
    (nodup : (visited.map Prod.fst ++ [address]).Nodup) :
    ∃ after, installThreads heap address (lastOr none visited) = .ok after ∧
      Threaded after none none (visited ++ [(address, node)]) ∧
      ∀ other ∉ visited.map Prod.fst ++ [address], after.cell other = heap.cell other := by
  rcases installLeft_spec (lastOr none visited) found with ⟨first, linked, cell, same⟩
  rw [installThreads, linked, Outcome.ok_bind]
  rcases List.eq_nil_or_concat visited with empty | ⟨front, ⟨last, lastNode⟩, isLast⟩
  · subst empty
    refine ⟨first, rfl, ⟨cell, trivial⟩, ?_⟩
    intro other outside
    exact same other (by simpa using outside)
  · rw [List.concat_eq_append] at isLast
    subst isLast
    have lastIs : lastOr none (front ++ [(last, lastNode)]) = some last := lastOr_append
    rw [lastIs] at linked cell ⊢
    simp only [List.map_append, List.map_cons, List.map_nil] at nodup ⊢
    have notLast : last ≠ address := by
      intro equal
      simp [equal, List.nodup_append] at nodup
    have lastOutside : last ∉ front.map Prod.fst := by
      intro member
      have parts := (List.nodup_append.mp (List.nodup_append.mp nodup).1).2.2
      exact parts last member last (List.mem_singleton_self last) rfl
    have addressOutside : address ∉ front.map Prod.fst := by
      intro member
      have parts := (List.nodup_append.mp nodup).2.2
      exact parts address (List.mem_append_left _ member) address
        (List.mem_singleton_self address) rfl
    have lastFound : first.cell last = some (threaded lastNode (lastOr none front) none) := by
      rw [same last notLast]
      exact threads.cell
    rcases installRight_spec address lastFound with ⟨after, connected, lastCell, others⟩
    refine ⟨after, connected, ?_, ?_⟩
    · rw [threaded_append, threaded_append]
      refine ⟨⟨(threaded_append.mp threads).1.congr ?_, lastCell, trivial⟩, ?_, trivial⟩
      · intro other member
        rw [others other fun equal => lastOutside (equal ▸ member),
          same other fun equal => addressOutside (equal ▸ member)]
      · rw [lastIs, others address notLast.symm]
        exact cell
    · intro other outside
      simp only [List.mem_append, List.mem_singleton, not_or] at outside
      rw [others other outside.1.2, same other outside.2]

/-! ## Whole trees -/

section Nodes

variable {before after : Ptr} {data : T} {left right : AddrTree T}

@[simp] theorem lefttype_threaded (node : ForkNode T) :
    (threaded node before after).data.lefttype = if node.left = none then .thread else .link := rfl

@[simp] theorem righttype_threaded (node : ForkNode T) :
    (threaded node before after).data.righttype =
      if node.right = none ∧ after ≠ none then .thread else .link := rfl

/-- The node of a tree that has not been threaded. -/
theorem Held.fresh {heap : Store (Node T)} {address : Nat}
    (held : Held heap ((AddrTree.node left address data right).map newNode)) :
    heap.cell address = some (fresh ⟨data, left.pointer, right.pointer⟩) ∧
      Held heap (left.map newNode) ∧ Held heap (right.map newNode) := by
  rcases held with ⟨found, leftHeld, rightHeld⟩
  refine ⟨?_, leftHeld, rightHeld⟩
  rw [found, AddrTree.pointer_map, AddrTree.pointer_map]
  rfl

/-- A part of the tree that was not visited is as it was. -/
theorem held_unvisited {heap after : Store (Node T)} {tree : AddrTree T} {visited : List Nat}
    (held : Held heap (tree.map newNode)) (apart : (visited ++ tree.addresses).Nodup)
    (same : ∀ other ∉ visited, after.cell other = heap.cell other) :
    Held after (tree.map newNode) := by
  apply held.congr
  intro other member
  rw [AddrTree.addresses_map] at member
  exact same other fun inside => (List.nodup_append.mp apart).2.2 other inside other member rfl

/-- A recursion that follows the left link of a threaded node goes to its left child, if
there is one. -/
theorem follow_left {Result : Type} (call : Ptr → Outcome Result) (skip : Outcome Result)
    (nothing : call none = skip) :
    (if (threaded ⟨data, left.pointer, right.pointer⟩ before after).data.lefttype = .link then
        call (threaded ⟨data, left.pointer, right.pointer⟩ before after).left
      else skip) = call left.pointer := by
  cases left with
  | nil => simp [threaded, nothing]
  | node leftLeft address leftData leftRight => simp [threaded]

/-- The same for the right link. -/
theorem follow_right {Result : Type} (call : Ptr → Outcome Result) (skip : Outcome Result)
    (nothing : call none = skip) :
    (if (threaded ⟨data, left.pointer, right.pointer⟩ before after).data.righttype = .link then
        call (threaded ⟨data, left.pointer, right.pointer⟩ before after).right
      else skip) = call right.pointer := by
  cases right with
  | nil => cases after <;> simp [threaded, nothing]
  | node rightLeft address rightData rightRight => simp [threaded]

end Nodes

/-- In-order threading appends the nodes of a tree in order. -/
theorem inOderThreadFrom_spec (tree : AddrTree T) (fuel : Nat) (enough : tree.height < fuel)
    (heap : Store (Node T)) (visited : List (Nat × ForkNode T))
    (threads : Threaded heap none none visited) (held : Held heap (tree.map newNode))
    (nodup : (visited.map Prod.fst ++ tree.addresses).Nodup) :
    ∃ after, inOderThreadFrom fuel heap tree.pointer (lastOr none visited) =
        .ok (after, lastOr none (visited ++ inOrder tree)) ∧
      Threaded after none none (visited ++ inOrder tree) ∧
      ∀ other ∉ visited.map Prod.fst ++ tree.addresses, after.cell other = heap.cell other := by
  induction tree generalizing fuel heap visited with
  | nil =>
      rcases fuel with _ | fuel
      · omega
      · rw [inOrder, List.append_nil]
        exact ⟨heap, rfl, threads, fun _ _ => rfl⟩
  | node left address data right leftInduction rightInduction =>
      rcases fuel with _ | fuel
      · omega
      rw [AddrTree.height] at enough
      have arranged : ((visited.map Prod.fst ++ left.addresses) ++ [address] ++
          right.addresses).Nodup := by
        simpa only [AddrTree.addresses, List.append_assoc, List.singleton_append] using nodup
      have upToRoot := (List.nodup_append.mp arranged).1
      rcases List.nodup_append.mp upToRoot with ⟨upToLeft, _, rootApart⟩
      rcases Held.fresh held with ⟨found, leftHeld, rightHeld⟩
      rcases leftInduction fuel (by omega) heap visited threads leftHeld upToLeft with
        ⟨first, leftDone, leftThreads, leftSame⟩
      have rootOutside : address ∉ visited.map Prod.fst ++ left.addresses := fun member =>
        rootApart address member address (List.mem_singleton_self address) rfl
      have names : (visited ++ inOrder left).map Prod.fst =
          visited.map Prod.fst ++ left.addresses := by
        rw [List.map_append, map_fst_inOrder]
      have rootFound := (leftSame address rootOutside).trans found
      rcases installThreads_spec leftThreads rootFound (by rw [names]; exact upToRoot) with
        ⟨second, installed, rootThreads, rootSame⟩
      rw [names] at rootSame
      have rightHeldAfter : Held second (right.map newNode) := by
        apply held_unvisited rightHeld arranged
        intro other outside
        rw [rootSame other outside, leftSame other fun inside =>
          outside (List.mem_append_left _ inside)]
      have longer : (visited ++ inOrder left ++
          [(address, (⟨data, left.pointer, right.pointer⟩ : ForkNode T))]).map Prod.fst =
          visited.map Prod.fst ++ left.addresses ++ [address] := by
        rw [List.map_append, names, List.map_singleton]
      rcases rightInduction fuel (by omega) second _ rootThreads rightHeldAfter
        (by rw [longer]; exact arranged) with ⟨after, rightDone, rightThreads, rightSame⟩
      have order : visited ++ inOrder (.node left address data right) =
          (visited ++ inOrder left ++ [(address, ⟨data, left.pointer, right.pointer⟩)]) ++
            inOrder right := by
        simp only [inOrder, List.append_assoc, List.singleton_append]
      refine ⟨after, ?_, by rw [order]; exact rightThreads, ?_⟩
      · have rootCell := rootThreads.cell
        have isLast : lastOr none (visited ++ inOrder left ++
            [(address, (⟨data, left.pointer, right.pointer⟩ : ForkNode T))]) = some address :=
          lastOr_append
        rw [isLast] at rightDone
        rw [order, ← rightDone]
        simp only [AddrTree.pointer_node, inOderThreadFrom, Store.load_some found,
          Outcome.ok_bind, fresh, newNode, if_true, leftDone, installed, Store.load_some rootCell,
          firstOr, ne_eq, not_true_eq_false, and_false, if_false, threaded, Option.or_none]
      · intro other outside
        simp only [AddrTree.addresses, List.mem_append, List.mem_cons, not_or] at outside
        rw [rightSame other (by rw [longer]; simp [outside]),
          rootSame other (by simp [outside]), leftSame other (by simp [outside])]

/-- Pre-order threading appends the nodes of a tree in pre-order. A node whose right link
is a thread already has no right child. -/
theorem prevOderThreadFrom_spec (tree : AddrTree T) (fuel : Nat) (enough : tree.height < fuel)
    (heap : Store (Node T)) (visited : List (Nat × ForkNode T))
    (threads : Threaded heap none none visited) (held : Held heap (tree.map newNode))
    (nodup : (visited.map Prod.fst ++ tree.addresses).Nodup) :
    ∃ after, prevOderThreadFrom fuel heap tree.pointer (lastOr none visited) =
        .ok (after, lastOr none (visited ++ preOrder tree)) ∧
      Threaded after none none (visited ++ preOrder tree) ∧
      ∀ other ∉ visited.map Prod.fst ++ tree.addresses, after.cell other = heap.cell other := by
  induction tree generalizing fuel heap visited with
  | nil =>
      rcases fuel with _ | fuel
      · omega
      · rw [preOrder, List.append_nil]
        exact ⟨heap, rfl, threads, fun _ _ => rfl⟩
  | node left address data right leftInduction rightInduction =>
      rcases fuel with _ | _ | fuel
      · omega
      · rw [AddrTree.height] at enough
        omega
      rw [AddrTree.height] at enough
      have arranged : (visited.map Prod.fst ++ [address] ++ left.addresses ++
          right.addresses).Nodup := by
        have moved : (left.addresses ++ address :: right.addresses).Perm _ := List.perm_middle
        rw [AddrTree.addresses, (moved.append_left (visited.map Prod.fst)).nodup_iff] at nodup
        rw [List.append_assoc, List.append_assoc]
        exact nodup
      have upToLeft := (List.nodup_append.mp arranged).1
      have upToRoot := (List.nodup_append.mp upToLeft).1
      rcases Held.fresh held with ⟨found, leftHeld, rightHeld⟩
      rcases installThreads_spec threads found upToRoot with
        ⟨first, installed, rootThreads, rootSame⟩
      have names : (visited ++
          [(address, (⟨data, left.pointer, right.pointer⟩ : ForkNode T))]).map Prod.fst =
          visited.map Prod.fst ++ [address] := by
        rw [List.map_append, List.map_singleton]
      have leftHeldAfter := held_unvisited leftHeld upToLeft rootSame
      rcases leftInduction (fuel + 1) (by omega) first _ rootThreads leftHeldAfter
        (by rw [names]; exact upToLeft) with ⟨second, leftDone, leftThreads, leftSame⟩
      rw [names] at leftSame
      have rightHeldAfter : Held second (right.map newNode) := by
        apply held_unvisited rightHeld arranged
        intro other outside
        rw [leftSame other outside, rootSame other fun inside =>
          outside (List.mem_append_left _ inside)]
      have longer : ((visited ++ [(address, (⟨data, left.pointer, right.pointer⟩ : ForkNode T))] ++
          preOrder left).map Prod.fst).Perm
          (visited.map Prod.fst ++ [address] ++ left.addresses) := by
        rw [List.map_append, names]
        exact (map_fst_preOrder left).append_left _
      rcases rightInduction (fuel + 1) (by omega) second _ leftThreads rightHeldAfter
        ((longer.append_right _).nodup_iff.mpr arranged) with
        ⟨after, rightDone, rightThreads, rightSame⟩
      have order : visited ++ preOrder (.node left address data right) =
          visited ++ [(address, ⟨data, left.pointer, right.pointer⟩)] ++ preOrder left ++
            preOrder right := by
        simp only [preOrder, List.append_assoc, List.cons_append, List.nil_append]
      refine ⟨after, ?_, by rw [order]; exact rightThreads, ?_⟩
      · have rootCell := rootThreads.cell
        have rootCellAfter := (List.append_assoc _ _ (preOrder left) ▸ leftThreads).cell
        have isLast : lastOr none (visited ++
            [(address, (⟨data, left.pointer, right.pointer⟩ : ForkNode T))]) = some address :=
          lastOr_append
        rw [isLast] at leftDone
        rw [order, ← rightDone, AddrTree.pointer_node, prevOderThreadFrom, installed,
          Outcome.ok_bind, Store.load_some rootCell, Outcome.ok_bind]
        rw [follow_left (fun child => prevOderThreadFrom (fuel + 1) first child (some address))
          (pure (first, some address)) rfl, leftDone, Outcome.ok_bind]
        simp only [Store.load_some rootCellAfter, Outcome.ok_bind]
        exact follow_right (fun child => prevOderThreadFrom (fuel + 1) second child _)
          (pure (second, _)) rfl
      · intro other outside
        simp only [AddrTree.addresses, List.mem_append, List.mem_cons, not_or] at outside
        have elsewhere : other ∉ (visited ++ [(address,
            (⟨data, left.pointer, right.pointer⟩ : ForkNode T))] ++ preOrder left).map Prod.fst ++
            right.addresses := by
          rw [List.mem_append, longer.mem_iff]
          simp [outside]
        rw [rightSame other elsewhere, leftSame other (by simp [outside]),
          rootSame other (by simp [outside])]

/-! ## Threading again -/

/-- A pointer is null or designates a node that has a right link. -/
def Settled (heap : Store (Node T)) (pointer : Ptr) : Prop :=
  ∀ address, pointer = some address →
    ∃ node, heap.cell address = some node ∧ node.right ≠ none

/-- The last node of a list that goes on is settled. -/
theorem Threaded.settled {heap : Store (Node T)} {before : Ptr} {after : Nat}
    {entries : List (Nat × ForkNode T)} (threads : Threaded heap before (some after) entries)
    (start : Settled heap before) : Settled heap (lastOr before entries) := by
  induction entries generalizing before with
  | nil => exact start
  | cons entry rest induction =>
      rcases entry with ⟨address, node⟩
      apply induction threads.2
      intro other equal
      cases equal
      refine ⟨_, threads.1, ?_⟩
      cases rest <;> simp [threaded, firstOr]

/-- Visiting a threaded node changes nothing. -/
theorem installThreads_again {heap : Store (Node T)} {address : Nat} {node : ForkNode T}
    {prev after : Ptr} (found : heap.cell address = some (threaded node prev after))
    (settled : Settled heap prev) : installThreads heap address prev = .ok heap := by
  have left : installLeft heap address prev = .ok heap := by
    rw [installLeft, Store.load_some found, Outcome.ok_bind]
    by_cases missing : (threaded node prev after).left = none
    · have nothing : node.left = none ∧ prev = none := Option.or_eq_none_iff.mp missing
      have same : threadLeft prev (threaded node prev after) = threaded node prev after := by
        simp [threadLeft, threaded, nothing]
      rw [if_pos missing, Store.assign_some _ found, Store.modify_eq_self found same]
    · rw [if_neg missing]
      rfl
  rw [installThreads, left, Outcome.ok_bind]
  cases prev with
  | none => rfl
  | some before =>
      rcases settled before rfl with ⟨other, otherFound, present⟩
      simp only [installRight, Store.load_some otherFound, Outcome.ok_bind, if_neg present]
      rfl

/-- In-order threading of a threaded tree changes nothing. -/
theorem inOderThreadFrom_again {heap : Store (Node T)} (tree : AddrTree T) (fuel : Nat)
    (enough : tree.height < fuel) {before after : Ptr}
    (threads : Threaded heap before after (inOrder tree))
    (settled : tree.pointer ≠ none → Settled heap before) :
    inOderThreadFrom fuel heap tree.pointer before = .ok (heap, lastOr before (inOrder tree)) := by
  induction tree generalizing fuel before after with
  | nil =>
      rcases fuel with _ | fuel
      · omega
      · rfl
  | node left address data right leftInduction rightInduction =>
      rcases fuel with _ | _ | fuel
      · omega
      · rw [AddrTree.height] at enough
        omega
      rw [AddrTree.height] at enough
      have start : Settled heap before := settled (Option.some_ne_none _)
      rcases threaded_append.mp threads with ⟨leftThreads, rootCell, rightThreads⟩
      have leftDone := leftInduction (fuel + 1) (by omega) leftThreads fun _ => start
      have visited := installThreads_again rootCell (leftThreads.settled start)
      have rootSettled : right.pointer ≠ none → Settled heap (some address) := by
        intro present other equal
        cases equal
        refine ⟨_, rootCell, ?_⟩
        simp [threaded, present]
      have rightDone := rightInduction (fuel + 1) (by omega) rightThreads rootSettled
      rw [AddrTree.pointer_node, inOderThreadFrom, Store.load_some rootCell, Outcome.ok_bind]
      rw [follow_left (fun child => inOderThreadFrom (fuel + 1) heap child before)
        (pure (heap, before)) rfl, leftDone, Outcome.ok_bind]
      simp only [visited, Store.load_some rootCell, Outcome.ok_bind]
      rw [inOrder, lastOr_append]
      exact (follow_right (fun child => inOderThreadFrom (fuel + 1) heap child (some address))
        (pure (heap, some address)) rfl).trans rightDone

end DataStructAlgorithm.DataStruct.ThreadTree
