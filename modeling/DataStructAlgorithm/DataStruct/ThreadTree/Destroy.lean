import DataStructAlgorithm.DataStruct.ThreadTree.Runs

/-! # Destruction

`_Destroy` follows both pointers of a node and does not look at their tags. On a tree
that has not been threaded these are the child links. Threads lead it back to nodes
that it has not deleted yet. -/

namespace DataStructAlgorithm.DataStruct.ThreadTree

open Foundation

variable {T : Type}

/-- Destruction of a tree without threads deletes every node once. -/
theorem destroy_spec (tree : AddrTree T) (fuel : Nat) (enough : tree.height < fuel)
    (heap : Store (Node T)) (held : Held heap (tree.map newNode)) (nodup : tree.addresses.Nodup) :
    ∃ deleted after, destroy fuel heap tree.pointer = .ok (deleted, after) ∧
      deleted.Perm tree.addresses ∧
      ∀ other ∉ tree.addresses, after.cell other = heap.cell other := by
  induction tree generalizing fuel heap with
  | nil =>
      rcases fuel with _ | fuel
      · omega
      · exact ⟨[], heap, rfl, List.Perm.refl _, fun _ _ => rfl⟩
  | node left address data right leftInduction rightInduction =>
      rcases fuel with _ | fuel
      · omega
      rw [AddrTree.height] at enough
      rcases Held.fresh held with ⟨found, leftHeld, rightHeld⟩
      rcases List.nodup_append.mp nodup with ⟨leftNodup, rootNodup, apart⟩
      rcases List.nodup_cons.mp rootNodup with ⟨rightOutside, rightNodup⟩
      have leftOutside : address ∉ left.addresses := fun member =>
        apart address member address (List.mem_cons_self ..) rfl
      rcases leftInduction fuel (by omega) heap leftHeld leftNodup with
        ⟨leftDeleted, first, leftDone, leftPerm, leftSame⟩
      have rightHeldAfter : Held first (right.map newNode) := by
        apply rightHeld.congr
        intro other member
        rw [AddrTree.addresses_map] at member
        exact leftSame other fun inside =>
          apart other inside other (List.mem_cons_of_mem _ member) rfl
      rcases rightInduction fuel (by omega) first rightHeldAfter rightNodup with
        ⟨rightDeleted, second, rightDone, rightPerm, rightSame⟩
      have foundFirst := (leftSame address leftOutside).trans found
      have foundSecond := (rightSame address rightOutside).trans foundFirst
      refine ⟨leftDeleted ++ rightDeleted ++ [address], second.free address, ?_, ?_, ?_⟩
      · have fromLeft : destroy fuel heap (fresh ⟨data, left.pointer, right.pointer⟩).left = _ :=
          leftDone
        have fromRight : destroy fuel first
            (fresh ⟨data, left.pointer, right.pointer⟩).right = _ := rightDone
        simp only [AddrTree.pointer_node, destroy, Store.load_some found, Outcome.ok_bind,
          fromLeft, Store.load_some foundFirst, fromRight, Store.release_some foundSecond]
        rfl
      · rw [AddrTree.addresses, List.append_assoc]
        have rootLast : (rightDeleted ++ [address]).Perm (address :: right.addresses) :=
          (List.perm_append_singleton address rightDeleted).trans (rightPerm.cons address)
        exact leftPerm.append rootLast
      · intro other outside
        simp only [AddrTree.addresses, List.mem_append, List.mem_cons, not_or] at outside
        rw [Store.cell_free_of_ne _ outside.2.1, rightSame other outside.2.2,
          leftSame other outside.1]

/-- Destruction only deletes. -/
theorem destroy_deletes (fuel : Nat) (heap : Store (Node T)) (root : Ptr)
    {deleted : List Nat} {after : Store (Node T)}
    (done : destroy fuel heap root = .ok (deleted, after)) (address : Nat) :
    after.cell address = heap.cell address ∨ after.cell address = none := by
  induction fuel generalizing heap root deleted after with
  | zero => cases done
  | succ fuel induction =>
      cases root with
      | none =>
          cases done
          exact Or.inl rfl
      | some root =>
          rw [destroy] at done
          rcases Outcome.bind_eq_ok done with ⟨node, _, done⟩
          rcases Outcome.bind_eq_ok done with ⟨⟨leftDeleted, first⟩, leftDone, done⟩
          rcases Outcome.bind_eq_ok done with ⟨nodeAgain, _, done⟩
          rcases Outcome.bind_eq_ok done with ⟨⟨rightDeleted, second⟩, rightDone, done⟩
          rcases Outcome.bind_eq_ok done with ⟨last, released, done⟩
          cases done
          have freed : after.cell address = second.cell address ∨ after.cell address = none := by
            simp only [Store.release] at released
            split at released
            · cases released
            · cases released
              by_cases here : address = root
              · exact Or.inr (by simp [Store.free, here])
              · exact Or.inl (Store.cell_free_of_ne _ here)
          rcases freed with same | gone
          · rw [same]
            rcases induction first nodeAgain.right rightDone with same | gone
            · rw [same]
              exact induction heap node.left leftDone
            · exact Or.inr gone
          · exact Or.inr gone

/-- Destruction does not return from a set of nodes that all point into the set. -/
theorem destroy_never_returns {whole : Store (Node T)} (inside : Nat → Prop)
    (closed : ∀ address, inside address → ∃ node, whole.cell address = some node ∧
      ((∃ next, node.left = some next ∧ inside next) ∨
        ∃ next, node.right = some next ∧ inside next))
    (fuel : Nat) (heap : Store (Node T))
    (part : ∀ address, heap.cell address = whole.cell address ∨ heap.cell address = none)
    (root : Nat) (member : inside root) (result : List Nat × Store (Node T)) :
    destroy fuel heap (some root) ≠ .ok result := by
  induction fuel generalizing heap root result with
  | zero => exact nofun
  | succ fuel induction =>
      intro done
      rcases closed root member with ⟨node, found, points⟩
      have loads : ∀ (store : Store (Node T)) (loaded : Node T),
          (store.cell root = whole.cell root ∨ store.cell root = none) →
          store.load (some root) = .ok loaded → loaded = node := by
        intro store loaded known ok
        rcases known with same | gone
        · rw [Store.load_some (same.trans found)] at ok
          exact (Except.ok.inj ok).symm
        · simp [Store.load, gone] at ok
      rw [destroy] at done
      rcases Outcome.bind_eq_ok done with ⟨first, firstLoaded, done⟩
      rcases Outcome.bind_eq_ok done with ⟨⟨leftDeleted, middle⟩, leftDone, done⟩
      rcases Outcome.bind_eq_ok done with ⟨second, secondLoaded, done⟩
      rcases Outcome.bind_eq_ok done with ⟨_, rightDone, _⟩
      have partAfter : ∀ address, middle.cell address = whole.cell address ∨
          middle.cell address = none := by
        intro address
        rcases destroy_deletes fuel heap first.left leftDone address with same | gone
        · rw [same]
          exact part address
        · exact Or.inr gone
      have firstIs := loads heap first (part root) firstLoaded
      have secondIs := loads middle second (partAfter root) secondLoaded
      subst firstIs
      subst secondIs
      rcases points with ⟨next, isNext, nextInside⟩ | ⟨next, isNext, nextInside⟩
      · rw [isNext] at leftDone
        exact induction heap part next nextInside _ leftDone
      · rw [isNext] at rightDone
        exact induction middle partAfter next nextInside _ rightDone

/-- Child links lead to nodes of the tree. -/
theorem children_inside {tree : AddrTree T} {entry : Nat × ForkNode T}
    (member : entry ∈ inOrder tree) {child : Nat}
    (isChild : entry.2.left = some child ∨ entry.2.right = some child) :
    child ∈ tree.addresses := by
  induction tree with
  | nil => cases member
  | node left address data right leftInduction rightInduction =>
      rw [AddrTree.addresses, List.mem_append, List.mem_cons]
      rw [inOrder, List.mem_append, List.mem_cons] at member
      rcases member with inLeft | isRoot | inRight
      · exact Or.inl (leftInduction inLeft)
      · subst isRoot
        rcases isChild with atLeft | atRight
        · exact Or.inl (AddrTree.mem_addresses_of_pointer atLeft)
        · exact Or.inr (Or.inr (AddrTree.mem_addresses_of_pointer atRight))
      · exact Or.inr (Or.inr (rightInduction inRight))

section Threads

variable {built tree : ThreadTree T} {whole : AddrTree T} {entries : List (Nat × ForkNode T)}

/-- Every node of a threaded tree with several nodes points to one of them. -/
theorem ThreadedTree.closed (done : ThreadedTree built entries tree)
    (order : entries.Perm (inOrder whole)) (several : 1 < entries.length) (address : Nat)
    (member : address ∈ whole.addresses) :
    ∃ node, tree.heap.cell address = some node ∧
      ((∃ next, node.left = some next ∧ next ∈ whole.addresses) ∨
        ∃ next, node.right = some next ∧ next ∈ whole.addresses) := by
  have names : ∀ queried, queried ∈ entries.map Prod.fst ↔ queried ∈ whole.addresses := by
    intro queried
    rw [← map_fst_inOrder, (order.map Prod.fst).mem_iff]
  rcases List.mem_map.mp ((names address).mpr member) with ⟨⟨_, node⟩, entryMem, rfl⟩
  have children : ∀ child, node.left = some child ∨ node.right = some child →
      child ∈ whole.addresses := fun _ => children_inside (order.mem_iff.mp entryMem)
  rcases List.append_of_mem entryMem with ⟨front, back, split⟩
  have cell := (split ▸ done.threads).cell
  refine ⟨_, cell, ?_⟩
  cases atLeft : node.left with
  | some child => exact Or.inl ⟨child, by simp [threaded, atLeft], children child (Or.inl atLeft)⟩
  | none =>
      rcases List.eq_nil_or_concat front with empty | ⟨earlier, last, isLast⟩
      · subst empty
        cases atRight : node.right with
        | some child =>
            exact Or.inr ⟨child, by simp [threaded, atRight], children child (Or.inr atRight)⟩
        | none =>
            rcases back with _ | ⟨second, back⟩
            · simp [split] at several
            · refine Or.inr ⟨second.1, by simp [threaded, atRight, firstOr], ?_⟩
              rw [← names, split]
              simp
      · rw [List.concat_eq_append] at isLast
        refine Or.inl ⟨last.1, ?_, ?_⟩
        · simp only [threaded, atLeft, isLast, lastOr_append]
          rfl
        · rw [← names, split, isLast]
          simp

/-- Destruction of a threaded tree returns exactly when there are not several nodes. -/
theorem ThreadedTree.destroyed_iff (shows : built.Shows (whole.map newNode))
    (done : ThreadedTree built entries tree) (order : entries.Perm (inOrder whole)) :
    (∃ fuel deleted heap, destroy fuel tree.heap tree.root = .ok (deleted, heap) ∧
      deleted.Perm whole.addresses) ↔ whole.toList.length ≤ 1 := by
  have rootEq : tree.root = whole.pointer := by
    rw [done.root_eq, shows.root_eq, AddrTree.pointer_map]
  have count : entries.length = whole.toList.length := by
    rw [order.length_eq, length_inOrder]
  constructor
  · intro returns
    rcases returns with ⟨fuel, deleted, heap, returned, _⟩
    rcases Nat.lt_or_ge 1 whole.toList.length with several | few
    · cases whole with
      | nil => simp at several
      | node left address data right =>
          rw [rootEq, AddrTree.pointer_node] at returned
          have closed := done.closed order (by rwa [count])
          exact absurd returned (destroy_never_returns _ closed fuel tree.heap
            (fun _ => Or.inl rfl) address (by simp [AddrTree.addresses]) _)
    · exact few
  · intro few
    cases whole with
    | nil => exact ⟨1, [], tree.heap, by rw [rootEq]; rfl, List.Perm.refl _⟩
    | node left address data right =>
        rw [AddrTree.toList_node, List.length_append, List.length_cons] at few
        have noLeft : left = .nil := by
          cases left with
          | nil => rfl
          | node => simp at few; omega
        have noRight : right = .nil := by
          cases right with
          | nil => rfl
          | node => simp at few; omega
        subst noLeft
        subst noRight
        have single : entries = [(address, ⟨data, none, none⟩)] := List.perm_singleton.mp order
        have cell : tree.heap.cell address = some (threaded ⟨data, none, none⟩ none none) := by
          have threads := done.threads
          rw [single] at threads
          exact threads.1
        refine ⟨2, [address], tree.heap.free address, ?_, List.Perm.refl _⟩
        rw [rootEq, AddrTree.pointer_node]
        simp [destroy, Store.load_some cell, threaded, Store.release_some cell]

end Threads

/-- Which of the two threading functions has been called before the destructor. -/
inductive Threading
  | unthreaded
  | inOder
  | prevOder
  deriving DecidableEq, Repr

def Threading.apply (fuel : Nat) (tree : ThreadTree T) : Threading → Outcome (ThreadTree T)
  | .unthreaded => .ok tree
  | .inOder => inOderThread fuel tree
  | .prevOder => prevOderThread fuel tree

/-- The destructor reaches every node exactly once if the tree has not been threaded or
has at most one node, and otherwise it does not return. -/
theorem destroy_iff [DecidableEq T] (a : List T) (invalid : T) (nonempty : a ≠ [])
    (buildFuel : Nat) (buildEnough : a.length < buildFuel) :
    ∃ (built : ThreadTree T) (whole : AddrTree T), ofArray buildFuel a invalid = .ok built ∧
      built.Shows (whole.map newNode) ∧ ∀ (threading : Threading) (fuel : Nat),
        whole.toList.length < fuel → ∃ tree, threading.apply fuel built = .ok tree ∧
          ((∃ fuel deleted heap, destroy fuel tree.heap tree.root = .ok (deleted, heap) ∧
              deleted.Perm whole.addresses) ↔
            threading = .unthreaded ∨ whole.toList.length ≤ 1) := by
  rcases ofArray_spec a invalid nonempty buildFuel buildEnough with
    ⟨built, whole, _, made, shows, _⟩
  refine ⟨built, whole, made, shows, fun threading fuel enough => ?_⟩
  have low := Nat.lt_of_le_of_lt whole.height_le_length enough
  cases threading with
  | unthreaded =>
      have nodup : whole.addresses.Nodup := by
        rw [← AddrTree.addresses_map newNode whole]
        exact shows.nodup
      rcases destroy_spec whole fuel low built.heap shows.held nodup with
        ⟨deleted, after, done, perm, _⟩
      refine ⟨built, rfl, fun _ => Or.inl rfl, fun _ => ⟨fuel, deleted, after, ?_, perm⟩⟩
      rw [shows.root_eq, AddrTree.pointer_map]
      exact done
  | inOder =>
      rcases inOderThread_spec shows fuel low with ⟨tree, ran, done⟩
      refine ⟨tree, ran, ?_⟩
      simpa using done.destroyed_iff shows (List.Perm.refl _)
  | prevOder =>
      rcases prevOderThread_spec shows fuel low with ⟨tree, ran, done⟩
      refine ⟨tree, ran, ?_⟩
      simpa using done.destroyed_iff shows (preOrder_perm whole)

theorem destroy_iff_small :
    ∃ (built : ThreadTree Int) (whole : AddrTree Int),
      ofArray 5 [1, 2, 35, 3] 35 = .ok built ∧
      built.Shows (whole.map newNode) ∧ ∀ (threading : Threading) (fuel : Nat),
        whole.toList.length < fuel → ∃ tree, threading.apply fuel built = .ok tree ∧
          ((∃ fuel deleted heap, destroy fuel tree.heap tree.root = .ok (deleted, heap) ∧
              deleted.Perm whole.addresses) ↔
            threading = .unthreaded ∨ whole.toList.length ≤ 1) :=
  destroy_iff [1, 2, 35, 3] 35 (by decide) 5 (by decide)

/-- A root with a left child: once it is threaded, its destruction goes from the one to
the other forever. -/
theorem destroy_endless : ∃ built tree : ThreadTree Int,
    ofArray 3 [1, 2] 35 = .ok built ∧ inOderThread 3 built = .ok tree ∧
      ∀ fuel, destroy fuel tree.heap tree.root = .error .outOfFuel := by
  refine ⟨_, _, rfl, rfl, fun fuel => ?_⟩
  generalize isTree : ForkTree.heap _ = heap
  have root : heap.cell 0 = some ⟨⟨1, .link, .link⟩, some 1, none⟩ := by
    rw [← isTree]
    rfl
  have child : heap.cell 1 = some ⟨⟨2, .thread, .thread⟩, none, some 0⟩ := by
    rw [← isTree]
    rfl
  have both : destroy fuel heap (some 0) = .error .outOfFuel ∧
      destroy fuel heap (some 1) = .error .outOfFuel := by
    induction fuel with
    | zero => exact ⟨rfl, rfl⟩
    | succ fuel induction =>
        constructor
        · simp [destroy, Store.load_some root, induction.2]
        · rcases fuel with _ | fuel
          · simp [destroy, Store.load_some child]
          · have nothing : destroy (fuel + 1) heap none = .ok ([], heap) := rfl
            rw [destroy]
            simp only [Store.load_some child, Outcome.ok_bind, nothing, induction.1]
            rfl
  exact both.1

end DataStructAlgorithm.DataStruct.ThreadTree
