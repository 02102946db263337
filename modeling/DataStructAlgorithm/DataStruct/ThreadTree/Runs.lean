import DataStructAlgorithm.DataStruct.ThreadTree.Threading

/-! # Iteration over threaded trees -/

namespace DataStructAlgorithm.DataStruct.ThreadTree

open Foundation

variable {T : Type}

/-- `next` leads from one pointer to another one over nodes with the given payloads. -/
def Leads (next : Ptr → Outcome Ptr) (heap : Store (Node T)) (last : Ptr) : Ptr → List T → Prop
  | it, [] => it = last
  | it, data :: rest => ∃ address node after, it = some address ∧
      heap.cell address = some node ∧ node.data.data = data ∧ next it = .ok after ∧
      Leads next heap last after rest

section Leads

variable {next : Ptr → Outcome Ptr} {heap : Store (Node T)}

theorem Leads.append {first middle last : Ptr} {front back : List T}
    (leads : Leads next heap middle first front) (others : Leads next heap last middle back) :
    Leads next heap last first (front ++ back) := by
  induction front generalizing first with
  | nil =>
      rw [show first = middle from leads]
      exact others
  | cons data rest induction =>
      rcases leads with ⟨address, node, after, isFirst, found, same, went, later⟩
      exact ⟨address, node, after, isFirst, found, same, went, induction later⟩

/-- The loop over an iterator that leads to the end visits every payload. -/
theorem Leads.traverse {first : Ptr} {items : List T} (leads : Leads next heap none first items)
    (visited : List T) (fuel : Nat) (enough : items.length < fuel) :
    repeatLoop (traversePass next heap) fuel (first, visited) = .ok (visited ++ items) := by
  induction items generalizing first visited fuel with
  | nil =>
      rcases fuel with _ | fuel
      · simp at enough
      · rw [show first = none from leads, List.append_nil]
        exact repeatLoop_leave _ rfl
  | cons data rest induction =>
      rcases fuel with _ | fuel
      · simp at enough
      · rcases leads with ⟨address, node, after, isFirst, found, same, went, later⟩
        subst isFirst
        have pass : traversePass next heap (some address, visited) =
            .ok (.again (after, visited ++ [data])) := by
          simp [traversePass, Store.load_some found, went, same]
        rw [repeatLoop_again _ pass, induction later _ fuel (by simpa using enough)]
        simp

end Leads

/-! ## In-order -/

section InOrder

variable {heap : Store (Node T)} {before after : Ptr}

/-- A loop that follows the links to left children leads to the first node of a tree. -/
theorem leftmost_spec {body : Ptr → Outcome (Pass Ptr Ptr)} (ends : body none = .ok (.leave none))
    (descends : ∀ address node prev after child,
      heap.cell address = some (threaded node prev after) → node.left = some child →
      body (some address) = .ok (.again (some child)))
    (stops : ∀ address node after, heap.cell address = some (threaded node before after) →
      node.left = none → body (some address) = .ok (.leave (some address)))
    (tree : AddrTree T) (threads : Threaded heap before after (inOrder tree)) (fuel : Nat)
    (enough : tree.height < fuel) :
    repeatLoop body fuel tree.pointer = .ok (firstOr none (inOrder tree)) := by
  induction tree generalizing after fuel with
  | nil =>
      rcases fuel with _ | fuel
      · omega
      · exact repeatLoop_leave _ ends
  | node left address data right leftInduction _ =>
      rcases fuel with _ | fuel
      · omega
      rw [AddrTree.height] at enough
      rcases threaded_append.mp threads with ⟨leftThreads, rootCell, _⟩
      cases left with
      | nil => exact repeatLoop_leave _ (stops address _ _ rootCell rfl)
      | node leftLeft leftAddress leftData leftRight =>
          have pass := descends address _ _ _ leftAddress rootCell rfl
          have descended := leftInduction leftThreads fuel (by omega)
          rw [AddrTree.pointer_node, repeatLoop_again _ pass, inOrder, firstOr_append]
          rw [AddrTree.pointer_node] at descended
          rw [descended, inOrder, firstOr_append, firstOr_append]
          rfl

/-- Following left links that are no threads leads to the first node of a tree. -/
theorem descendPass_spec (tree : AddrTree T) (threads : Threaded heap before after (inOrder tree))
    (fuel : Nat) (enough : tree.height < fuel) :
    repeatLoop (descendPass heap) fuel tree.pointer = .ok (firstOr none (inOrder tree)) := by
  apply leftmost_spec rfl _ _ tree threads fuel enough
  · intro address node prev after child found isChild
    simp [descendPass, Store.load_some found, threaded, isChild]
  · intro address node after found missing
    simp [descendPass, Store.load_some found, missing]

/-- `begin` finds the first node, whose left thread is null. -/
theorem beginPass_spec (tree : AddrTree T) (threads : Threaded heap none after (inOrder tree))
    (fuel : Nat) (enough : tree.height < fuel) :
    repeatLoop (beginPass heap) fuel tree.pointer = .ok (firstOr none (inOrder tree)) := by
  apply leftmost_spec rfl _ _ tree threads fuel enough
  · intro address node prev after child found isChild
    simp [beginPass, Store.load_some found, threaded, isChild]
  · intro address node after found missing
    simp [beginPass, Store.load_some found, threaded, missing]

/-- `operator++` leads from the first node of a tree over its payloads in order. -/
theorem inOder_leads (tree : AddrTree T) (threads : Threaded heap before after (inOrder tree))
    (fuel : Nat) (enough : tree.height < fuel) :
    Leads (inOderNext fuel heap) heap after (firstOr after (inOrder tree)) tree.toList := by
  induction tree generalizing before after with
  | nil => rfl
  | node left address data right leftInduction rightInduction =>
      rw [AddrTree.height] at enough
      rcases threaded_append.mp threads with ⟨leftThreads, rootCell, rightThreads⟩
      have leftLeads := leftInduction leftThreads (by omega)
      have rightLeads := rightInduction rightThreads (by omega)
      have next : inOderNext fuel heap (some address) =
          .ok (firstOr after (inOrder right)) := by
        rw [inOderNext, Store.load_some rootCell, Outcome.ok_bind]
        cases right with
        | nil =>
            cases after with
            | none =>
                rw [if_neg (by simp [inOrder, firstOr])]
                exact descendPass_spec .nil (show Threaded heap none none (inOrder .nil) from trivial)
                  fuel (by omega)
            | some successor =>
                rw [if_pos (by simp [inOrder, firstOr])]
                rfl
        | node rightLeft rightAddress rightData rightRight =>
            rw [if_neg (by simp)]
            have descended := descendPass_spec _ rightThreads fuel (by omega)
            rw [inOrder, firstOr_append] at descended ⊢
            exact descended
      rw [inOrder, firstOr_append, AddrTree.toList_node]
      exact leftLeads.append ⟨address, _, _, rfl, rootCell, rfl, next, rightLeads⟩

end InOrder

/-! ## Pre-order -/

/-- `operator++` leads from the root of a tree over its payloads in pre-order. -/
theorem prevOder_leads {heap : Store (Node T)} (tree : AddrTree T) {before after : Ptr}
    (threads : Threaded heap before after (preOrder tree)) :
    Leads (prevOderNext heap) heap after (tree.pointer.or after)
      ((preOrder tree).map fun entry => entry.2.data) := by
  induction tree generalizing before after with
  | nil => rfl
  | node left address data right leftInduction rightInduction =>
      rcases threads with ⟨rootCell, threads⟩
      rcases threaded_append.mp threads with ⟨leftThreads, rightThreads⟩
      have leftLeads := leftInduction leftThreads
      have rightLeads := rightInduction rightThreads
      rw [firstOr_preOrder] at leftLeads
      have next : prevOderNext heap (some address) =
          .ok (left.pointer.or (right.pointer.or after)) := by
        rw [prevOderNext, Store.load_some rootCell, Outcome.ok_bind]
        cases left with
        | nil =>
            rw [if_neg (by simp)]
            cases right <;> rfl
        | node leftLeft leftAddress leftData leftRight =>
            rw [if_pos (by simp)]
            rfl
      rw [preOrder, List.map_cons, List.map_append]
      exact ⟨address, _, _, rfl, rootCell, rfl, next, leftLeads.append rightLeads⟩

end DataStructAlgorithm.DataStruct.ThreadTree

/-! ## Threading the trees that arrays describe -/

namespace DataStructAlgorithm.DataStruct.ThreadTree

open Foundation

variable {T : Type}

/-- The nodes of a tree that has not been threaded. -/
theorem fresh_of_held {heap : Store (Node T)} {tree : AddrTree T}
    (held : Held heap (tree.map newNode)) {entry : Nat × ForkNode T}
    (member : entry ∈ inOrder tree) : heap.cell entry.1 = some (fresh entry.2) := by
  induction tree with
  | nil => cases member
  | node left address data right leftInduction rightInduction =>
      rcases Held.fresh held with ⟨found, leftHeld, rightHeld⟩
      rw [inOrder, List.mem_append, List.mem_cons] at member
      rcases member with inLeft | isRoot | inRight
      · exact leftInduction leftHeld inLeft
      · rw [isRoot]
        exact found
      · exact rightInduction rightHeld inRight

theorem ofArray_spec [DecidableEq T] (a : List T) (invalid : T) (nonempty : a ≠ []) (fuel : Nat)
    (enough : a.length < fuel) :
    ∃ (built : ThreadTree T) (whole : AddrTree T) (last : Nat),
      ofArray fuel a invalid = .ok built ∧ built.Shows (whole.map newNode) ∧
      Parses invalid a 0 (shape whole) last :=
  construct_spec newNode invalid nonempty fuel enough

section Thread

variable {built : ThreadTree T} {whole : AddrTree T}

/-- What threading leaves: the nodes are threaded in the given order, and no other cell
changes. -/
structure ThreadedTree (built : ThreadTree T) (entries : List (Nat × ForkNode T))
    (tree : ThreadTree T) : Prop where
  root_eq : tree.root = built.root
  threads : Threaded tree.heap none none entries
  others : ∀ address ∉ entries.map Prod.fst, tree.heap.cell address = built.heap.cell address

theorem shown_nodup (shows : built.Shows (whole.map newNode)) : whole.addresses.Nodup := by
  rw [← AddrTree.addresses_map newNode whole]
  exact shows.nodup

theorem inOderThread_spec (shows : built.Shows (whole.map newNode)) (fuel : Nat)
    (enough : whole.height < fuel) :
    ∃ tree, inOderThread fuel built = .ok tree ∧ ThreadedTree built (inOrder whole) tree := by
  rcases inOderThreadFrom_spec whole fuel enough built.heap [] trivial shows.held
    (shown_nodup shows) with
    ⟨after, ran, threads, same⟩
  refine ⟨⟨after, built.root⟩, ?_, rfl, threads, ?_⟩
  · rw [inOderThread, shows.root_eq, AddrTree.pointer_map, show (none : Ptr) = lastOr none [] from
      rfl, ran]
    rfl
  · rw [map_fst_inOrder]
    exact same

theorem prevOderThread_spec (shows : built.Shows (whole.map newNode)) (fuel : Nat)
    (enough : whole.height < fuel) :
    ∃ tree, prevOderThread fuel built = .ok tree ∧ ThreadedTree built (preOrder whole) tree := by
  rcases prevOderThreadFrom_spec whole fuel enough built.heap [] trivial shows.held
    (shown_nodup shows) with
    ⟨after, ran, threads, same⟩
  refine ⟨⟨after, built.root⟩, ?_, rfl, threads, ?_⟩
  · rw [prevOderThread, shows.root_eq, AddrTree.pointer_map,
      show (none : Ptr) = lastOr none [] from rfl, ran]
    rfl
  · intro address outside
    rw [(map_fst_preOrder whole).mem_iff] at outside
    exact same address outside

theorem inOderThread_again (shows : built.Shows (whole.map newNode)) {tree : ThreadTree T}
    (done : ThreadedTree built (inOrder whole) tree) (fuel : Nat) (enough : whole.height < fuel) :
    inOderThread fuel tree = .ok tree := by
  have again := inOderThreadFrom_again whole fuel enough done.threads fun _ _ absurd_ =>
    nomatch absurd_
  rw [inOderThread, done.root_eq, shows.root_eq, AddrTree.pointer_map, again, Outcome.ok_bind,
    ← AddrTree.pointer_map newNode, ← shows.root_eq, ← done.root_eq]
  rfl

theorem inOderTraverse_spec (shows : built.Shows (whole.map newNode)) {tree : ThreadTree T}
    (done : ThreadedTree built (inOrder whole) tree) (fuel : Nat)
    (enough : whole.toList.length < fuel) : inOderTraverse fuel tree = .ok whole.toList := by
  have low := Nat.lt_of_le_of_lt whole.height_le_length enough
  have begins := beginPass_spec whole done.threads fuel low
  have leads := inOder_leads whole done.threads fuel low
  rw [inOderTraverse, begin, done.root_eq, shows.root_eq, AddrTree.pointer_map, begins,
    Outcome.ok_bind]
  exact leads.traverse [] fuel enough

theorem prevOderTraverse_spec (shows : built.Shows (whole.map newNode)) {tree : ThreadTree T}
    (done : ThreadedTree built (preOrder whole) tree) (fuel : Nat)
    (enough : (preOrder whole).length < fuel) :
    prevOderTraverse fuel tree = .ok ((preOrder whole).map fun entry => entry.2.data) := by
  have leads := prevOder_leads whole done.threads
  rw [Option.or_none] at leads
  rw [prevOderTraverse, done.root_eq, shows.root_eq, AddrTree.pointer_map]
  exact leads.traverse [] fuel (by rwa [List.length_map])

end Thread

theorem length_inOrder (tree : AddrTree T) : (inOrder tree).length = tree.toList.length := by
  rw [← data_inOrder, List.length_map]

/-- After in-order threading of any tree that an array describes, the iterators visit
the payloads in order. Child links stay as they were, the other links are threads to the
nodes before and after in order, and threading again changes nothing. -/
theorem inOderThread_faithful [DecidableEq T] (a : List T) (invalid : T) (nonempty : a ≠ [])
    (buildFuel : Nat) (buildEnough : a.length < buildFuel) :
    ∃ (built : ThreadTree T) (whole : AddrTree T), ofArray buildFuel a invalid = .ok built ∧
      built.Shows (whole.map newNode) ∧ ∀ fuel : Nat, whole.toList.length < fuel →
        ∃ tree, inOderThread fuel built = .ok tree ∧ tree.root = built.root ∧
          inOderTraverse fuel tree = .ok whole.toList ∧
          (∀ front address node back, inOrder whole = front ++ (address, node) :: back →
            built.heap.cell address = some (fresh node) ∧
            tree.heap.cell address =
              some (threaded node (lastOr none front) (firstOr none back))) ∧
          (∀ address ∉ whole.addresses, tree.heap.cell address = built.heap.cell address) ∧
          inOderThread fuel tree = .ok tree := by
  rcases ofArray_spec a invalid nonempty buildFuel buildEnough with ⟨built, whole, _, made, shows, _⟩
  refine ⟨built, whole, made, shows, fun fuel enough => ?_⟩
  have low := Nat.lt_of_le_of_lt whole.height_le_length enough
  rcases inOderThread_spec shows fuel low with ⟨tree, ran, done⟩
  refine ⟨tree, ran, done.root_eq, inOderTraverse_spec shows done fuel enough, ?_, ?_,
    inOderThread_again shows done fuel low⟩
  · intro front address node back split
    constructor
    · have member : (address, node) ∈ inOrder whole := by simp [split]
      exact fresh_of_held shows.held member
    · exact (split ▸ done.threads).cell
  · rw [← map_fst_inOrder]
    exact done.others

theorem inOderThread_faithful_small :
    ∃ (built : ThreadTree Int) (whole : AddrTree Int),
      ofArray 5 [1, 2, 35, 3] 35 = .ok built ∧
      built.Shows (whole.map newNode) ∧ ∀ fuel : Nat, whole.toList.length < fuel →
        ∃ tree, inOderThread fuel built = .ok tree ∧ tree.root = built.root ∧
          inOderTraverse fuel tree = .ok whole.toList ∧
          (∀ front address node back, inOrder whole = front ++ (address, node) :: back →
            built.heap.cell address = some (fresh node) ∧
            tree.heap.cell address =
              some (threaded node (lastOr none front) (firstOr none back))) ∧
          (∀ address ∉ whole.addresses, tree.heap.cell address = built.heap.cell address) ∧
          inOderThread fuel tree = .ok tree :=
  inOderThread_faithful [1, 2, 35, 3] 35 (by decide) 5 (by decide)

/-- After pre-order threading of any tree that an array describes, the iterators visit the
payloads in pre-order. Child links stay as they were, and the other links are threads. -/
theorem prevOderThread_faithful [DecidableEq T] (a : List T) (invalid : T) (nonempty : a ≠ [])
    (buildFuel : Nat) (buildEnough : a.length < buildFuel) :
    ∃ (built : ThreadTree T) (whole : AddrTree T), ofArray buildFuel a invalid = .ok built ∧
      built.Shows (whole.map newNode) ∧ ∀ fuel : Nat, (preOrder whole).length < fuel →
        ∃ tree, prevOderThread fuel built = .ok tree ∧ tree.root = built.root ∧
          prevOderTraverse fuel tree = .ok ((preOrder whole).map fun entry => entry.2.data) ∧
          ∀ front address node back, preOrder whole = front ++ (address, node) :: back →
            built.heap.cell address = some (fresh node) ∧
            tree.heap.cell address =
              some (threaded node (lastOr none front) (firstOr none back)) := by
  rcases ofArray_spec a invalid nonempty buildFuel buildEnough with ⟨built, whole, _, made, shows, _⟩
  refine ⟨built, whole, made, shows, fun fuel enough => ?_⟩
  have low : whole.height < fuel := by
    have short := whole.height_le_length
    rw [(preOrder_perm whole).length_eq, length_inOrder] at enough
    omega
  rcases prevOderThread_spec shows fuel low with ⟨tree, ran, done⟩
  refine ⟨tree, ran, done.root_eq, prevOderTraverse_spec shows done fuel enough, ?_⟩
  intro front address node back split
  constructor
  · have member : (address, node) ∈ inOrder whole := by
      rw [← (preOrder_perm whole).mem_iff, split]
      simp
    exact fresh_of_held shows.held member
  · exact (split ▸ done.threads).cell

theorem prevOderThread_faithful_small :
    ∃ (built : ThreadTree Int) (whole : AddrTree Int),
      ofArray 5 [1, 2, 35, 3] 35 = .ok built ∧
      built.Shows (whole.map newNode) ∧ ∀ fuel : Nat, (preOrder whole).length < fuel →
        ∃ tree, prevOderThread fuel built = .ok tree ∧ tree.root = built.root ∧
          prevOderTraverse fuel tree = .ok ((preOrder whole).map fun entry => entry.2.data) ∧
          ∀ front address node back, preOrder whole = front ++ (address, node) :: back →
            built.heap.cell address = some (fresh node) ∧
            tree.heap.cell address =
              some (threaded node (lastOr none front) (firstOr none back)) :=
  prevOderThread_faithful [1, 2, 35, 3] 35 (by decide) 5 (by decide)

end DataStructAlgorithm.DataStruct.ThreadTree
