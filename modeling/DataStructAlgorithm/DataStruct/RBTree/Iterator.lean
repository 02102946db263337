import DataStructAlgorithm.DataStruct.RBTree.RbTree

/-! # Iteration between `Begin` and `End`, and back

The operators of `_rb_tree_iterator`, and the walks they make over a represented
tree. What holds of a walk to the right holds of one to the left: the facts about
both are stated once, for a walk `towards` a side. -/

namespace DataStructAlgorithm.DataStruct.RBTree

open Foundation

variable {Data : Type}

/-- One pass of `while (cur->_left) cur = cur->_left`, or of its mirror image. -/
def outermostPass (side : Side) (heap : Store (TreeNode Data)) (cur : Ptr) :
    Outcome (Pass Ptr Ptr) := do
  let node ← heap.load cur
  match node.child side with
  | none => pure (.leave cur)
  | some next => pure (.again (some next))

/-- One pass of `while (parent && parent->_right == cur)`, or of its mirror image,
over the variables `cur` and `parent`. -/
def climbPass (side : Side) (heap : Store (TreeNode Data)) (state : Ptr × Ptr) :
    Outcome (Pass (Ptr × Ptr) Ptr) :=
  match state.2 with
  | none => .ok (.leave none)
  | some parent => do
      let above ← heap.load (some parent)
      if above.child side = state.1 then pure (.again (some parent, above.parent))
      else pure (.leave (some parent))

/-- `parent && parent->_left == cur` -/
def isLeftChild (heap : Store (TreeNode Data)) (parent cur : Ptr) : Outcome Bool :=
  match parent with
  | none => .ok false
  | some _ => do
      let above ← heap.load parent
      pure (above.left = cur)

/-- `operator++` -/
def increment (fuel : Nat) (heap : Store (TreeNode Data)) (node : Ptr) : Outcome Ptr :=
  match node with
  | none => .ok none
  | some _ => do
      let cur ← heap.load node
      match cur.right with
      | some right => repeatLoop (outermostPass .left heap) fuel (some right)
      | none =>
          if ← isLeftChild heap cur.parent node then pure cur.parent
          else repeatLoop (climbPass .right heap) fuel (node, cur.parent)

def begin (fuel : Nat) (heap : Store (TreeNode Data)) (root : Ptr) : Outcome Ptr :=
  match root with
  | none => .ok none
  | some _ => repeatLoop (outermostPass .left heap) fuel root

/-- `operator--`. It has no branch of its own for a right child. -/
def decrement (fuel : Nat) (heap : Store (TreeNode Data)) (node : Ptr) : Outcome Ptr :=
  match node with
  | none => .ok none
  | some _ => do
      let cur ← heap.load node
      match cur.left with
      | some left => repeatLoop (outermostPass .right heap) fuel (some left)
      | none => repeatLoop (climbPass .left heap) fuel (node, cur.parent)

/-- One pass of `while (cur && cur->_right)`. -/
def rBeginPass (heap : Store (TreeNode Data)) (cur : Ptr) : Outcome (Pass Ptr Ptr) :=
  match cur with
  | none => .ok (.leave none)
  | some _ => outermostPass .right heap cur

def rBegin (fuel : Nat) (heap : Store (TreeNode Data)) (root : Ptr) : Outcome Ptr :=
  repeatLoop (rBeginPass heap) fuel root

/-- One pass of `while (it != End()) { .. *it ..; ++it; }`, over the iterator and
the payloads visited so far. -/
def traversePass (fuel : Nat) (heap : Store (TreeNode Data)) (state : Ptr × List Data) :
    Outcome (Pass (Ptr × List Data) (List Data)) :=
  match state.1 with
  | none => .ok (.leave state.2)
  | some _ => do
      let node ← heap.load state.1
      let next ← increment fuel heap state.1
      pure (.again (next, state.2 ++ [node.data]))

def traverse (fuel : Nat) (heap : Store (TreeNode Data)) (root : Ptr) :
    Outcome (List Data) := do
  let first ← begin fuel heap root
  repeatLoop (traversePass fuel heap) fuel (first, [])

/-- One pass of such a loop in either direction. `step` moves the iterator, and
`note` is what the body keeps of the node it stands at. -/
def visitPass (step : Ptr → Outcome Ptr) (note : Nat × Data → Item)
    (heap : Store (TreeNode Data)) (state : Ptr × List Item) :
    Outcome (Pass (Ptr × List Item) (List Item)) :=
  match state.1 with
  | none => .ok (.leave state.2)
  | some address => do
      let node ← heap.load (some address)
      let next ← step (some address)
      pure (.again (next, state.2 ++ [note (address, node.data)]))

/-- From `Begin` by `++` until the iterator equals `End`. -/
def forward (note : Nat × Data → Item) (fuel : Nat) (heap : Store (TreeNode Data))
    (root : Ptr) : Outcome (List Item) := do
  let first ← begin fuel heap root
  repeatLoop (visitPass (increment fuel heap) note heap) fuel (first, [])

/-- From `rBegin` by `--` until the iterator equals `rEnd`. -/
def backward (note : Nat × Data → Item) (fuel : Nat) (heap : Store (TreeNode Data))
    (root : Ptr) : Outcome (List Item) := do
  let first ← rBegin fuel heap root
  repeatLoop (visitPass (decrement fuel heap) note heap) fuel (first, [])

/-! ## The walk -/

/-- The pointer to the first of some nodes. -/
def firstPointer (entries : List (Nat × Data)) : Ptr :=
  entries.head?.map Prod.fst

variable {heap : Store (TreeNode Data)} {root : Ptr}

theorem firstPointer_append {first : List (Nat × Data)} (nonempty : first ≠ [])
    (second : List (Nat × Data)) : firstPointer (first ++ second) = firstPointer first := by
  cases first with
  | nil => exact absurd rfl nonempty
  | cons head tail => rfl

theorem walk_ne_nil (towards : Side) {tree : AddrTree Data} (notNil : tree ≠ .nil) :
    tree.walk towards ≠ [] := by
  cases tree with
  | nil => exact absurd rfl notNil
  | node left address data right => cases towards <;> simp [AddrTree.walk, AddrTree.entries]

/-- Following the links away from `towards` leads to the first node of a subtree. -/
theorem outermost_spec (towards : Side) {tree : AddrTree Data} {up : Ptr}
    (linked : Linked heap up tree) (notNil : tree ≠ .nil) (fuel : Nat)
    (enough : tree.height < fuel) :
    repeatLoop (outermostPass towards.other heap) fuel tree.pointer =
      .ok (firstPointer (tree.walk towards)) := by
  induction tree using AddrTree.oriented_induction towards.other generalizing up fuel with
  | nil => exact absurd rfl notNil
  | oriented near address data far nearInduction _ =>
      rcases (Linked.oriented_iff ..).mp linked with ⟨found, nearLinked, _⟩
      rw [AddrTree.height_oriented] at enough
      rw [AddrTree.walk_oriented, AddrTree.pointer_oriented]
      have loaded := Store.load_some found
      cases fuel with
      | zero => omega
      | succ fuel =>
          by_cases empty : near = .nil
          · subst near
            apply repeatLoop_leave
            simp [outermostPass, loaded, firstPointer]
          · have pass : outermostPass towards.other heap (some address) =
                .ok (.again near.pointer) := by
              cases near with
              | nil => exact absurd rfl empty
              | node inner lower lowerData outer => simp [outermostPass, loaded]
            rw [repeatLoop_again fuel pass, firstPointer_append (walk_ne_nil towards empty)]
            exact nearInduction nearLinked empty fuel (by omega)

/-- Climbing while the node is a far child leads to the first node after the
subtree. -/
theorem climb_spec (towards : Side) {tree : AddrTree Data} {context : Context Data}
    (represents : RepresentsAt heap root tree context) (notNil : tree ≠ .nil) (fuel : Nat)
    (enough : context.length < fuel) :
    repeatLoop (climbPass towards heap) fuel (tree.pointer, Context.parent context) =
      .ok (firstPointer (Context.ahead towards context)) := by
  induction context generalizing tree fuel with
  | nil =>
      cases fuel with
      | zero => cases enough
      | succ fuel =>
          rw [Context.ahead_nil]
          exact repeatLoop_leave fuel rfl
  | cons frame rest induction =>
      have above := (representsAt_fill tree frame rest).mpr represents
      have loaded := Store.load_some represents.above.1
      cases fuel with
      | zero => cases enough
      | succ fuel =>
          by_cases far : frame.side = towards
          · have pass : climbPass towards heap (tree.pointer, Context.parent (frame :: rest)) =
                .ok (.again (some frame.address, Context.parent rest)) := by
              simp [climbPass, loaded, Frame.node, ← far]
            have filled : frame.fill tree ≠ .nil := by
              intro equal
              have pointerEq := Frame.pointer_fill frame tree
              rw [equal] at pointerEq
              cases pointerEq
            rw [repeatLoop_again fuel pass, Context.ahead_far far, ← Frame.pointer_fill frame tree]
            exact induction above filled fuel (by simpa using enough)
          · have near : frame.side = towards.other := Side.eq_other_of_ne far
            have different : frame.sibling.pointer ≠ tree.pointer :=
              represents.sibling_ne notNil
            have hangs : (frame.node tree.pointer (Context.parent rest)).child towards =
                frame.sibling.pointer := by
              rw [Frame.node, near, TreeNode.oriented_other, TreeNode.oriented_child_same]
            apply repeatLoop_leave
            simp [climbPass, loaded, hangs, different, Context.ahead_near near, firstPointer]

/-- A pass that goes on stands at a node. -/
theorem outermostPass_again {side : Side} {cur next : Ptr}
    (pass : outermostPass side heap cur = .ok (.again next)) : ∃ lower, next = some lower := by
  rcases Outcome.bind_eq_ok pass with ⟨node, _, chosen⟩
  cases link : node.child side with
  | none => simp [link] at chosen
  | some lower =>
      simp only [link, Outcome.pure_eq_ok, Except.ok.injEq, Pass.again.injEq] at chosen
      exact ⟨lower, chosen.symm⟩

section Operators

variable {left right : AddrTree Data} {address : Nat} {data : Data} {context : Context Data}

/-- `operator++` leads from a node to the first of those after it. -/
theorem increment_spec
    (represents : RepresentsAt heap root (.node left address data right) context) (fuel : Nat)
    (enough : right.height < fuel ∧ context.length < fuel) :
    increment fuel heap (some address) =
      .ok (firstPointer (right.entries ++ Context.after context)) := by
  rcases represents.focus with ⟨found, _, rightLinked⟩
  have loaded := Store.load_some found
  have climbed := climb_spec .right represents (by simp) fuel enough.2
  cases right with
  | node inner lower lowerData outer =>
      have entered := outermost_spec .right rightLinked (by simp) fuel enough.1
      have nonempty : (AddrTree.node inner lower lowerData outer).entries ≠ [] := by
        simp [AddrTree.entries]
      rw [firstPointer_append nonempty]
      simpa [increment, loaded, Side.other] using entered
  | nil =>
      cases context with
      | nil => simpa [increment, loaded, isLeftChild, AddrTree.entries, Context.after] using climbed
      | cons frame rest =>
          have foundParent := Store.load_some represents.above.1
          cases side : frame.side with
          | left =>
              simp [increment, loaded, isLeftChild, foundParent, Frame.node, side,
                TreeNode.oriented, AddrTree.entries, Context.after, Frame.after, firstPointer]
          | right =>
              have different : frame.sibling.pointer ≠ some address :=
                represents.sibling_ne (by simp)
              simpa [increment, loaded, isLeftChild, foundParent, Frame.node, side,
                TreeNode.oriented, different, AddrTree.entries] using climbed

/-- `operator--` leads from a node to the last of those before it. -/
theorem decrement_spec
    (represents : RepresentsAt heap root (.node left address data right) context) (fuel : Nat)
    (enough : left.height < fuel ∧ context.length < fuel) :
    decrement fuel heap (some address) =
      .ok (firstPointer (Context.before context ++ left.entries).reverse) := by
  rcases represents.focus with ⟨found, leftLinked, _⟩
  have loaded := Store.load_some found
  rw [List.reverse_append]
  cases left with
  | node inner lower lowerData outer =>
      have entered := outermost_spec .left leftLinked (by simp) fuel enough.1
      have nonempty : (AddrTree.node inner lower lowerData outer).entries.reverse ≠ [] := by
        simp [AddrTree.entries]
      rw [firstPointer_append nonempty]
      simpa [decrement, loaded, Side.other] using entered
  | nil =>
      have climbed := climb_spec .left represents (by simp) fuel enough.2
      simpa [decrement, loaded, AddrTree.entries] using climbed

end Operators

/-- Every node is the focus of a way to take the tree apart. -/
theorem exists_focus {tree : AddrTree Data} {done rest : List (Nat × Data)} {address : Nat}
    {data : Data} (split : tree.entries = done ++ (address, data) :: rest) :
    ∃ left right context, tree = Context.plug (.node left address data right) context ∧
      done = Context.before context ++ left.entries ∧
      rest = right.entries ++ Context.after context := by
  suffices located : ∀ (tree : AddrTree Data) (above : Context Data) (done rest : _),
      tree.entries = done ++ (address, data) :: rest →
      ∃ left right context,
        Context.plug tree above = Context.plug (.node left address data right) context ∧
        Context.before above ++ done = Context.before context ++ left.entries ∧
        rest ++ Context.after above = right.entries ++ Context.after context by
    rcases located tree [] done rest split with ⟨left, right, context, plugged, before, after⟩
    exact ⟨left, right, context, plugged, by simpa [Context.before] using before,
      by simpa [Context.after] using after⟩
  intro tree
  induction tree with
  | nil => intro above done rest split; simp [AddrTree.entries] at split
  | node first here hereData second firstInduction secondInduction =>
      intro above done rest split
      rw [AddrTree.entries] at split
      rcases List.append_eq_append_iff.mp split with ⟨extra, doneEq, tailEq⟩ | ⟨extra, firstEq, tailEq⟩
      · cases extra with
        | nil =>
            simp only [List.nil_append, List.cons.injEq, Prod.mk.injEq] at tailEq
            rcases tailEq with ⟨⟨rfl, rfl⟩, rfl⟩
            exact ⟨first, second, above, rfl, by simpa using doneEq, rfl⟩
        | cons head extra =>
            simp only [List.cons_append, List.cons.injEq] at tailEq
            rcases tailEq with ⟨rfl, tailEq⟩
            rcases secondInduction (⟨.right, here, hereData, first⟩ :: above) extra rest tailEq
              with ⟨left, right, context, plugged, before, after⟩
            refine ⟨left, right, context, plugged, ?_, ?_⟩
            · rw [← before, doneEq]
              simp [Context.before, Frame.before]
            · simpa [Context.after, Frame.after] using after
      · cases extra with
        | nil =>
            simp only [List.nil_append, List.cons.injEq, Prod.mk.injEq] at tailEq
            rcases tailEq with ⟨⟨rfl, rfl⟩, rfl⟩
            exact ⟨first, second, above, rfl, by simpa using firstEq.symm, rfl⟩
        | cons head extra =>
            simp only [List.cons_append, List.cons.injEq] at tailEq
            rcases tailEq with ⟨rfl, rfl⟩
            rcases firstInduction (⟨.left, here, hereData, second⟩ :: above) done extra firstEq
              with ⟨left, right, context, plugged, before, after⟩
            refine ⟨left, right, context, plugged, ?_, ?_⟩
            · simpa [Context.before, Frame.before] using before
            · simpa [Context.after, Frame.after] using after

section Neighbours

variable {tree : AddrTree Data} {done rest : List (Nat × Data)} {address : Nat} {data : Data}

theorem increment_next (represents : Represents heap root tree)
    (split : tree.entries = done ++ (address, data) :: rest) (fuel : Nat)
    (enough : tree.height < fuel) :
    increment fuel heap (some address) = .ok (firstPointer rest) := by
  rcases exists_focus split with ⟨left, right, context, plugged, _, after⟩
  have atFocus := (represents_plug _ _).mp (plugged ▸ represents)
  have height := Context.length_le_height (.node left address data right) context
  rw [← plugged] at height
  simp only [AddrTree.height] at height
  rw [after]
  exact increment_spec atFocus fuel (by omega)

theorem decrement_next (represents : Represents heap root tree)
    (split : tree.entries = done ++ (address, data) :: rest) (fuel : Nat)
    (enough : tree.height < fuel) :
    decrement fuel heap (some address) = .ok (firstPointer done.reverse) := by
  rcases exists_focus split with ⟨left, right, context, plugged, before, _⟩
  have atFocus := (represents_plug _ _).mp (plugged ▸ represents)
  have height := Context.length_le_height (.node left address data right) context
  rw [← plugged] at height
  simp only [AddrTree.height] at height
  rw [before]
  exact decrement_spec atFocus fuel (by omega)

end Neighbours

/-- The iterator of `rBegin` never becomes null once it is not. -/
theorem rBegin_eq_outermost (fuel : Nat) (address : Nat) :
    repeatLoop (rBeginPass heap) fuel (some address) =
      repeatLoop (outermostPass .right heap) fuel (some address) := by
  induction fuel generalizing address with
  | zero => rfl
  | succ fuel induction =>
      cases pass : outermostPass .right heap (some address) with
      | error fault => simp [repeatLoop, rBeginPass, pass]
      | ok ended =>
          cases ended with
          | leave result =>
              rw [repeatLoop_leave fuel pass, repeatLoop_leave fuel (by simpa [rBeginPass] using pass)]
          | again next =>
              rw [repeatLoop_again fuel pass, repeatLoop_again fuel (by simpa [rBeginPass] using pass)]
              rcases outermostPass_again pass with ⟨lower, rfl⟩
              exact induction lower

section Walks

variable {tree : AddrTree Data} (represents : Represents heap root tree) (fuel : Nat)
include represents

theorem begin_spec (enough : tree.height < fuel) :
    begin fuel heap root = .ok (firstPointer tree.entries) := by
  rw [represents.root_eq]
  cases tree with
  | nil => rfl
  | node left address data right =>
      exact outermost_spec .right represents.linked (by simp) fuel enough

theorem rBegin_spec (enough : tree.height < fuel) :
    rBegin fuel heap root = .ok (firstPointer tree.entries.reverse) := by
  rw [represents.root_eq, rBegin]
  cases tree with
  | nil =>
      cases fuel with
      | zero => omega
      | succ fuel => exact repeatLoop_leave fuel rfl
  | node left address data right =>
      rw [AddrTree.pointer_node, rBegin_eq_outermost]
      exact outermost_spec .left represents.linked (by simp) fuel enough

/-- A loop whose step leads from each node of a list to the next visits the list. -/
theorem visit_spec {listed : List (Nat × Data)} {step : Ptr → Outcome Ptr}
    (note : Nat × Data → Item) (stored : ∀ entry ∈ listed, entry ∈ tree.entries)
    (steps : ∀ done address data rest, listed = done ++ (address, data) :: rest →
      step (some address) = .ok (firstPointer rest))
    (enough : listed.length < fuel) :
    repeatLoop (visitPass step note heap) fuel (firstPointer listed, []) =
      .ok (listed.map note) := by
  have looped : ∃ result, repeatLoop (visitPass step note heap) fuel
      (firstPointer listed, []) = .ok result ∧ result = listed.map note := by
    refine repeatLoop_total
      (fun bound state => ∃ done rest, listed = done ++ rest ∧
        state = (firstPointer rest, done.map note) ∧ rest.length = bound)
      (fun result => result = listed.map note) ?_ fuel listed.length
      (firstPointer listed, []) ⟨[], listed, rfl, rfl, rfl⟩ enough
    intro bound state holds
    rcases holds with ⟨done, rest, split, rfl, rfl⟩
    cases rest with
    | nil => exact Or.inr ⟨_, rfl, by simp [split]⟩
    | cons entry rest =>
        rcases entry with ⟨address, data⟩
        have member : (address, data) ∈ listed := by simp [split]
        rcases represents.linked.found (stored _ member) with ⟨node, found, dataEq⟩
        have stepped := steps done address data rest split
        refine Or.inl ⟨(firstPointer rest, done.map note ++ [note (address, data)]),
          rest.length, ?_, by simp, done ++ [(address, data)], rest, by simp [split], by simp, rfl⟩
        simp [visitPass, firstPointer, Store.load_some found, stepped, dataEq]
  rcases looped with ⟨result, returned, equal⟩
  rw [returned, equal]

/-- Iteration from `Begin` to `End` ends and visits every node once, in order. -/
theorem forward_spec (note : Nat × Data → Item) (enough : tree.entries.length < fuel) :
    forward note fuel heap root = .ok (tree.entries.map note) := by
  have heightBound := tree.height_le_length
  simp only [AddrTree.toList, List.length_map] at heightBound
  rw [forward, begin_spec represents fuel (by omega), Outcome.ok_bind]
  apply visit_spec represents fuel note (fun entry member => member) _ enough
  intro done address data rest split
  exact increment_next represents split fuel (by omega)

/-- Iteration from `rBegin` to `rEnd` visits the nodes in the opposite order. -/
theorem backward_spec (note : Nat × Data → Item) (enough : tree.entries.length < fuel) :
    backward note fuel heap root = .ok (tree.entries.reverse.map note) := by
  have heightBound := tree.height_le_length
  simp only [AddrTree.toList, List.length_map] at heightBound
  rw [backward, rBegin_spec represents fuel (by omega), Outcome.ok_bind]
  apply visit_spec represents fuel note _ _ (by simpa using enough)
  · intro entry member
    exact List.mem_reverse.mp member
  · intro done address data rest split
    have forwards : tree.entries = rest.reverse ++ (address, data) :: done.reverse := by
      rw [← List.reverse_inj, split]
      simp
    rw [decrement_next represents forwards fuel (by omega), List.reverse_reverse]

/-- The walk that keeps the payloads. -/
theorem traverse_spec (enough : tree.toList.length < fuel) :
    traverse fuel heap root = .ok tree.toList := by
  have same : ∀ state, traversePass fuel heap state =
      visitPass (increment fuel heap) Prod.snd heap state := by
    intro state
    rcases state with ⟨pointer, visited⟩
    cases pointer <;> rfl
  have visited := forward_spec represents fuel Prod.snd (by simpa [AddrTree.toList] using enough)
  rw [traverse, funext same]
  exact visited

end Walks

end DataStructAlgorithm.DataStruct.RBTree
