import Mathlib.Order.Nat
import DataStructAlgorithm.DataStruct.AVLTree.Retrace

/-! # Runs of insertions into `AVLTree`

When a double rotation leaves a factor at `parent`, the loop goes on and counts
the rotated subtree as grown, once at its new root and then further up. The
factors are exact in the runs in which no insertion meets that case. -/

namespace DataStructAlgorithm.DataStruct.AVLTree

open Foundation

variable {Key Value : Type} [LinearOrder Key]

/-- After six insertions the root stores -1 though both its subtrees have height
two; two more and the tree is out of balance. -/
theorem insertAll_spoils_factor :
    (do
      let items := [10, 5, 20, 15, 25, 17].map fun key => (key, ())
      let tree ← insertAll 20 (.empty : AVLTree Nat Unit) items
      let root ← tree.heap.load tree.root
      let left ← isBalanceFrom 20 tree.heap root.left
      let right ← isBalanceFrom 20 tree.heap root.right
      pure (root.data.bf, left.2, right.2)) = .ok (-1, 2, 2) ∧
    (do
      let items := [10, 5, 20, 15, 25, 17, 12, 11].map fun key => (key, ())
      let tree ← insertAll 20 (.empty : AVLTree Nat Unit) items
      isBalance 20 tree) = .ok false :=
  ⟨rfl, rfl⟩

/-! ## The insertions that stay clear of it -/

/-- One step up from the place of the new leaf, past the nodes in balance. -/
def straightPass (heap : Store (Node Key Value)) (key : Key) (state : Ptr × List Side) :
    Outcome (Pass (Ptr × List Side) Bool) :=
  match state with
  | (none, _) => .ok (.leave true)
  | (some address, down) => do
      let node ← heap.load (some address)
      let side : Side := if node.data.key < key then .right else .left
      if node.data.bf = 0 then pure (.again (node.parent, side :: down))
      else pure (.leave (node.data.bf ≠ weight side || down.take 2 ≠ [side.other, side]))

/-- Whether the insertion avoids the double rotation that leaves a factor at
`parent`: below the lowest node of the path that is not in balance, the path does
not turn to the heavy side, back, and to the heavy side again. -/
def staysExact (fuel : Nat) (tree : AVLTree Key Value) (key : Key) : Outcome Bool := do
  match ← descend (against AVLData.key key) fuel tree.heap tree.root with
  | .found _ => pure true
  | .missing parent => repeatLoop (straightPass tree.heap key) fuel (parent, [])

theorem straight_of_passes {heap : Store (Node Key Value)} {focus : Ptr} {key : Key}
    {context : Context (AVLData Key Value)} (linked : LinkedContext heap focus context)
    (follows : Follows (against AVLData.key key) context) {down : List Side} {fuel : Nat}
    (passed : repeatLoop (straightPass heap key) fuel (Context.parent context, down) =
      .ok true) : Straight down context := by
  induction context generalizing focus down fuel with
  | nil => trivial
  | cons frame rest induction =>
      have found := linked.1
      have head := follows.head
      have sideEq : (if frame.data.key < key then Side.right else Side.left) = frame.side := by
        cases side : frame.side with
        | left =>
            rw [side] at head
            exact if_neg (not_lt_of_gt (against_eq_lt.mp head))
        | right =>
            rw [side] at head
            exact if_pos (against_eq_gt.mp head)
      cases fuel with
      | zero => cases passed
      | succ fuel =>
          rw [Straight]
          split
          · rename_i zero
            have pass : straightPass heap key (some frame.address, down) =
                .ok (.again (Context.parent rest, frame.side :: down)) := by
              simp [straightPass, Store.load_some found, Frame.node, zero, sideEq]
            rw [Context.parent_cons, repeatLoop_again _ pass] at passed
            exact induction linked.2.2 follows.tail passed
          · rename_i notZero
            have pass : straightPass heap key (some frame.address, down) =
                .ok (.leave (frame.data.bf ≠ weight frame.side ||
                  down.take 2 ≠ [frame.side.other, frame.side])) := by
              simp [straightPass, Store.load_some found, Frame.node, notZero, sideEq]
            rw [Context.parent_cons, repeatLoop_leave _ pass] at passed
            intro heavy
            simpa [heavy] using passed

/-! ## One insertion -/

section Insert

variable {tree : AVLTree Key Value} {whole : FactorTree Key Value}

/-- The invariant of the runs: a balanced search tree. -/
structure Exact (tree : AVLTree Key Value) (whole : FactorTree Key Value) : Prop where
  represents : Represents tree.heap tree.root whole
  balanced : Balanced whole
  sorted : Sorted AVLData.key whole

theorem exact_empty : Exact (.empty : AVLTree Key Value) .nil where
  represents := ⟨rfl, trivial, List.nodup_nil⟩
  balanced := trivial
  sorted := List.Pairwise.nil

theorem insert_root (rootEq : tree.root = none) (key : Key) (value : Value) (fuel : Nat) :
    ∃ after, insert fuel tree key value = .ok (after, true) ∧
      Exact after (.node .nil tree.heap.next ⟨key, value, 0⟩ .nil) := by
  refine ⟨_, by rw [insert, rootEq]; rfl, ⟨rfl, ?_, by simp [AddrTree.addresses]⟩, ?_, ?_⟩
  · exact ⟨by simp, trivial, trivial⟩
  · exact ⟨by simp [AddrTree.height], by simp, trivial, trivial⟩
  · simp [Sorted, keys, AddrTree.entries]

theorem insert_missing {frame : Frame (AVLData Key Value)} {rest : Context (AVLData Key Value)}
    (exact : Exact tree (Context.plug .nil (frame :: rest))) {key : Key}
    (follows : Follows (against AVLData.key key) (frame :: rest)) {fuel : Nat}
    (descended : descend (against AVLData.key key) fuel tree.heap tree.root =
      .ok (.missing (some frame.address)))
    (straight : staysExact fuel tree key = .ok true) (value : Value)
    (enough : (frame :: rest).length + 1 < fuel) :
    ∃ after larger, insert fuel tree key value = .ok (after, true) ∧ Exact after larger ∧
      (keys AVLData.key larger).length =
        (keys AVLData.key (Context.plug .nil (frame :: rest))).length + 1 := by
  have parts := (represents_plug _ _).mp exact.represents
  rcases attach_represents exact.represents follows ⟨key, value, 0⟩ with
    ⟨heap, attached, leafRep⟩
  have passed : Straight [] (frame :: rest) := by
    apply straight_of_passes parts.above follows
    rw [staysExact, descended, Outcome.ok_bind] at straight
    exact straight
  have increasing := follows.sorted_leaf exact.sorted ⟨key, value, 0⟩ rfl tree.heap.next
  have above := (balanced_plug _ _).mp exact.balanced
  have climb : Climb ⟨heap, tree.root⟩ (.node .nil tree.heap.next ⟨key, value, 0⟩ .nil)
      (frame :: rest) [] _ :=
    ⟨leafRep, ⟨by simp [AddrTree.height], by simp, trivial, trivial⟩, ⟨0, rfl, above.2⟩,
      ⟨_, _, rfl, rfl⟩, passed, rfl⟩
  rcases retrace_finishes climb increasing fuel enough with
    ⟨after, returned, larger, represents, balanced, keysEq⟩
  rcases Context.exists_pointer_plug .nil frame rest with ⟨root, rootEq⟩
  have notEmpty : tree.root = some root := by rw [exact.represents.root_eq, rootEq]
  refine ⟨after, larger, ?_, ⟨represents, balanced, by rwa [Sorted, keysEq]⟩, ?_⟩
  · simp only [insert, notEmpty] at descended ⊢
    rw [descended, Outcome.ok_bind]
    simp only [attached, Outcome.ok_bind]
    rw [← notEmpty]
    exact returned
  · rw [keysEq]
    simp only [keys, Context.entries_plug, AddrTree.entries, List.length_map,
      List.length_append, List.length_cons, List.length_nil]
    omega

/-- One insertion keeps the factors exact. -/
theorem Exact.insert (exact : Exact tree whole) (key : Key) (value : Value) (fuel : Nat)
    (straight : staysExact fuel tree key = .ok true) (enough : whole.height + 1 < fuel) :
    ∃ after flag larger, AVLTree.insert fuel tree key value = .ok (after, flag) ∧
      Exact after larger ∧
      (keys AVLData.key larger).length ≤ (keys AVLData.key whole).length + 1 := by
  cases whole with
  | nil =>
      rcases insert_root exact.represents.root_eq key value fuel with ⟨after, returned, result⟩
      exact ⟨after, true, _, returned, result, by simp [keys, AddrTree.entries]⟩
  | node left address data right =>
      rcases descend_locates (against AVLData.key key) exact.represents fuel (by omega) with
        ⟨result, descended, located⟩
      cases result with
      | found cur =>
          refine ⟨tree, false, _, ?_, exact, Nat.le_succ _⟩
          have notEmpty : tree.root = some address := exact.represents.root_eq
          simp only [AVLTree.insert, notEmpty] at descended ⊢
          rw [descended, Outcome.ok_bind]
          rfl
      | missing parent =>
          rcases located with ⟨context, parentEq, wholeEq, follows⟩
          cases context with
          | nil => cases wholeEq
          | cons frame rest =>
              have heightLe := Context.length_le_height (.nil : FactorTree Key Value) (frame :: rest)
              rw [wholeEq] at exact enough ⊢
              rw [parentEq, Context.parent_cons] at descended
              rcases insert_missing exact follows descended straight value (by omega) with
                ⟨after, larger, returned, result, lengthEq⟩
              exact ⟨after, true, larger, returned, result, le_of_eq lengthEq⟩

end Insert

/-! ## Runs -/

/-- Every insertion of the run stays clear of the loop's slip. -/
def AllStayExact (fuel : Nat) : AVLTree Key Value → List (Key × Value) → Prop
  | _, [] => True
  | tree, item :: rest => staysExact fuel tree item.1 = .ok true ∧
      ∀ after flag, insert fuel tree item.1 item.2 = .ok (after, flag) →
        AllStayExact fuel after rest

theorem AllStayExact.cons {fuel : Nat} {tree after : AVLTree Key Value} {item : Key × Value}
    {rest : List (Key × Value)} {flag : Bool} (stays : staysExact fuel tree item.1 = .ok true)
    (returned : insert fuel tree item.1 item.2 = .ok (after, flag))
    (others : AllStayExact fuel after rest) : AllStayExact fuel tree (item :: rest) := by
  refine ⟨stays, fun result other equal => ?_⟩
  rw [returned] at equal
  cases equal
  exact others

theorem Exact.insertAll {tree : AVLTree Key Value} {whole : FactorTree Key Value}
    (exact : Exact tree whole) (items : List (Key × Value)) (fuel : Nat)
    (stay : AllStayExact fuel tree items)
    (enough : (keys AVLData.key whole).length + items.length + 1 < fuel) :
    ∃ after larger, AVLTree.insertAll fuel tree items = .ok after ∧ Exact after larger ∧
      larger.height < fuel := by
  have heightLe : whole.height ≤ (keys AVLData.key whole).length := by
    simpa [keys, AddrTree.toList] using whole.height_le_length
  induction items generalizing tree whole with
  | nil => exact ⟨tree, whole, rfl, exact, by omega⟩
  | cons item rest induction =>
      rw [List.length_cons] at enough
      rcases exact.insert item.1 item.2 fuel stay.1 (by omega) with
        ⟨middle, flag, larger, returned, middleExact, lengthLe⟩
      have largerHeight : larger.height ≤ (keys AVLData.key larger).length := by
        simpa [keys, AddrTree.toList] using larger.height_le_length
      rcases induction middleExact (stay.2 middle flag returned) (by omega) largerHeight with
        ⟨after, final, finished, finalExact, finalHeight⟩
      refine ⟨after, final, ?_, finalExact, finalHeight⟩
      rw [AVLTree.insertAll, returned, Outcome.ok_bind]
      exact finished

/-- In every run that stays clear of the slip the stored factors are exact, and
`isBalance` confirms the balance. -/
theorem insertAll_balanced (items : List (Key × Value)) (fuel : Nat)
    (enough : items.length + 1 < fuel)
    (stay : AllStayExact fuel (.empty : AVLTree Key Value) items) :
    ∃ tree whole, insertAll fuel .empty items = .ok tree ∧
      Represents tree.heap tree.root whole ∧ Balanced whole ∧ isBalance fuel tree = .ok true := by
  rcases exact_empty.insertAll items fuel stay (by simpa [keys, AddrTree.entries] using enough)
    with ⟨tree, whole, returned, exact, heightLt⟩
  have checked := isBalanceFrom_balanced exact.represents.linked exact.balanced fuel heightLt
  refine ⟨tree, whole, returned, exact.represents, exact.balanced, ?_⟩
  rw [isBalance, exact.represents.root_eq, checked]
  rfl

theorem insertAll_balanced_three :
    ∃ tree whole, insertAll 10 (.empty : AVLTree Nat Unit) [(3, ()), (1, ()), (2, ())] =
        .ok tree ∧
      Represents tree.heap tree.root whole ∧ Balanced whole ∧ isBalance 10 tree = .ok true :=
  insertAll_balanced _ 10 (by decide)
    (.cons rfl rfl (.cons rfl rfl (.cons rfl rfl trivial)))

end DataStructAlgorithm.DataStruct.AVLTree
