import Mathlib.Order.Nat
import DataStructAlgorithm.DataStruct.AVLTree.Rising

/-! # The contents of an `AVLTree`

Whatever the factors are, an insertion ends and hangs its pair where the order of
the keys wants it. It answers false for a new key in one case: when the parent of
the new leaf already leans to the side where it has no child. -/

namespace DataStructAlgorithm.DataStruct.AVLTree

open Foundation

variable {Key Value : Type} [LinearOrder Key]

/-- After ten insertions the key 9 is linked, but the answer is false. -/
theorem insert_denies_new_key :
    (do
      let items := [11, 4, 5, 3, 1, 0, 10, 7, 8, 9].map fun key => (key, ())
      let tree ← insertAll 40 (.empty : AVLTree Nat Unit) items
      let (tree, flag) ← insert 40 tree 6 ()
      let listed ← inOder 40 tree
      pure (flag, listed.map Prod.fst)) =
    .ok (false, [0, 1, 3, 4, 5, 6, 7, 8, 9, 10, 11]) :=
  rfl

/-! ## A new leaf -/

section Leaf

variable {tree : AVLTree Key Value} {frame : Frame (AVLData Key Value)}
  {rest : Context (AVLData Key Value)} {listed : List (Key × Value)}

/-- The loop gives up below a parent that already leans to the new leaf. -/
theorem retrace_gives_up {address : Nat} {data : AVLData Key Value}
    (rising : Rising tree (.node .nil address data .nil) (frame :: rest) listed)
    (level : data.bf = 0) (heavy : frame.data.bf = weight frame.side) (fuel : Nat) :
    ∃ after whole, repeatLoop retracePass (fuel + 2)
        ⟨tree, some address, some frame.address⟩ = .ok (after, false) ∧
      Represents after.heap after.root whole ∧ pairs whole = listed := by
  rcases retracePass_frame rising.represents rising.notNil with ⟨heap, heapRep, _, _, turn⟩
  have double : (retraced frame).data.bf = 2 * weight frame.side := by
    rw [retraced_bf, heavy]
    omega
  have foundFrame : heap.cell frame.address =
      some ((retraced frame).node (some address) (Context.parent rest)) := heapRep.above.1
  have foundLeaf : heap.cell address = some ⟨data, none, none, some frame.address⟩ :=
    heapRep.focus.1
  have unturned : rebalance frame.side ⟨heap, tree.root⟩ (some frame.address) =
      .ok ⟨heap, tree.root⟩ := by
    cases side : frame.side <;>
      simp [rebalance, Store.load_some foundFrame, Store.load_some foundLeaf, Frame.node,
        TreeNode.oriented, TreeNode.child, side, level]
  have again : retracePass ⟨tree, some address, some frame.address⟩ =
      .ok (.again ⟨⟨heap, tree.root⟩, some address, some frame.address⟩) := by
    have turned := turn double
    rw [unturned, Outcome.ok_bind] at turned
    exact turned
  rcases updateFactor_frame heapRep rising.notNil with ⟨after, wrote, afterRep⟩
  have foundAgain : after.cell frame.address =
      some ((retraced (retraced frame)).node (some address) (Context.parent rest)) :=
    afterRep.above.1
  have triple : (retraced (retraced frame)).data.bf = 3 * weight frame.side := by
    rw [retraced_bf, retraced_side, double]
    omega
  have leaves : retracePass ⟨⟨heap, tree.root⟩, some address, some frame.address⟩ =
      .ok (.leave (⟨after, tree.root⟩, false)) := by
    simp only [retracePass]
    rw [show updateFactor heap (some address) (some frame.address) = .ok after from wrote]
    have data : ((retraced (retraced frame)).node (some address) (Context.parent rest)).data.bf =
        3 * weight frame.side := by
      rw [Frame.node, TreeNode.oriented_data, triple]
    rcases weight_eq frame.side with value | value <;>
      simp [Store.load_some foundAgain, data, value]
  refine ⟨⟨after, tree.root⟩, Context.plug ((retraced (retraced frame)).fill _) rest, ?_,
    (represents_plug _ _).mpr ((representsAt_fill _ _ _).mpr afterRep), ?_⟩
  · rw [repeatLoop_again (fuel + 1) again]
    exact repeatLoop_leave fuel leaves
  · rw [pairs_retraced, Context.plug_cons, Frame.fill]
    have once := pairs_retraced (.node .nil address data .nil) frame rest
    rw [rising.pairsEq] at once
    exact once

/-- The loop as it starts at a new leaf. The answer is false exactly if the parent
already leans to the leaf. -/
theorem retrace_leaf {address : Nat} {data : AVLData Key Value}
    (rising : Rising tree (.node .nil address data .nil) (frame :: rest) listed)
    (level : data.bf = 0) (increasing : (listed.map Prod.fst).Pairwise (· < ·)) (fuel : Nat)
    (enough : 3 * (rest.length + 1) < fuel) :
    ∃ after whole flag, repeatLoop retracePass fuel
        ⟨tree, some address, some frame.address⟩ = .ok (after, flag) ∧
      Represents after.heap after.root whole ∧ pairs whole = listed ∧
      (flag = true ↔ frame.data.bf ≠ weight frame.side) ∧ (flag = true → Bounded whole) := by
  have spare : ∃ more, fuel = more + 2 ∧ 3 * rest.length < more + 1 :=
    ⟨fuel - 2, by omega, by omega⟩
  rcases spare with ⟨more, rfl, lessFuel⟩
  have options : frame.data.bf = -weight frame.side ∨ frame.data.bf = 0 ∨
      frame.data.bf = weight frame.side := by
    have bound := rising.above.1
    rcases weight_eq frame.side with value | value <;> omega
  rcases options with light | even | heavy
  · rcases rising.absorbed light with ⟨after, leaves, whole, represents, bounded, pairsEq⟩
    have different : frame.data.bf ≠ weight frame.side := by
      rcases weight_eq frame.side with value | value <;> omega
    exact ⟨after, whole, true, repeatLoop_leave _ leaves, represents, pairsEq,
      by simp [different], fun _ => bounded⟩
  · rcases rising.climbed even with ⟨middle, again, next, leaning⟩
    rcases next.ends leaning increasing (more + 1) lessFuel with
      ⟨after, ended, whole, represents, bounded, pairsEq⟩
    have different : frame.data.bf ≠ weight frame.side := by
      rcases weight_eq frame.side with value | value <;> omega
    refine ⟨after, whole, true, ?_, represents, pairsEq, by simp [different], fun _ => bounded⟩
    rw [Frame.pointer_fill, retraced_address] at ended
    rw [← ended]
    exact repeatLoop_again (more + 1) again
  · rcases retrace_gives_up rising level heavy more with
      ⟨after, whole, ended, represents, pairsEq⟩
    exact ⟨after, whole, false, ended, represents, pairsEq, by simp [heavy],
      fun equal => (nomatch equal)⟩

end Leaf

/-! ## One insertion -/

/-- Whether the node below which the key would be hung does not lean to that side,
where it has no child. -/
def hangsLevel (fuel : Nat) (tree : AVLTree Key Value) (key : Key) : Outcome Bool := do
  match ← descend (against AVLData.key key) fuel tree.heap tree.root with
  | .found _ => pure true
  | .missing none => pure true
  | .missing (some parent) => do
      let node ← tree.heap.load (some parent)
      let side : Side := if node.data.key < key then .right else .left
      pure (node.data.bf ≠ weight side)

section Insertion

variable {tree : AVLTree Key Value} {whole : FactorTree Key Value} {key : Key} {value : Value}

/-- A search tree with factors in {-1, 0, 1}. -/
structure Sound (tree : AVLTree Key Value) (whole : FactorTree Key Value) : Prop where
  represents : Represents tree.heap tree.root whole
  bounded : Bounded whole
  sorted : Sorted AVLData.key whole

/-- What one insertion does. -/
structure Inserted (fuel : Nat) (tree : AVLTree Key Value) (whole : FactorTree Key Value)
    (key : Key) (value : Value) (after : AVLTree Key Value) (flag : Bool)
    (larger : FactorTree Key Value) : Prop where
  represents : Represents after.heap after.root larger
  sorted : Sorted AVLData.key larger
  mem_iff : ∀ pair, pair ∈ pairs larger ↔
    pair ∈ pairs whole ∨ (key ∉ keys AVLData.key whole ∧ pair = (key, value))
  flag_iff : flag = true ↔
    key ∉ keys AVLData.key whole ∧ hangsLevel fuel tree key = .ok true
  level_of_present : key ∈ keys AVLData.key whole → hangsLevel fuel tree key = .ok true
  bounded : hangsLevel fuel tree key = .ok true → Bounded larger
  length_le : (pairs larger).length ≤ (pairs whole).length + 1

theorem Sound.insert_found (sound : Sound tree whole) {fuel : Nat} {cur : Ptr}
    (descended : descend (against AVLData.key key) fuel tree.heap tree.root = .ok (.found cur))
    (located : (Descent.found cur).Locates (against AVLData.key key) whole) (value : Value) :
    insert fuel tree key value = .ok (tree, false) ∧
      Inserted fuel tree whole key value tree false whole := by
  rcases located with ⟨left, address, data, right, context, rfl, rfl, equal, _⟩
  have present : key ∈ keys AVLData.key
      (Context.plug (.node left address data right) context) := by
    simp [keys, Context.entries_plug, AddrTree.entries, against_eq_eq.mp equal]
  have level : hangsLevel fuel tree key = .ok true := by simp [hangsLevel, descended]
  refine ⟨?_, sound.represents, sound.sorted, ?_, by simp [present], fun _ => level,
    fun _ => sound.bounded, Nat.le_succ _⟩
  · have rootSome : ∃ root, tree.root = some root := by
      rw [sound.represents.root_eq]
      cases context with
      | nil => exact ⟨address, rfl⟩
      | cons frame rest => exact Context.exists_pointer_plug _ frame rest
    rcases rootSome with ⟨root, rootEq⟩
    simp only [insert, rootEq] at descended ⊢
    rw [descended, Outcome.ok_bind]
    rfl
  · intro pair
    simp [present]

theorem Sound.insert_root (sound : Sound tree .nil) (key : Key) (value : Value) (fuel : Nat)
    (enough : 0 < fuel) :
    ∃ after larger, insert fuel tree key value = .ok (after, true) ∧
      Inserted fuel tree .nil key value after true larger := by
  have rootEq : tree.root = none := sound.represents.root_eq
  rcases Nat.exists_eq_succ_of_ne_zero (Nat.pos_iff_ne_zero.mp enough) with ⟨more, rfl⟩
  have level : hangsLevel (more + 1) tree key = .ok true := by
    have descended : descend (against AVLData.key key) (more + 1) tree.heap tree.root =
        .ok (.missing none) := by
      rw [rootEq]
      exact repeatLoop_leave more rfl
    simp [hangsLevel, descended]
  refine ⟨_, .node .nil tree.heap.next ⟨key, value, 0⟩ .nil, by rw [insert, rootEq]; rfl,
    ⟨rfl, ?_, by simp [AddrTree.addresses]⟩, ?_, ?_, ?_, ?_, ?_, ?_⟩
  · exact ⟨by simp, trivial, trivial⟩
  · simp [Sorted, keys, AddrTree.entries]
  · intro pair
    simp [keys, AddrTree.entries, AVLData.pair]
  · simp [keys, AddrTree.entries, level]
  · exact fun _ => level
  · exact fun _ => ⟨Nat.zero_le 1, trivial, trivial⟩
  · simp [keys, AddrTree.entries]

theorem Sound.insert_missing {frame : Frame (AVLData Key Value)}
    {rest : Context (AVLData Key Value)}
    (sound : Sound tree (Context.plug .nil (frame :: rest)))
    (follows : Follows (against AVLData.key key) (frame :: rest)) {fuel : Nat}
    (descended : descend (against AVLData.key key) fuel tree.heap tree.root =
      .ok (.missing (some frame.address))) (value : Value)
    (enough : 3 * (rest.length + 1) < fuel) :
    ∃ after flag larger, insert fuel tree key value = .ok (after, flag) ∧
      Inserted fuel tree (Context.plug .nil (frame :: rest)) key value after flag larger := by
  have parts := (represents_plug _ _).mp sound.represents
  rcases attach_represents sound.represents follows ⟨key, value, 0⟩ with
    ⟨heap, attached, leafRep⟩
  have leafSorted := follows.sorted_leaf sound.sorted ⟨key, value, 0⟩ rfl tree.heap.next
  have absent := follows.not_mem sound.sorted
  have above := ((bounded_plug _ _).mp sound.bounded).2
  have rising : Rising ⟨heap, tree.root⟩ (.node .nil tree.heap.next ⟨key, value, 0⟩ .nil)
      (frame :: rest) _ :=
    ⟨leafRep, rfl, by simp, ⟨Nat.zero_le 1, trivial, trivial⟩, above⟩
  have increasing : ((pairs (Context.plug (.node .nil tree.heap.next ⟨key, value, 0⟩ .nil)
      (frame :: rest))).map Prod.fst).Pairwise (· < ·) := by
    rw [← keys_eq_map_pairs]
    exact leafSorted
  rcases retrace_leaf rising rfl increasing fuel enough with
    ⟨after, larger, flag, ended, represents, pairsEq, flagIff, bounded⟩
  have level : hangsLevel fuel tree key =
      .ok (decide (frame.data.bf ≠ weight frame.side)) := by
    have head := follows.head
    have sideEq : (if frame.data.key < key then Side.right else Side.left) = frame.side := by
      cases side : frame.side with
      | left =>
          rw [side] at head
          exact if_neg (not_lt_of_gt (against_eq_lt.mp head))
      | right =>
          rw [side] at head
          exact if_pos (against_eq_gt.mp head)
    have loaded := Store.load_some parts.above.1
    simp [hangsLevel, descended, loaded, Frame.node, sideEq]
  rcases Context.exists_pointer_plug .nil frame rest with ⟨root, rootPlug⟩
  have notEmpty : tree.root = some root := by rw [sound.represents.root_eq, rootPlug]
  refine ⟨after, flag, larger, ?_, represents, ?_, ?_, ?_, ?_, ?_, ?_⟩
  · simp only [insert, notEmpty] at descended ⊢
    rw [descended, Outcome.ok_bind]
    simp only [attached, Outcome.ok_bind]
    rw [← notEmpty]
    exact ended
  · rw [Sorted, keys_eq_map_pairs, pairsEq]
    exact increasing
  · intro pair
    rw [pairsEq, mem_keys_leaf, or_comm, and_iff_right absent]
    rfl
  · rw [flagIff, level, and_iff_right absent]
    simp
  · exact fun present => absurd present absent
  · intro levelTrue
    rw [level] at levelTrue
    exact bounded (flagIff.mpr (by simpa using levelTrue))
  · rw [pairsEq]
    simp only [keys, Context.entries_plug, AddrTree.entries, List.length_map,
      List.length_append, List.length_cons, List.length_nil]
    omega

theorem Sound.insert (sound : Sound tree whole) (key : Key) (value : Value) (fuel : Nat)
    (enough : 3 * (whole.height + 1) < fuel) :
    ∃ after flag larger, AVLTree.insert fuel tree key value = .ok (after, flag) ∧
      Inserted fuel tree whole key value after flag larger := by
  rcases descend_locates (against AVLData.key key) sound.represents fuel (by omega) with
    ⟨result, descended, located⟩
  cases result with
  | found cur =>
      have kept := sound.insert_found descended located value
      exact ⟨tree, false, whole, kept.1, kept.2⟩
  | missing parent =>
      rcases located with ⟨context, rfl, rfl, follows⟩
      cases context with
      | nil =>
          rcases sound.insert_root key value fuel (by omega) with
            ⟨after, larger, returned, result⟩
          exact ⟨after, true, larger, returned, result⟩
      | cons frame rest =>
          have bound := Context.length_le_height (.nil : FactorTree Key Value) (frame :: rest)
          simp only [List.length_cons] at bound
          exact sound.insert_missing follows descended value (by omega)

end Insertion

/-! ## Runs -/

/-- The value that comes with the first insertion of a key. -/
def firstValue (items : List (Key × Value)) (key : Key) : Option Value :=
  (items.find? fun item => item.1 = key).map Prod.snd

theorem firstValue_append (items : List (Key × Value)) (item : Key × Value) (key : Key) :
    firstValue (items ++ [item]) key =
      (firstValue items key).or (if item.1 = key then some item.2 else none) := by
  rw [firstValue, List.find?_append, firstValue]
  cases items.find? fun item => item.1 = key with
  | some found => rfl
  | none => by_cases same : item.1 = key <;> simp [same]

/-- Every insertion of the run hangs its key below a node that does not lean there. -/
def AllHangLevel (fuel : Nat) : AVLTree Key Value → List (Key × Value) → Prop
  | _, [] => True
  | tree, item :: rest => hangsLevel fuel tree item.1 = .ok true ∧
      ∀ after flag, insert fuel tree item.1 item.2 = .ok (after, flag) →
        AllHangLevel fuel after rest

theorem AllHangLevel.cons {fuel : Nat} {tree after : AVLTree Key Value} {item : Key × Value}
    {rest : List (Key × Value)} {flag : Bool} (level : hangsLevel fuel tree item.1 = .ok true)
    (returned : insert fuel tree item.1 item.2 = .ok (after, flag))
    (others : AllHangLevel fuel after rest) : AllHangLevel fuel tree (item :: rest) := by
  refine ⟨level, fun result other equal => ?_⟩
  rw [returned] at equal
  cases equal
  exact others

/-- The tree stores the first value of every key of a run. -/
structure Stores (tree : AVLTree Key Value) (whole : FactorTree Key Value)
    (items : List (Key × Value)) : Prop where
  sound : Sound tree whole
  mem_iff : ∀ key value, (key, value) ∈ pairs whole ↔ firstValue items key = some value
  length_le : (pairs whole).length ≤ items.length

theorem stores_empty : Stores (.empty : AVLTree Key Value) .nil [] where
  sound := ⟨⟨rfl, trivial, List.nodup_nil⟩, trivial, List.Pairwise.nil⟩
  mem_iff := fun key value => by simp [keys, AddrTree.entries, firstValue]
  length_le := Nat.le_refl _

namespace Stores

variable {tree : AVLTree Key Value} {whole : FactorTree Key Value} {items : List (Key × Value)}

theorem height_le (stores : Stores tree whole items) : whole.height ≤ items.length := by
  have height := whole.height_le_length
  have length := stores.length_le
  simp only [keys, AddrTree.toList, List.length_map] at height length
  omega

theorem present_iff (stores : Stores tree whole items) (key : Key) :
    key ∈ keys AVLData.key whole ↔ firstValue items key ≠ none := by
  rw [keys_eq_map_pairs, List.mem_map, Option.ne_none_iff_exists']
  constructor
  · intro member
    rcases member with ⟨⟨_, value⟩, member, rfl⟩
    exact ⟨value, (stores.mem_iff _ value).mp member⟩
  · intro known
    rcases known with ⟨value, equal⟩
    exact ⟨(key, value), (stores.mem_iff key value).mpr equal, rfl⟩

theorem insert (stores : Stores tree whole items) (item : Key × Value) (fuel : Nat)
    (level : hangsLevel fuel tree item.1 = .ok true) (enough : 3 * (items.length + 1) < fuel) :
    ∃ after flag larger, AVLTree.insert fuel tree item.1 item.2 = .ok (after, flag) ∧
      Stores after larger (items ++ [item]) := by
  have height := stores.height_le
  rcases stores.sound.insert item.1 item.2 fuel (by omega) with
    ⟨after, flag, larger, returned, result⟩
  refine ⟨after, flag, larger, returned, ⟨result.represents, result.bounded level,
    result.sorted⟩, ?_, ?_⟩
  · intro key value
    rw [result.mem_iff, stores.mem_iff, stores.present_iff, firstValue_append]
    rcases item with ⟨newKey, newValue⟩
    simp only [not_not, Prod.mk.injEq]
    cases known : firstValue items key with
    | some old =>
        rw [Option.some_or, or_iff_left]
        intro both
        rcases both with ⟨unknown, rfl, _⟩
        rw [known] at unknown
        cases unknown
    | none =>
        rw [Option.none_or]
        by_cases same : newKey = key
        · subst newKey
          simp [known, eq_comm]
        · simp [same, Ne.symm same]
  · have length := result.length_le
    have before := stores.length_le
    rw [List.length_append, List.length_singleton]
    omega

theorem insertAll (stores : Stores tree whole items) (rest : List (Key × Value)) (fuel : Nat)
    (level : AllHangLevel fuel tree rest)
    (enough : 3 * (items.length + rest.length + 1) < fuel) :
    ∃ after larger, AVLTree.insertAll fuel tree rest = .ok after ∧
      Stores after larger (items ++ rest) := by
  induction rest generalizing tree whole items with
  | nil => exact ⟨tree, whole, rfl, by simpa using stores⟩
  | cons item rest induction =>
      rw [List.length_cons] at enough
      rcases stores.insert item fuel level.1 (by omega) with
        ⟨middle, flag, larger, returned, middleStores⟩
      rcases induction middleStores (level.2 middle flag returned)
        (by rw [List.length_append, List.length_singleton]; omega) with
        ⟨after, final, finished, finalStores⟩
      refine ⟨after, final, ?_, by simpa using finalStores⟩
      rw [AVLTree.insertAll, returned, Outcome.ok_bind]
      exact finished

end Stores

/-- In every run whose insertions all hang their keys below nodes that do not lean
there, the calls end, the traversal is strictly increasing in the keys and lists
the first value of every key; and the next call ends too, with the right answer
exactly if it meets the condition. -/
theorem insertAll_keeps_firsts (items : List (Key × Value)) (fuel : Nat)
    (enough : 3 * (items.length + 1) < fuel)
    (level : AllHangLevel fuel (.empty : AVLTree Key Value) items) :
    ∃ tree listed, insertAll fuel .empty items = .ok tree ∧ inOder fuel tree = .ok listed ∧
      (listed.map Prod.fst).Pairwise (· < ·) ∧
      (∀ key value, (key, value) ∈ listed ↔ firstValue items key = some value) ∧
      ∀ key value, ∃ after flag, insert fuel tree key value = .ok (after, flag) ∧
        ((flag = true ↔ firstValue items key = none) ↔
          hangsLevel fuel tree key = .ok true) := by
  rcases stores_empty.insertAll items fuel level (by simpa using enough) with
    ⟨tree, whole, returned, stores⟩
  rw [List.nil_append] at stores
  have height := stores.height_le
  have length := stores.length_le
  have increasing := stores.sound.sorted
  rw [Sorted, keys_eq_map_pairs] at increasing
  refine ⟨tree, pairs whole, returned, ?_, increasing, stores.mem_iff, ?_⟩
  · have seen := stores.sound.represents.linked.seen AVLData.pair
    have listedEq : (whole.map AVLData.pair).toList = pairs whole := by
      rw [AddrTree.toList_map]
      simp [keys, AddrTree.toList]
    have walked := inOrder_spec seen fuel (by rw [listedEq]; omega)
    rw [AddrTree.pointer_map, listedEq, ← stores.sound.represents.root_eq] at walked
    exact walked
  · intro key value
    rcases stores.sound.insert key value fuel (by omega) with
      ⟨after, flag, larger, called, result⟩
    refine ⟨after, flag, called, ?_⟩
    rw [result.flag_iff, stores.present_iff, not_not]
    have present := result.level_of_present
    rw [stores.present_iff] at present
    constructor
    · intro right
      by_cases unknown : firstValue items key = none
      · exact (right.mpr unknown).2
      · exact present unknown
    · exact fun levelTrue => and_iff_left levelTrue

theorem insertAll_keeps_firsts_three :
    ∃ tree listed, insertAll 20 (.empty : AVLTree Nat Nat) [(3, 30), (1, 10), (3, 31)] =
        .ok tree ∧ inOder 20 tree = .ok listed ∧ (listed.map Prod.fst).Pairwise (· < ·) ∧
      (∀ key value, (key, value) ∈ listed ↔
        firstValue [(3, 30), (1, 10), (3, 31)] key = some value) ∧
      ∀ key value, ∃ after flag, insert 20 tree key value = .ok (after, flag) ∧
        ((flag = true ↔ firstValue [(3, 30), (1, 10), (3, 31)] key = none) ↔
          hangsLevel 20 tree key = .ok true) :=
  insertAll_keeps_firsts _ 20 (by decide)
    (.cons rfl rfl (.cons rfl rfl (.cons rfl rfl trivial)))

end DataStructAlgorithm.DataStruct.AVLTree
