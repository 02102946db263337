import Mathlib.Data.List.Induction
import DataStructAlgorithm.DataStruct.Multiway.Nodes

/-! # Leaves

A leaf of the tree stores its pairs in its first slots. The three loops that run
over a node are described by what they do to that list of pairs. -/

namespace DataStructAlgorithm.DataStruct.BTree

open Foundation

variable {Key Value : Type}

/-- The node holds `pairs` and has no children. -/
structure IsLeaf (M : Nat) (node : BTreeNode Key Value) (pairs : List (Key × Value)) : Prop where
  stored : ∃ junk, node.kvs = pairs ++ junk
  slots : node.kvs.length = M
  size_eq : node.size = pairs.length
  subs_eq : node.subs = List.replicate (M + 1) none

/-- The keys of the pairs are strictly increasing. -/
def Increasing [LT Key] (pairs : List (Key × Value)) : Prop :=
  (pairs.map Prod.fst).Pairwise (· < ·)

section Traversal

variable {heap : Store (BTreeNode Key Value)} {M : Nat} {address : Nat}
  {node : BTreeNode Key Value} {pairs : List (Key × Value)}

theorem IsLeaf.length_le (leaf : IsLeaf M node pairs) : pairs.length ≤ M := by
  rcases leaf.stored with ⟨junk, stored⟩
  rw [← leaf.slots, stored, List.length_append]
  omega

theorem IsLeaf.getElem?_kvs (leaf : IsLeaf M node pairs) {index : Nat}
    (within : index < pairs.length) : node.kvs[index]? = pairs[index]? := by
  rcases leaf.stored with ⟨junk, stored⟩
  rw [stored, List.getElem?_append_left within]

theorem IsLeaf.readAt_subs (leaf : IsLeaf M node pairs) {index : Nat} (within : index ≤ M) :
    readAt node.subs index = .ok none := by
  apply readAt_of_getElem?
  rw [leaf.subs_eq, List.getElem?_replicate_of_lt (by omega)]

/-- A leaf that is not full has a free slot behind its pairs. -/
theorem IsLeaf.exists_hole (leaf : IsLeaf M node pairs) (room : pairs.length < M) :
    ∃ hole junk, node.kvs = pairs ++ hole :: junk := by
  rcases leaf.stored with ⟨junk, stored⟩
  have slots := leaf.slots
  cases junk with
  | nil =>
      rw [stored, List.append_nil] at slots
      omega
  | cons hole junk => exact ⟨hole, junk, stored⟩

/-- Writing the first free slot of a leaf. -/
theorem IsLeaf.push (leaf : IsLeaf M node pairs) (kv : Key × Value) (room : pairs.length < M) :
    ∃ kvs, writeAt node.kvs pairs.length kv = .ok kvs ∧
      IsLeaf M ((node.setSlots kvs node.subs).setSize (node.size + 1)) (pairs ++ [kv]) := by
  rcases leaf.exists_hole room with ⟨hole, junk, stored⟩
  have slots := leaf.slots
  refine ⟨pairs ++ kv :: junk, ?_, ⟨junk, by simp [BTreeNode.setSize, BTreeNode.setSlots]⟩,
    ?_, ?_, leaf.subs_eq⟩
  · rw [stored, writeAt_of_lt _ (by simp)]
    simp
  · rw [stored] at slots
    simpa [BTreeNode.setSize, BTreeNode.setSlots] using slots
  · simp [BTreeNode.setSize, leaf.size_eq]

/-- The traversal of a node whose subtrees are visited as `below`. -/
theorem inOder_node (fuel : Nat) (found : heap.cell address = some node)
    (pairs : List (Key × Value)) (below : List (List Key)) (sizeEq : node.size = pairs.length)
    (pairsRead : ∀ index (within : index < pairs.length),
      readAt node.kvs index = .ok pairs[index])
    (belowLength : below.length = pairs.length + 1)
    (subsRead : ∀ index (within : index < below.length), ∃ sub,
      readAt node.subs index = .ok sub ∧ inOder fuel heap sub = .ok below[index]) :
    inOder (fuel + 1) heap (some address) =
      .ok (((below.zip pairs).flatMap fun part => part.1 ++ [part.2.1]) ++
        below.getLast (List.ne_nil_of_length_eq_add_one belowLength)) := by
  have looped : ∀ count ≤ pairs.length, (List.range count).foldlM (fun visited i => do
        let sub ← readAt node.subs i
        let below ← inOder fuel heap sub
        let kv ← readAt node.kvs i
        pure (visited ++ below ++ [kv.1])) ([] : List Key) =
      .ok (((below.zip pairs).take count).flatMap fun part => part.1 ++ [part.2.1]) := by
    intro count within
    induction count with
    | zero => rfl
    | succ count induction =>
        rcases subsRead count (by omega) with ⟨sub, subEq, visited⟩
        have taken : (below.zip pairs).take (count + 1) =
            (below.zip pairs).take count ++ [(below[count], pairs[count])] := by
          rw [List.take_succ_eq_append_getElem (by simp; omega), List.getElem_zip]
        rw [List.range_succ, List.foldlM_append, induction (by omega), taken]
        simp [subEq, visited, pairsRead count (by omega)]
  rcases subsRead pairs.length (by omega) with ⟨sub, subEq, visited⟩
  rw [inOder, Store.load_some found, Outcome.ok_bind, sizeEq, looped _ (Nat.le_refl _),
    Outcome.ok_bind, subEq, Outcome.ok_bind, visited, Outcome.ok_bind, List.take_of_length_le]
  · simp [List.getLast_eq_getElem, belowLength]
  · simp [belowLength]

theorem IsLeaf.inOder (leaf : IsLeaf M node pairs) (found : heap.cell address = some node)
    (fuel : Nat) : BTree.inOder (fuel + 2) heap (some address) = .ok (pairs.map Prod.fst) := by
  have visited := inOder_node (fuel + 1) found pairs
    (List.replicate (pairs.length + 1) []) leaf.size_eq ?_ (by simp) ?_
  · have woven : ∀ pairs : List (Key × Value),
        ((List.replicate (pairs.length + 1) ([] : List Key)).zip pairs).flatMap
          (fun part => part.1 ++ [part.2.1]) = pairs.map Prod.fst := by
      intro pairs
      induction pairs with
      | nil => rfl
      | cons pair rest induction =>
          rw [List.length_cons, List.replicate_succ, List.zip_cons_cons, List.flatMap_cons,
            induction]
          rfl
    rw [visited, woven, List.getLast_replicate, List.append_nil]
  · intro index within
    apply readAt_of_getElem?
    rw [leaf.getElem?_kvs within, List.getElem?_eq_getElem within]
  · intro index within
    have bound := leaf.length_le
    rw [List.length_replicate] at within
    exact ⟨none, leaf.readAt_subs (by omega), by simp [BTree.inOder]⟩

end Traversal

/-! ## Scanning -/

section Scan

variable [LinearOrder Key] {kvs : List (Key × Value)} {key : Key}

/-- The scan passes the pairs with smaller keys. -/
theorem scan_skip (done before rest : List (Key × Value))
    (smaller : ∀ pair ∈ before, pair.1 < key) (stored : kvs = done ++ before ++ rest)
    (remaining : Nat) :
    scan kvs key (before.length + remaining) done.length =
      scan kvs key remaining (done.length + before.length) := by
  induction before generalizing done with
  | nil => simp
  | cons pair before induction =>
      have read : readAt kvs done.length = .ok pair := by
        apply readAt_of_getElem?
        simp [stored]
      have less := smaller pair (by simp)
      have later := induction (done ++ [pair])
        (fun other member => smaller other (by simp [member])) (by simp [stored])
      have counted : (pair :: before).length + remaining = before.length + remaining + 1 := by
        simp only [List.length_cons]
        omega
      rw [counted, scan, read, Outcome.ok_bind, if_neg (not_lt_of_gt less), if_pos less]
      simp only [List.length_append, List.length_cons, List.length_nil, Nat.zero_add] at later
      rw [later, List.length_cons, Nat.add_assoc, Nat.add_comm 1]

theorem scan_here {before behind : List (Key × Value)} {pair : Key × Value}
    {junk : List (Key × Value)} (smaller : ∀ other ∈ before, other.1 < pair.1)
    (stored : kvs = before ++ pair :: behind ++ junk) :
    scan kvs pair.1 (before ++ pair :: behind).length 0 = .ok (.here before.length) := by
  have read : readAt kvs before.length = .ok pair := by
    apply readAt_of_getElem?
    simp [stored]
  have parts : kvs = [] ++ before ++ (pair :: behind ++ junk) := by simp [stored]
  have skipped := scan_skip [] before _ smaller parts (behind.length + 1)
  rw [List.length_nil, Nat.zero_add] at skipped
  rw [List.length_append, List.length_cons, skipped, scan, read, Outcome.ok_bind,
    if_neg (lt_irrefl _), if_neg (lt_irrefl _)]
  rfl

theorem scan_before {before behind junk : List (Key × Value)}
    (smaller : ∀ other ∈ before, other.1 < key) (larger : ∀ other ∈ behind.head?, key < other.1)
    (stored : kvs = before ++ behind ++ junk) :
    scan kvs key (before ++ behind).length 0 = .ok (.before before.length) := by
  have parts : kvs = [] ++ before ++ (behind ++ junk) := by simp [stored]
  have skipped := scan_skip [] before _ smaller parts behind.length
  rw [List.length_nil, Nat.zero_add] at skipped
  rw [List.length_append, skipped]
  cases behind with
  | nil => rfl
  | cons pair behind =>
      have read : readAt kvs before.length = .ok pair := by
        apply readAt_of_getElem?
        simp [stored]
      have less := larger pair (by simp)
      rw [List.length_cons, scan, read, Outcome.ok_bind, if_pos less]
      rfl

end Scan

/-! ## Shifting -/

section Shift

variable [LinearOrder Key] {M : Nat}

/-- The loop of `_BaseInsert` moves the hole at the end down to the place of the
new pair. -/
theorem shift_leaf (kv : Key × Value) (pairs behind : List (Key × Value)) (hole : Key × Value)
    (room : pairs.length < M) :
    ∃ before after other, pairs = before ++ after ∧
      shift kv pairs.length (pairs ++ hole :: behind) (List.replicate (M + 1) none) =
        .ok (before ++ other :: after ++ behind, List.replicate (M + 1) none, before.length) ∧
      (∀ pair ∈ after, kv.1 < pair.1) ∧ ∀ pair ∈ before.getLast?, pair.1 ≤ kv.1 := by
  induction pairs using List.reverseRecOn generalizing behind hole with
  | nil => exact ⟨[], [], hole, rfl, rfl, by simp, by simp⟩
  | append_singleton pairs last induction =>
      have read : readAt (pairs ++ [last] ++ hole :: behind) pairs.length = .ok last := by
        apply readAt_of_getElem?
        simp
      rw [List.length_append, List.length_singleton] at room ⊢
      by_cases less : kv.1 < last.1
      · have wrote : writeAt (pairs ++ [last] ++ hole :: behind) (pairs.length + 1) last =
            .ok (pairs ++ last :: (last :: behind)) := by
          rw [writeAt_of_lt _ (by simp)]
          simp
        have subRead : readAt (List.replicate (M + 1) (none : Ptr)) (pairs.length + 1) =
            .ok none :=
          readAt_of_getElem? (List.getElem?_replicate_of_lt (by omega))
        have subWrote : writeAt (List.replicate (M + 1) (none : Ptr)) (pairs.length + 2) none =
            .ok (List.replicate (M + 1) none) := by
          rw [writeAt_of_lt _ (by simp; omega), List.set_replicate_self]
        rcases induction (last :: behind) last (by omega) with
          ⟨before, after, other, pairsEq, shifted, above, below⟩
        refine ⟨before, after ++ [last], other, by simp [pairsEq], ?_, ?_, below⟩
        · rw [shift, read, Outcome.ok_bind, if_pos less, wrote, Outcome.ok_bind, subRead,
            Outcome.ok_bind, subWrote, Outcome.ok_bind, shifted]
          simp
        · intro pair member
          rcases List.mem_append.mp member with member | member
          · exact above pair member
          · rw [List.mem_singleton.mp member]
            exact less
      · refine ⟨pairs ++ [last], [], hole, by simp, ?_, by simp, ?_⟩
        · rw [shift, read, Outcome.ok_bind, if_neg less]
          simp
        · simpa using le_of_not_gt less

theorem increasing_insert {pairs before behind : List (Key × Value)} {kv : Key × Value}
    (pairsEq : pairs = before ++ behind) (increasing : Increasing pairs)
    (absent : kv.1 ∉ pairs.map Prod.fst) (above : ∀ pair ∈ behind, kv.1 < pair.1)
    (below : ∀ pair ∈ before.getLast?, pair.1 ≤ kv.1) :
    Increasing (before ++ kv :: behind) := by
  subst pairsEq
  have belowAll : ∀ pair ∈ before, pair.1 < kv.1 := by
    intro pair member
    have beforeIncreasing : Increasing before := by
      rw [Increasing, List.map_append, List.pairwise_append] at increasing
      exact increasing.1
    have different : pair.1 ≠ kv.1 := by
      intro equal
      exact absent (by simp [← equal]; exact Or.inl ⟨_, member⟩)
    cases before using List.reverseRecOn with
    | nil => cases member
    | append_singleton init last =>
        have lastLe := below last (by simp)
        rcases List.mem_append.mp member with member | member
        · rw [Increasing, List.map_append, List.pairwise_append] at beforeIncreasing
          exact lt_of_lt_of_le (beforeIncreasing.2.2 pair.1 (List.mem_map_of_mem member) last.1
            (by simp)) lastLe
        · rw [List.mem_singleton.mp member] at different ⊢
          exact lt_of_le_of_ne lastLe different
  rw [Increasing, List.map_append, List.pairwise_append] at increasing ⊢
  rw [List.map_cons, List.pairwise_cons]
  refine ⟨increasing.1, ⟨?_, increasing.2.1⟩, ?_⟩
  · intro key member
    rcases List.mem_map.mp member with ⟨pair, within, rfl⟩
    exact above pair within
  · intro key member other otherMember
    rcases List.mem_cons.mp otherMember with equal | otherMember
    · rcases List.mem_map.mp member with ⟨pair, within, rfl⟩
      rw [equal]
      exact belowAll pair within
    · exact increasing.2.2 key member other otherMember

/-- `larger` is `pairs` with `kv` put in its place. -/
def Inserted (kv : Key × Value) (pairs larger : List (Key × Value)) : Prop :=
  ∃ before behind, pairs = before ++ behind ∧ larger = before ++ kv :: behind ∧ Increasing larger

theorem Inserted.length_eq {kv : Key × Value} {pairs larger : List (Key × Value)}
    (inserted : Inserted kv pairs larger) : larger.length = pairs.length + 1 := by
  rcases inserted with ⟨before, behind, rfl, rfl, _⟩
  simp only [List.length_append, List.length_cons]
  omega

theorem Inserted.mem_iff {kv : Key × Value} {pairs larger : List (Key × Value)}
    (inserted : Inserted kv pairs larger) (pair : Key × Value) :
    pair ∈ larger ↔ pair = kv ∨ pair ∈ pairs := by
  rcases inserted with ⟨before, behind, rfl, rfl, _⟩
  simp only [List.mem_append, List.mem_cons]
  tauto

theorem Inserted.increasing {kv : Key × Value} {pairs larger : List (Key × Value)}
    (inserted : Inserted kv pairs larger) : Increasing larger := by
  rcases inserted with ⟨before, behind, _, rfl, increasing⟩
  exact increasing

/-- `_BaseInsert` on a leaf that has room. -/
theorem IsLeaf.baseInsert {heap : Store (BTreeNode Key Value)} {address : Nat}
    {node : BTreeNode Key Value} {pairs : List (Key × Value)} (leaf : IsLeaf M node pairs)
    (found : heap.cell address = some node) (room : pairs.length < M)
    (increasing : Increasing pairs) {kv : Key × Value} (absent : kv.1 ∉ pairs.map Prod.fst) :
    ∃ after grown larger, BTree.baseInsert heap (some address) none kv = .ok after ∧
      Inserted kv pairs larger ∧ after.cell address = some grown ∧ IsLeaf M grown larger ∧
      grown.parent = node.parent ∧
      (∀ other, other ≠ address → after.cell other = heap.cell other) ∧
      after.next = heap.next := by
  rcases leaf.exists_hole room with ⟨hole, junk, stored⟩
  have slots := leaf.slots
  rcases shift_leaf kv pairs junk hole room with
    ⟨before, behind, other, pairsEq, shifted, above, below⟩
  rw [stored] at slots
  have lengths := congrArg List.length pairsEq
  simp only [List.length_append, List.length_cons] at lengths slots
  have wrote : writeAt (before ++ other :: behind ++ junk) before.length kv =
      .ok (before ++ kv :: behind ++ junk) := by
    rw [writeAt_of_lt _ (by simp)]
    simp
  have subWrote : writeAt (List.replicate (M + 1) (none : Ptr)) (before.length + 1) none =
      .ok (List.replicate (M + 1) none) := by
    rw [writeAt_of_lt _ (by simp; omega), List.set_replicate_self]
  refine ⟨(heap.modify address (.setSlots (before ++ kv :: behind ++ junk)
    (List.replicate (M + 1) none))).modify address (.setSize (node.size + 1)),
    ((node.setSlots (before ++ kv :: behind ++ junk)
      (List.replicate (M + 1) none)).setSize (node.size + 1)),
    before ++ kv :: behind, ?_, ⟨before, behind, pairsEq, rfl, ?_⟩, ?_, ?_, rfl, ?_, rfl⟩
  · simp only [BTree.baseInsert, Store.load_some found, Outcome.ok_bind, leaf.size_eq, stored,
      leaf.subs_eq, shifted, wrote, subWrote, Store.assign_some _ found, adopt]
    apply Store.assign_some
    simp [found]
    rfl
  · exact increasing_insert pairsEq increasing absent above below
  · simp [found]
  · refine ⟨⟨junk, rfl⟩, ?_, ?_, rfl⟩
    · simp only [BTreeNode.setSize, BTreeNode.setSlots, List.length_append, List.length_cons]
      omega
    · simp only [BTreeNode.setSize, leaf.size_eq, List.length_append, List.length_cons]
      omega
  · intro queried different
    simp [different]

end Shift

/-! ## Dividing -/

section Divide

variable {M : Nat} {heap : Store (BTreeNode Key Value)}
  {address : Nat} {node : BTreeNode Key Value} {pairs : List (Key × Value)}

/-- The loop of `_DivideNode` on a full leaf. -/
theorem divideLoop_leaf {halfAddress : Nat} {half : BTreeNode Key Value}
    {done : List (Key × Value)} (different : halfAddress ≠ address)
    (found : heap.cell address = some node) (foundHalf : heap.cell halfAddress = some half)
    (kvsEq : node.kvs = pairs) (full : pairs.length = M)
    (subsEq : node.subs = List.replicate (M + 1) none) (halfLeaf : IsLeaf M half done)
    (remaining i : Nat) (counted : i + remaining = M) (room : done.length + remaining ≤ M) :
    ∃ after target, divideLoop (some address) (some halfAddress) remaining i done.length heap =
        .ok after ∧
      after.cell address = some (node.setSize (node.size - remaining)) ∧
      after.cell halfAddress = some target ∧ IsLeaf M target (done ++ pairs.drop i) ∧
      target.parent = half.parent ∧
      (∀ other, other ≠ address → other ≠ halfAddress → after.cell other = heap.cell other) ∧
      after.next = heap.next := by
  induction remaining generalizing heap node half done i with
  | zero =>
      have iEq : i = M := by omega
      have subRead : readAt node.subs i = .ok none := by
        apply readAt_of_getElem?
        rw [subsEq, List.getElem?_replicate_of_lt (by omega)]
      have subWrote : writeAt half.subs done.length none = .ok half.subs := by
        rw [halfLeaf.subs_eq, writeAt_of_lt _ (by simp; omega), List.set_replicate_self]
      refine ⟨heap.modify halfAddress (.setSlots half.kvs half.subs), half, ?_, ?_, ?_, ?_, rfl,
        ?_, rfl⟩
      · simp [divideLoop, Store.load_some found, Store.load_some foundHalf, subRead, subWrote,
          Store.assign_some _ foundHalf, adopt]
      · rw [Store.cell_modify_of_ne _ _ different.symm, found]
        rfl
      · simp [foundHalf, BTreeNode.setSlots]
      · have dropped : pairs.drop i = [] := List.drop_of_length_le (by omega)
        rw [dropped, List.append_nil]
        exact halfLeaf
      · intro other _ notHalf
        exact Store.cell_modify_of_ne _ _ notHalf
  | succ remaining induction =>
      have within : i < pairs.length := by omega
      have kvRead : readAt node.kvs i = .ok pairs[i] := by
        rw [kvsEq, readAt_of_lt within]
      have subRead : readAt node.subs i = .ok none := by
        apply readAt_of_getElem?
        rw [subsEq, List.getElem?_replicate_of_lt (by omega)]
      have subWrote : writeAt half.subs done.length none = .ok half.subs := by
        rw [halfLeaf.subs_eq, writeAt_of_lt _ (by simp; omega), List.set_replicate_self]
      rcases halfLeaf.push pairs[i] (by omega) with ⟨kvs, kvWrote, pushed⟩
      let moved := (half.setSlots kvs half.subs).setSize (half.size + 1)
      let middle := (heap.modify halfAddress fun _ => moved).modify address
        (.setSize (node.size - 1))
      have middleCur : middle.cell address = some (node.setSize (node.size - 1)) := by
        simp [middle, different.symm, found]
      have middleHalf : middle.cell halfAddress = some moved := by
        simp [middle, different, foundHalf]
      rcases induction middleCur middleHalf kvsEq subsEq pushed (i + 1) (by omega)
        (by simp; omega) with
        ⟨after, target, looped, afterCur, afterHalf, targetLeaf, parentEq, elsewhere, nextEq⟩
      refine ⟨after, target, ?_, ?_, afterHalf, ?_, parentEq, ?_, nextEq⟩
      · have assigned : (heap.modify halfAddress fun _ => moved).assign (some address)
            (.setSize (node.size - 1)) = .ok middle := by
          apply Store.assign_some
          rw [Store.cell_modify_of_ne _ _ different.symm, found]
        simp only [divideLoop, Store.load_some found, Store.load_some foundHalf, Outcome.ok_bind,
          kvRead, subRead, kvWrote, subWrote, Store.assign_some _ foundHalf, adopt]
        rw [List.length_append, List.length_singleton] at looped
        change (do
          let heap ← (heap.modify halfAddress fun _ => moved).assign (some address)
            (.setSize (node.size - 1))
          divideLoop (some address) (some halfAddress) remaining (i + 1) (done.length + 1) heap) = _
        rw [assigned, Outcome.ok_bind, looped]
      · rw [afterCur]
        simp [BTreeNode.setSize, Nat.sub_sub, Nat.add_comm]
      · rw [List.drop_eq_getElem_cons within]
        simpa using targetLeaf
      · intro other notCur notHalf
        rw [elsewhere other notCur notHalf]
        simp [middle, notCur, notHalf]

theorem IsLeaf.kvs_of_full (leaf : IsLeaf M node pairs) (full : pairs.length = M) :
    node.kvs = pairs := by
  rcases leaf.stored with ⟨junk, stored⟩
  have slots := leaf.slots
  rw [stored, List.length_append] at slots
  have empty : junk = [] := List.eq_nil_of_length_eq_zero (by omega)
  rw [stored, empty, List.append_nil]

/-- Lowering the size of a leaf gives up its last pairs. -/
theorem IsLeaf.truncate (leaf : IsLeaf M node pairs) {size : Nat} (within : size ≤ pairs.length) :
    IsLeaf M (node.setSize size) (pairs.take size) := by
  rcases leaf.stored with ⟨junk, stored⟩
  refine ⟨⟨pairs.drop size ++ junk, ?_⟩, leaf.slots, ?_, leaf.subs_eq⟩
  · rw [← List.append_assoc, List.take_append_drop]
    exact stored
  · rw [List.length_take_of_le within]
    rfl

theorem IsLeaf.setParent (leaf : IsLeaf M node pairs) (pointer : Ptr) :
    IsLeaf M (node.setParent pointer) pairs :=
  ⟨leaf.stored, leaf.slots, leaf.size_eq, leaf.subs_eq⟩

variable [Inhabited Key] [Inhabited Value]

theorem isLeaf_newNode (M : Nat) : IsLeaf M (newNode M : BTreeNode Key Value) [] :=
  ⟨⟨_, rfl⟩, by simp [newNode], rfl, rfl⟩

/-- `_DivideNode` on a full leaf: the pair in the middle stays behind. -/
theorem IsLeaf.divideNode (leaf : IsLeaf M node pairs) (found : heap.cell address = some node)
    (full : pairs.length = M) (positive : 0 < M) :
    ∃ after half, BTree.divideNode M heap (some address) = .ok (after, some heap.next) ∧
      after.cell address = some (node.setSize (M / 2 + 1)) ∧
      after.cell heap.next = some half ∧ IsLeaf M half (pairs.drop (M / 2 + 1)) ∧
      half.parent = none ∧
      (∀ other, other ≠ address → other ≠ heap.next → after.cell other = heap.cell other) ∧
      after.next = heap.next + 1 := by
  have allocated := Store.lt_next found
  have foundAfter : (heap.alloc (newNode M)).cell address = some node := by
    rw [Store.cell_alloc_of_lt _ _ allocated, found]
  rcases divideLoop_leaf (Nat.ne_of_gt allocated) foundAfter
    (Store.cell_alloc_next heap (newNode M)) (leaf.kvs_of_full full) full leaf.subs_eq
    (isLeaf_newNode M) (M - (M / 2 + 1)) (M / 2 + 1) (by omega) (by simp) with
    ⟨after, half, looped, afterCur, afterHalf, halfLeaf, parentEq, elsewhere, nextEq⟩
  have sizeEq : node.size = M := by rw [leaf.size_eq, full]
  refine ⟨after, half, ?_, ?_, afterHalf, halfLeaf, parentEq, ?_, nextEq⟩
  · simp only [BTree.divideNode, Store.load_some foundAfter, Outcome.ok_bind, sizeEq]
    rw [List.length_nil] at looped
    rw [looped]
    rfl
  · rw [afterCur, sizeEq]
    have left : M - (M - (M / 2 + 1)) = M / 2 + 1 := by omega
    rw [left]
  · intro other notCur notHalf
    rw [elsewhere other notCur notHalf]
    simp [Store.alloc, notHalf]

end Divide

/-! ## Searching a leaf -/

section Find

variable [LinearOrder Key] {M : Nat} {heap : Store (BTreeNode Key Value)} {address : Nat}
  {node : BTreeNode Key Value} {pairs : List (Key × Value)}

/-- The pairs of an increasing list before and behind a key that it does not hold. -/
theorem exists_gap {key : Key} (increasing : Increasing pairs) (absent : key ∉ pairs.map Prod.fst) :
    ∃ before behind, pairs = before ++ behind ∧ (∀ pair ∈ before, pair.1 < key) ∧
      ∀ pair ∈ behind.head?, key < pair.1 := by
  induction pairs with
  | nil => exact ⟨[], [], rfl, by simp, by simp⟩
  | cons pair rest induction =>
      simp only [List.map_cons, List.mem_cons, not_or] at absent
      rcases lt_or_gt_of_ne absent.1 with less | greater
      · exact ⟨[], pair :: rest, rfl, by simp, by simpa using less⟩
      · rw [Increasing, List.map_cons, List.pairwise_cons] at increasing
        rcases induction increasing.2 absent.2 with ⟨before, behind, restEq, smaller, larger⟩
        refine ⟨pair :: before, behind, by rw [restEq]; rfl, ?_, larger⟩
        intro other member
        rcases List.mem_cons.mp member with equal | member
        · rw [equal]
          exact greater
        · exact smaller other member

theorem Increasing.before_lt {before behind : List (Key × Value)} {pair : Key × Value}
    (increasing : Increasing (before ++ pair :: behind)) :
    ∀ other ∈ before, other.1 < pair.1 := by
  intro other member
  rw [Increasing, List.map_append, List.pairwise_append] at increasing
  exact increasing.2.2 other.1 (List.mem_map_of_mem member) pair.1 (by simp)

/-- The search ends in a leaf that holds the key. -/
theorem IsLeaf.find_here {before behind : List (Key × Value)} {pair : Key × Value}
    (leaf : IsLeaf M node (before ++ pair :: behind)) (found : heap.cell address = some node)
    (increasing : Increasing (before ++ pair :: behind)) (parent : Ptr) (fuel : Nat) :
    repeatLoop (findPass heap pair.1) (fuel + 1) (some address, parent) =
      .ok (some address, before.length) := by
  rcases leaf.stored with ⟨junk, stored⟩
  apply repeatLoop_leave
  simp only [findPass, Store.load_some found, Outcome.ok_bind, leaf.size_eq,
    scan_here increasing.before_lt stored]
  rfl

/-- The search ends below a leaf that does not hold the key. -/
theorem IsLeaf.find_missing (leaf : IsLeaf M node pairs) (found : heap.cell address = some node)
    (increasing : Increasing pairs) {key : Key} (absent : key ∉ pairs.map Prod.fst) (parent : Ptr)
    (fuel : Nat) :
    repeatLoop (findPass heap key) (fuel + 2) (some address, parent) =
      .ok (some address, -1) := by
  rcases leaf.stored with ⟨junk, stored⟩
  rcases exists_gap increasing absent with ⟨before, behind, pairsEq, smaller, larger⟩
  have bound := leaf.length_le
  have read : readAt node.subs before.length = .ok none := by
    apply leaf.readAt_subs
    rw [pairsEq, List.length_append] at bound
    omega
  rw [pairsEq] at stored
  have pass : findPass heap key (some address, parent) = .ok (.again (none, some address)) := by
    simp only [findPass, Store.load_some found, Outcome.ok_bind, leaf.size_eq, pairsEq,
      scan_before smaller larger stored, read]
    rfl
  rw [repeatLoop_again _ pass]
  exact repeatLoop_leave _ rfl

end Find

end DataStructAlgorithm.DataStruct.BTree
