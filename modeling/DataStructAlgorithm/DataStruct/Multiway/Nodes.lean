import DataStructAlgorithm.DataStruct.Multiway.BTree

/-! # What the steps of an insertion do to the slots of nodes

Insertion of a pair and a child into a node, the division of a node, and the new
root, for nodes with any contents. -/

namespace DataStructAlgorithm.DataStruct.BTree

open Foundation

variable {Key Value : Type}

/-! ## Insertion into a node -/

/-- The slots after the loop of `_BaseInsert` has moved the entries from `place` up
to `last` by one. -/
structure Shifted (last place : Nat) (kvs moved : List (Key × Value))
    (subs movedSubs : List Ptr) : Prop where
  place_le : place ≤ last
  kvsLength : moved.length = kvs.length
  subsLength : movedSubs.length = subs.length
  kvsBefore : ∀ i, i < place → moved[i]? = kvs[i]?
  kvsAfter : ∀ i, place ≤ i → i < last → moved[i + 1]? = kvs[i]?
  kvsBeyond : ∀ i, last < i → moved[i]? = kvs[i]?
  subsBefore : ∀ i, i ≤ place → movedSubs[i]? = subs[i]?
  subsAfter : ∀ i, place < i → i ≤ last → movedSubs[i + 1]? = subs[i]?
  subsBeyond : ∀ i, last + 1 < i → movedSubs[i]? = subs[i]?

section Shift

variable [LinearOrder Key]

theorem shift_spec (kv : Key × Value) (last : Nat) (kvs : List (Key × Value))
    (subs : List Ptr) (kvsRoom : last < kvs.length) (subsRoom : last + 1 < subs.length) :
    ∃ moved movedSubs place, shift kv last kvs subs = .ok (moved, movedSubs, place) ∧
      Shifted last place kvs moved subs movedSubs := by
  induction last generalizing kvs subs with
  | zero =>
      refine ⟨kvs, subs, 0, rfl, Nat.le_refl 0, rfl, rfl, fun _ _ => rfl, ?_, fun _ _ => rfl,
        fun _ _ => rfl, ?_, fun _ _ => rfl⟩
      · intro i _ less
        omega
      · intro i more less
        omega
  | succ last induction =>
      have read : readAt kvs last = .ok kvs[last] := readAt_of_lt (by omega)
      have subRead : readAt subs (last + 1) = .ok subs[last + 1] := readAt_of_lt (by omega)
      by_cases less : kv.1 < kvs[last].1
      · rcases induction (kvs.set (last + 1) kvs[last]) (subs.set (last + 2) subs[last + 1])
          (by simp; omega) (by simp; omega) with ⟨moved, movedSubs, place, shifted, result⟩
        have kvsSame : ∀ i, i ≠ last + 1 → (kvs.set (last + 1) kvs[last])[i]? = kvs[i]? :=
          fun i different => List.getElem?_set_ne (Ne.symm different)
        have subsSame : ∀ i, i ≠ last + 2 →
            (subs.set (last + 2) subs[last + 1])[i]? = subs[i]? :=
          fun i different => List.getElem?_set_ne (Ne.symm different)
        have place_le := result.place_le
        refine ⟨moved, movedSubs, place, ?_, by omega, by simpa using result.kvsLength,
          by simpa using result.subsLength, ?_, ?_, ?_, ?_, ?_, ?_⟩
        · simp [shift, read, less, writeAt_of_lt _ kvsRoom, subRead,
            writeAt_of_lt _ (show last + 2 < subs.length from subsRoom), shifted]
        · intro i before
          rw [result.kvsBefore i before, kvsSame i (by omega)]
        · intro i after within
          by_cases top : i = last
          · subst top
            rw [result.kvsBeyond (i + 1) (by omega), List.getElem?_set_self (by omega),
              List.getElem?_eq_getElem]
          · rw [result.kvsAfter i after (by omega), kvsSame i (by omega)]
        · intro i beyond
          rw [result.kvsBeyond i (by omega), kvsSame i (by omega)]
        · intro i before
          rw [result.subsBefore i before, subsSame i (by omega)]
        · intro i after within
          by_cases top : i = last + 1
          · subst top
            rw [result.subsBeyond (last + 2) (by omega), List.getElem?_set_self (by omega),
              List.getElem?_eq_getElem]
          · rw [result.subsAfter i after (by omega), subsSame i (by omega)]
        · intro i beyond
          rw [result.subsBeyond i (by omega), subsSame i (by omega)]
      · refine ⟨kvs, subs, last + 1, by simp [shift, read, less], Nat.le_refl _, rfl, rfl,
          fun _ _ => rfl, ?_, fun _ _ => rfl, fun _ _ => rfl, ?_, fun _ _ => rfl⟩
        · intro i more within
          omega
        · intro i more within
          omega

end Shift

/-- The node `grown` is `node` with one more pair, at `place`, and one more child
behind it. -/
structure Placed (node : BTreeNode Key Value) (kv : Key × Value) (sub : Ptr)
    (grown : BTreeNode Key Value) (place : Nat) : Prop where
  place_le : place ≤ node.size
  kvsLength : grown.kvs.length = node.kvs.length
  subsLength : grown.subs.length = node.subs.length
  parent : grown.parent = node.parent
  size : grown.size = node.size + 1
  kvsBefore : ∀ i, i < place → grown.kvs[i]? = node.kvs[i]?
  kvsAt : grown.kvs[place]? = some kv
  kvsAfter : ∀ i, place ≤ i → i < node.size → grown.kvs[i + 1]? = node.kvs[i]?
  subsBefore : ∀ i, i ≤ place → grown.subs[i]? = node.subs[i]?
  subsAt : grown.subs[place + 1]? = some sub
  subsAfter : ∀ i, place < i → i ≤ node.size → grown.subs[i + 1]? = node.subs[i]?

namespace Placed

variable {node grown : BTreeNode Key Value} {kv : Key × Value} {sub : Ptr} {place : Nat}

/-- Every pair is the new one or an old one. -/
theorem kvs_cases (placed : Placed node kv sub grown place) {i : Nat} (within : i < grown.size) :
    grown.kvs[i]? = some kv ∨ ∃ j, j < node.size ∧ grown.kvs[i]? = node.kvs[j]? := by
  have size := placed.size
  have place_le := placed.place_le
  rcases Nat.lt_trichotomy i place with before | rfl | after
  · exact Or.inr ⟨i, by omega, placed.kvsBefore i before⟩
  · exact Or.inl placed.kvsAt
  · have shifted := placed.kvsAfter (i - 1) (by omega) (by omega)
    rw [Nat.sub_add_cancel (by omega)] at shifted
    exact Or.inr ⟨i - 1, by omega, shifted⟩

/-- Every child is the new one or an old one, whose index tells where it stands. -/
theorem subs_cases (placed : Placed node kv sub grown place) {i : Nat} (within : i ≤ grown.size) :
    (i = place + 1 ∧ grown.subs[i]? = some sub) ∨
      ∃ j, j ≤ node.size ∧ (i = if j ≤ place then j else j + 1) ∧
        grown.subs[i]? = node.subs[j]? := by
  have size := placed.size
  have place_le := placed.place_le
  rcases Nat.lt_trichotomy i (place + 1) with before | rfl | after
  · exact Or.inr ⟨i, by omega, by rw [if_pos (by omega)], placed.subsBefore i (by omega)⟩
  · exact Or.inl ⟨rfl, placed.subsAt⟩
  · have shifted := placed.subsAfter (i - 1) (by omega) (by omega)
    rw [Nat.sub_add_cancel (by omega)] at shifted
    exact Or.inr ⟨i - 1, by omega, by rw [if_neg (by omega)]; omega, shifted⟩

end Placed

/-- `_BaseInsert` on a node with a free slot. -/
theorem baseInsert_spec [LinearOrder Key] {heap : Store (BTreeNode Key Value)} {address : Nat}
    {node : BTreeNode Key Value} (found : heap.cell address = some node) {sub : Ptr}
    (kvsRoom : node.size < node.kvs.length) (subsRoom : node.size + 1 < node.subs.length)
    (subFound : ∀ child, sub = some child → child ≠ address ∧ ∃ below, heap.cell child = some below)
    (kv : Key × Value) :
    ∃ after grown place, baseInsert heap (some address) sub kv = .ok after ∧
      Placed node kv sub grown place ∧ after.cell address = some grown ∧
      (∀ child, sub = some child →
        after.cell child = (heap.cell child).map (.setParent (some address))) ∧
      (∀ other, other ≠ address → some other ≠ sub → after.cell other = heap.cell other) ∧
      after.next = heap.next := by
  rcases shift_spec kv node.size node.kvs node.subs kvsRoom subsRoom with
    ⟨moved, movedSubs, place, shifted, result⟩
  have place_le := result.place_le
  have kvsWrite : writeAt moved place kv = .ok (moved.set place kv) :=
    writeAt_of_lt _ (by rw [result.kvsLength]; omega)
  have subsWrite : writeAt movedSubs (place + 1) sub = .ok (movedSubs.set (place + 1) sub) :=
    writeAt_of_lt _ (by rw [result.subsLength]; omega)
  let filled : BTreeNode Key Value :=
    ⟨moved.set place kv, movedSubs.set (place + 1) sub, node.parent, node.size + 1⟩
  have placed : Placed node kv sub filled place := by
    refine ⟨place_le, by simp [filled, result.kvsLength], by simp [filled, result.subsLength],
      rfl, rfl, ?_, ?_, ?_, ?_, ?_, ?_⟩
    · intro i before
      simp only [filled]
      rw [List.getElem?_set_ne (by omega), result.kvsBefore i before]
    · simp only [filled]
      rw [List.getElem?_set_self (by rw [result.kvsLength]; omega)]
    · intro i after within
      simp only [filled]
      rw [List.getElem?_set_ne (by omega), result.kvsAfter i after within]
    · intro i before
      simp only [filled]
      rw [List.getElem?_set_ne (by omega), result.subsBefore i before]
    · simp only [filled]
      rw [List.getElem?_set_self (by rw [result.subsLength]; omega)]
    · intro i after within
      simp only [filled]
      rw [List.getElem?_set_ne (by omega), result.subsAfter i after within]
  let slots := BTreeNode.setSlots (moved.set place kv) (movedSubs.set (place + 1) sub)
  have loaded : heap.load (some address) = .ok node := Store.load_some found
  cases sub with
  | none =>
      refine ⟨(heap.modify address slots).modify address (.setSize (node.size + 1)), filled, place,
        ?_, placed, ?_, fun child equal => (nomatch equal), ?_, rfl⟩
      · simp [baseInsert, loaded, shifted, kvsWrite, subsWrite, adopt, Store.assign, found, slots]
      · simp [found, slots, BTreeNode.setSlots, BTreeNode.setSize, filled]
      · intro other different _
        simp [different]
  | some child =>
      rcases subFound child rfl with ⟨different, below, childFound⟩
      refine ⟨((heap.modify address slots).modify child (.setParent (some address))).modify address
        (.setSize (node.size + 1)), filled, place, ?_, placed, ?_, ?_, ?_, rfl⟩
      · simp [baseInsert, loaded, shifted, kvsWrite, subsWrite, adopt, Store.assign, found, slots,
          different, different.symm, childFound]
      · simp [found, different.symm, slots, BTreeNode.setSlots, BTreeNode.setSize, filled]
      · intro other equal
        cases equal
        simp [different]
      · intro other notAddress notChild
        have distinct : other ≠ child := fun equal => notChild (congrArg some equal)
        simp [notAddress, distinct]

/-! ## Division of a node -/

/-- The slots of the new node while the loop of `_DivideNode` fills it from index
`j` on, `remaining` pairs being moved from index `i` of `node`. -/
structure Moved (node : BTreeNode Key Value) (i : Nat) (before : BTreeNode Key Value) (j : Nat)
    (remaining : Nat) (half : BTreeNode Key Value) : Prop where
  kvsLength : half.kvs.length = before.kvs.length
  subsLength : half.subs.length = before.subs.length
  parent : half.parent = before.parent
  size : half.size = before.size + remaining
  kvsBefore : ∀ k, k < j → half.kvs[k]? = before.kvs[k]?
  kvsMoved : ∀ k, k < remaining → half.kvs[j + k]? = node.kvs[i + k]?
  subsBefore : ∀ k, k < j → half.subs[k]? = before.subs[k]?
  subsMoved : ∀ k, k ≤ remaining → half.subs[j + k]? = node.subs[i + k]?

/-- The memory after the loop of `_DivideNode`. -/
structure Divided (heap : Store (BTreeNode Key Value)) (address halfAddress : Nat)
    (node : BTreeNode Key Value) (i remaining : Nat) (after : Store (BTreeNode Key Value)) :
    Prop where
  cur : after.cell address = some (node.setSize (node.size - remaining))
  moved : ∀ k child, k ≤ remaining → node.subs[i + k]? = some (some child) →
    after.cell child = (heap.cell child).map (.setParent (some halfAddress))
  others : ∀ other, other ≠ address → other ≠ halfAddress →
    (∀ k, k ≤ remaining → node.subs[i + k]? ≠ some (some other)) →
    after.cell other = heap.cell other
  next : after.next = heap.next

theorem adopt_spec {heap : Store (BTreeNode Key Value)} (parent : Ptr) {sub : Ptr}
    (subFound : ∀ child, sub = some child → ∃ below, heap.cell child = some below) :
    ∃ after, adopt heap parent sub = .ok after ∧
      (∀ child, sub = some child → after.cell child = (heap.cell child).map (.setParent parent)) ∧
      (∀ other, some other ≠ sub → after.cell other = heap.cell other) ∧
      after.next = heap.next := by
  cases sub with
  | none => exact ⟨heap, rfl, fun child equal => (nomatch equal), fun _ _ => rfl, rfl⟩
  | some child =>
      rcases subFound child rfl with ⟨below, found⟩
      refine ⟨heap.modify child (.setParent parent), Store.assign_some _ found, ?_, ?_, rfl⟩
      · intro other equal
        cases equal
        exact Store.cell_modify_same ..
      · intro other different
        exact Store.cell_modify_of_ne _ _ fun equal => different (congrArg some equal)

theorem setParent_twice (parent : Ptr) (cell : Option (BTreeNode Key Value)) :
    (cell.map (.setParent parent)).map (.setParent parent) =
      cell.map (BTreeNode.setParent parent) := by
  cases cell with
  | none => rfl
  | some node => rfl

section Divide

variable {heap : Store (BTreeNode Key Value)} {address halfAddress : Nat}
  {node before : BTreeNode Key Value} {i j : Nat}

/-- The last child is moved behind the loop. -/
theorem divideLoop_zero (different : halfAddress ≠ address)
    (found : heap.cell address = some node) (foundHalf : heap.cell halfAddress = some before)
    (subsRoom : i < node.subs.length) (halfSubs : j < before.subs.length)
    (children : ∀ child, node.subs[i]? = some (some child) →
      child ≠ address ∧ child ≠ halfAddress ∧ ∃ below, heap.cell child = some below) :
    ∃ after half, divideLoop (some address) (some halfAddress) 0 i j heap = .ok after ∧
      after.cell halfAddress = some half ∧ Moved node i before j 0 half ∧
      Divided heap address halfAddress node i 0 after := by
  have subRead : readAt node.subs i = .ok node.subs[i] := readAt_of_lt subsRoom
  have subWrite : writeAt before.subs j node.subs[i] = .ok (before.subs.set j node.subs[i]) :=
    writeAt_of_lt _ halfSubs
  have isSub : ∀ child, node.subs[i] = some child → node.subs[i]? = some (some child) := by
    intro child equal
    rw [List.getElem?_eq_getElem subsRoom, equal]
  let half := before.setSlots before.kvs (before.subs.set j node.subs[i])
  let written := heap.modify halfAddress (.setSlots before.kvs (before.subs.set j node.subs[i]))
  have writtenSame : ∀ other, other ≠ halfAddress → written.cell other = heap.cell other :=
    fun other notHalf => Store.cell_modify_of_ne _ _ notHalf
  have subFound : ∀ child, node.subs[i] = some child → ∃ below, written.cell child = some below := by
    intro child equal
    rcases children child (isSub child equal) with ⟨_, notHalf, below, childFound⟩
    exact ⟨below, (writtenSame child notHalf).trans childFound⟩
  rcases adopt_spec (some halfAddress) subFound with ⟨after, adopted, moved, others, next⟩
  have notSub : ∀ other, (∀ child, node.subs[i] = some child → child ≠ other) →
      after.cell other = written.cell other := by
    intro other apart
    exact others other fun equal => apart other equal.symm rfl
  refine ⟨after, half, ?_, ?_, ⟨rfl, ?_, rfl, rfl, fun _ _ => rfl, ?_, ?_, ?_⟩, ⟨?_, ?_, ?_, next⟩⟩
  · simp only [divideLoop, Store.load_some found, Store.load_some foundHalf, Outcome.ok_bind,
      subRead, subWrite, Store.assign_some _ foundHalf]
    exact adopted
  · rw [notSub halfAddress fun child equal => (children child (isSub child equal)).2.1]
    simp [written, foundHalf, half]
  · simp [half, BTreeNode.setSlots]
  · intro k less
    omega
  · intro k less
    exact List.getElem?_set_ne (by omega)
  · intro k small
    have zero : k = 0 := by omega
    subst zero
    simp [half, BTreeNode.setSlots, halfSubs, subsRoom]
  · rw [notSub address fun child equal => (children child (isSub child equal)).1,
      writtenSame address different.symm, found]
    rfl
  · intro k child small stored
    have zero : k = 0 := by omega
    subst zero
    have equal : node.subs[i] = some child := by
      rw [Nat.add_zero, List.getElem?_eq_getElem subsRoom] at stored
      exact Option.some.inj stored
    rw [moved child equal, writtenSame child (children child stored).2.1]
  · intro other _ notHalf apart
    rw [others other, writtenSame other notHalf]
    intro equal
    exact apart 0 (Nat.le_refl 0) (isSub other equal.symm)

/-- The loop of `_DivideNode`. -/
theorem divideLoop_spec (different : halfAddress ≠ address) (remaining : Nat)
    (found : heap.cell address = some node) (foundHalf : heap.cell halfAddress = some before)
    (kvsRoom : i + remaining ≤ node.kvs.length) (subsRoom : i + remaining < node.subs.length)
    (halfKvs : j + remaining ≤ before.kvs.length) (halfSubs : j + remaining < before.subs.length)
    (children : ∀ k child, k ≤ remaining → node.subs[i + k]? = some (some child) →
      child ≠ address ∧ child ≠ halfAddress ∧ ∃ below, heap.cell child = some below) :
    ∃ after half, divideLoop (some address) (some halfAddress) remaining i j heap = .ok after ∧
      after.cell halfAddress = some half ∧ Moved node i before j remaining half ∧
      Divided heap address halfAddress node i remaining after := by
  induction remaining generalizing heap node before i j with
  | zero =>
      exact divideLoop_zero different found foundHalf subsRoom halfSubs
        fun child => children 0 child (Nat.le_refl 0)
  | succ remaining induction =>
      have kvRead : readAt node.kvs i = .ok node.kvs[i] := readAt_of_lt (by omega)
      have subRead : readAt node.subs i = .ok node.subs[i] := readAt_of_lt (by omega)
      have kvWrite : writeAt before.kvs j node.kvs[i] = .ok (before.kvs.set j node.kvs[i]) :=
        writeAt_of_lt _ (by omega)
      have subWrite : writeAt before.subs j node.subs[i] = .ok (before.subs.set j node.subs[i]) :=
        writeAt_of_lt _ (by omega)
      have isSub : ∀ child, node.subs[i] = some child → node.subs[i + 0]? = some (some child) := by
        intro child equal
        rw [Nat.add_zero, List.getElem?_eq_getElem (by omega), equal]
      let grown := (before.setSlots (before.kvs.set j node.kvs[i])
        (before.subs.set j node.subs[i])).setSize (before.size + 1)
      let cut := node.setSize (node.size - 1)
      let copied := heap.modify halfAddress fun _ => grown
      let written := copied.modify address (.setSize (node.size - 1))
      have copiedCur : copied.cell address = some node := by
        rw [Store.cell_modify_of_ne _ _ different.symm, found]
      have writtenCur : written.cell address = some cut := by simp [written, copiedCur, cut]
      have writtenHalf : written.cell halfAddress = some grown := by
        simp [written, copied, different, foundHalf]
      have writtenSame : ∀ other, other ≠ address → other ≠ halfAddress →
          written.cell other = heap.cell other := by
        intro other notCur notHalf
        simp [written, copied, notCur, notHalf]
      have subFound : ∀ child, node.subs[i] = some child →
          ∃ below, written.cell child = some below := by
        intro child equal
        rcases children 0 child (Nat.zero_le _) (isSub child equal) with
          ⟨notCur, notHalf, below, childFound⟩
        exact ⟨below, (writtenSame child notCur notHalf).trans childFound⟩
      rcases adopt_spec (some halfAddress) subFound with ⟨middle, adopted, moved, others, next⟩
      have middleCur : middle.cell address = some cut := by
        rw [others address, writtenCur]
        intro equal
        exact (children 0 address (Nat.zero_le _) (isSub address equal.symm)).1 rfl
      have middleHalf : middle.cell halfAddress = some grown := by
        rw [others halfAddress, writtenHalf]
        intro equal
        exact (children 0 halfAddress (Nat.zero_le _) (isSub halfAddress equal.symm)).2.1 rfl
      have index : ∀ k, i + 1 + k = i + (k + 1) := fun k => by omega
      have later : ∀ k child, k ≤ remaining → cut.subs[i + 1 + k]? = some (some child) →
          child ≠ address ∧ child ≠ halfAddress ∧ ∃ below, middle.cell child = some below := by
        intro k child small stored
        rw [index] at stored
        rcases children (k + 1) child (by omega) stored with ⟨notCur, notHalf, below, childFound⟩
        refine ⟨notCur, notHalf, ?_⟩
        by_cases equal : some child = node.subs[i]
        · exact ⟨_, by rw [moved child equal.symm, writtenSame child notCur notHalf, childFound]; rfl⟩
        · exact ⟨below, by rw [others child equal, writtenSame child notCur notHalf, childFound]⟩
      have grownKvs : grown.kvs.length = before.kvs.length := List.length_set
      have grownSubs : grown.subs.length = before.subs.length := List.length_set
      have cutKvs : i + 1 + remaining ≤ node.kvs.length := by omega
      have cutSubs : i + 1 + remaining < node.subs.length := by omega
      have grownKvsRoom : j + 1 + remaining ≤ grown.kvs.length := by omega
      have grownSubsRoom : j + 1 + remaining < grown.subs.length := by omega
      rcases induction middleCur middleHalf cutKvs cutSubs grownKvsRoom grownSubsRoom later with
        ⟨after, half, looped, foundAfter, filled, divided⟩
      refine ⟨after, half, ?_, foundAfter, ⟨filled.kvsLength.trans grownKvs,
        filled.subsLength.trans grownSubs, filled.parent, ?_, ?_, ?_, ?_, ?_⟩, ⟨?_, ?_, ?_, ?_⟩⟩
      · simp only [divideLoop, Store.load_some found, Store.load_some foundHalf, Outcome.ok_bind,
          kvRead, subRead, kvWrite, subWrite, Store.assign_some _ foundHalf]
        change (do
          let heap ← copied.assign (some address) (.setSize (node.size - 1))
          let heap ← adopt heap (some halfAddress) node.subs[i]
          divideLoop (some address) (some halfAddress) remaining (i + 1) (j + 1) heap) = _
        rw [Store.assign_some _ copiedCur, Outcome.ok_bind, adopted, Outcome.ok_bind, looped]
      · rw [filled.size]
        simp only [grown, BTreeNode.setSize]
        omega
      · intro k less
        rw [filled.kvsBefore k (by omega)]
        exact List.getElem?_set_ne (by omega)
      · intro k less
        cases k with
        | zero =>
            rw [Nat.add_zero, Nat.add_zero, filled.kvsBefore j (by omega)]
            simp only [grown, BTreeNode.setSize, BTreeNode.setSlots]
            rw [List.getElem?_set_self (by omega), List.getElem?_eq_getElem]
        | succ k =>
            have stored := filled.kvsMoved k (by omega)
            rw [index, Nat.add_right_comm j 1 k] at stored
            exact stored
      · intro k less
        rw [filled.subsBefore k (by omega)]
        exact List.getElem?_set_ne (by omega)
      · intro k less
        cases k with
        | zero =>
            rw [Nat.add_zero, Nat.add_zero, filled.subsBefore j (by omega)]
            simp only [grown, BTreeNode.setSize, BTreeNode.setSlots]
            rw [List.getElem?_set_self (by omega), List.getElem?_eq_getElem]
        | succ k =>
            have stored := filled.subsMoved k (by omega)
            rw [index, Nat.add_right_comm j 1 k] at stored
            exact stored
      · rw [divided.cur]
        simp [cut, BTreeNode.setSize, Nat.sub_sub, Nat.add_comm]
      · intro k child small stored
        rcases children k child small stored with ⟨notCur, notHalf, _⟩
        have first : middle.cell child = heap.cell child ∨
            middle.cell child = (heap.cell child).map (.setParent (some halfAddress)) := by
          by_cases equal : some child = node.subs[i]
          · right
            rw [moved child equal.symm, writtenSame child notCur notHalf]
          · left
            rw [others child equal, writtenSame child notCur notHalf]
        by_cases again : ∃ k, k ≤ remaining ∧ node.subs[i + (k + 1)]? = some (some child)
        · rcases again with ⟨k, less, storedLater⟩
          rw [← index] at storedLater
          rw [divided.moved k child less storedLater]
          rcases first with same | same
          · rw [same]
          · rw [same, setParent_twice]
        · have apart : ∀ k, k ≤ remaining → cut.subs[i + 1 + k]? ≠ some (some child) := by
            intro k less storedLater
            rw [index] at storedLater
            exact again ⟨k, less, storedLater⟩
          rw [divided.others child notCur notHalf apart]
          cases k with
          | zero =>
              have equal : node.subs[i] = some child := by
                rw [Nat.add_zero, List.getElem?_eq_getElem (by omega)] at stored
                exact Option.some.inj stored
              rw [moved child equal, writtenSame child notCur notHalf]
          | succ k => exact absurd ⟨k, by omega, stored⟩ again
      · intro other notCur notHalf apart
        have apartLater : ∀ k, k ≤ remaining → cut.subs[i + 1 + k]? ≠ some (some other) := by
          intro k less
          rw [index]
          exact apart (k + 1) (by omega)
        rw [divided.others other notCur notHalf apartLater, others other,
          writtenSame other notCur notHalf]
        intro equal
        exact apart 0 (Nat.zero_le _) (isSub other equal.symm)
      · rw [divided.next, next]
        rfl

end Divide

/-- `_DivideNode` on a node with `M` pairs. -/
theorem divideNode_spec [Inhabited Key] [Inhabited Value] {M : Nat} (positive : 0 < M)
    {heap : Store (BTreeNode Key Value)} {address : Nat} {node : BTreeNode Key Value}
    (found : heap.cell address = some node) (kvsLength : node.kvs.length = M)
    (subsLength : node.subs.length = M + 1) (full : node.size = M)
    (children : ∀ i child, i ≤ M → node.subs[i]? = some (some child) →
      child ≠ address ∧ ∃ below, heap.cell child = some below) :
    ∃ after half, divideNode M heap (some address) = .ok (after, some heap.next) ∧
      after.cell heap.next = some half ∧
      Moved node (M / 2 + 1) (newNode M) 0 (M - (M / 2 + 1)) half ∧
      Divided (heap.alloc (newNode M)) address heap.next node (M / 2 + 1) (M - (M / 2 + 1))
        after := by
  have addressLt := Store.lt_next found
  have foundCur : (heap.alloc (newNode M)).cell address = some node := by
    rw [Store.cell_alloc_of_lt _ _ addressLt, found]
  have foundHalf := Store.cell_alloc_next heap (newNode M : BTreeNode Key Value)
  have halfKvs : (newNode M : BTreeNode Key Value).kvs.length = M := List.length_replicate
  have halfSubs : (newNode M : BTreeNode Key Value).subs.length = M + 1 := List.length_replicate
  have later : ∀ k child, k ≤ M - (M / 2 + 1) →
      node.subs[M / 2 + 1 + k]? = some (some child) → child ≠ address ∧ child ≠ heap.next ∧
        ∃ below, (heap.alloc (newNode M)).cell child = some below := by
    intro k child small stored
    rcases children _ child (by omega) stored with ⟨notCur, below, childFound⟩
    have childLt := Store.lt_next childFound
    refine ⟨notCur, Nat.ne_of_lt childLt, below, ?_⟩
    rw [Store.cell_alloc_of_lt _ _ childLt, childFound]
  rcases divideLoop_spec (j := 0) (Nat.ne_of_gt addressLt) (M - (M / 2 + 1)) foundCur foundHalf
    (by omega) (by omega) (by omega) (by omega) later with
    ⟨after, half, looped, foundAfter, filled, divided⟩
  refine ⟨after, half, ?_, foundAfter, filled, divided⟩
  simp only [divideNode, Store.load_some foundCur, Outcome.ok_bind, full, looped]
  rfl

/-! ## The new root -/

/-- The split of the root gives it a new parent over the two halves. -/
theorem growRoot_spec [Inhabited Key] [Inhabited Value] {M : Nat} (tree : BTree Key Value)
    {address half : Nat} {curNode halfNode : BTreeNode Key Value}
    (found : tree.heap.cell address = some curNode) (foundHalf : tree.heap.cell half = some halfNode)
    (different : address ≠ half) (positive : 1 < M) (mid : Key × Value) :
    ∃ after top, growRoot M tree (some address) (some half) mid = .ok after ∧
      after.root = some tree.heap.next ∧ after.heap.cell tree.heap.next = some top ∧
      top.size = 1 ∧ (∃ junk, top.kvs = mid :: junk ∧ junk.length + 1 = M) ∧
      top.subs = some address :: some half :: List.replicate (M - 1) none ∧
      top.parent = none ∧ after.heap.cell address =
        some ((curNode.setSize (curNode.size - 1)).setParent (some tree.heap.next)) ∧
      after.heap.cell half = some (halfNode.setParent (some tree.heap.next)) ∧
      ∀ other, other ≠ address → other ≠ half → other ≠ tree.heap.next →
        after.heap.cell other = tree.heap.cell other := by
  have more : ∃ rest, M = rest + 2 := ⟨M - 2, by omega⟩
  rcases more with ⟨rest, rfl⟩
  let kvs : List (Key × Value) := mid :: List.replicate (rest + 1) default
  let fresh : BTreeNode Key Value := ⟨kvs, List.replicate (rest + 3) none, none, 1⟩
  have made : newNodeWith (rest + 2) mid = .ok fresh := rfl
  let subs : List Ptr := some address :: some half :: List.replicate (rest + 1) none
  have addressLt := Store.lt_next found
  have halfLt := Store.lt_next foundHalf
  have addressNe : address ≠ tree.heap.next := Nat.ne_of_lt addressLt
  have halfNe : half ≠ tree.heap.next := Nat.ne_of_lt halfLt
  let root : Ptr := some tree.heap.next
  let heap := ((((tree.heap.alloc fresh).modify address (.setSize (curNode.size - 1))).modify
    tree.heap.next (.setSlots kvs subs)).modify address (.setParent root)).modify half
    (.setParent root)
  refine ⟨⟨heap, root⟩, fresh.setSlots kvs subs, ?_, rfl, ?_, rfl, ⟨_, rfl, by simp⟩, rfl, rfl, ?_,
    ?_, ?_⟩
  · have subsOne : writeAt fresh.subs 0 (some address) =
        .ok (some address :: List.replicate (rest + 2) none) := rfl
    have subsTwo : writeAt (some address :: List.replicate (rest + 2) none) 1 (some half) =
        .ok subs := rfl
    simp [growRoot, made, found, foundHalf, Store.load_some, Store.assign_some, addressNe, halfNe,
      addressNe.symm, different.symm, subsOne, subsTwo, addressLt, halfLt, heap, root]
    rfl
  · simp [heap, addressNe.symm, halfNe.symm]
  · simp [heap, addressNe, different, found, addressLt]
    rfl
  · simp [heap, halfNe, different.symm, foundHalf, halfLt]
    rfl
  · intro other notCur notHalf notRoot
    simp [heap, notCur, notHalf, notRoot, Store.alloc]

end DataStructAlgorithm.DataStruct.BTree
