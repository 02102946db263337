import DataStructAlgorithm.DataStruct.Multiway.Nodes

/-! # The structure of the tree

The invariant speaks about every node that has been allocated, and not about the
paths that lead there. Each node has a level, its distance from the leaves below it. -/

namespace DataStructAlgorithm.DataStruct.BTree

open Foundation

variable {Key Value : Type}

/-- What a node at a level holds. -/
structure Shaped (M : Nat) (known : Key → Prop) (level : Nat) (node : BTreeNode Key Value) :
    Prop where
  kvsLength : node.kvs.length = M
  subsLength : node.subs.length = M + 1
  positive : 1 ≤ node.size
  size_le : node.size ≤ M
  known : ∀ i kv, i < node.size → node.kvs[i]? = some kv → known kv.1
  leaf : level = 0 → ∀ i, i ≤ node.size → node.subs[i]? = some none
  inner : 0 < level → ∀ i, i ≤ node.size → ∃ child, node.subs[i]? = some (some child)
  once : ∀ i j child, i ≤ node.size → j ≤ node.size → node.subs[i]? = some (some child) →
    node.subs[j]? = some (some child) → i = j

/-- The invariant. During an insertion the node `loose` has no parent yet, and the
node `overfull` may have one pair too many. -/
structure Formed (M : Nat) (known : Key → Prop) (tree : BTree Key Value) (level : Nat → Nat)
    (loose overfull : Ptr) : Prop where
  rooted : ∃ address node, tree.root = some address ∧ tree.heap.cell address = some node ∧
    node.parent = none
  loosened : ∀ address, loose = some address →
    tree.root ≠ some address ∧ ∃ node, tree.heap.cell address = some node ∧ node.parent = none
  shaped : ∀ address node, tree.heap.cell address = some node →
    Shaped M known (level address) node
  fits : ∀ address node, tree.heap.cell address = some node → overfull ≠ some address →
    node.size < M
  below : ∀ address node i child, tree.heap.cell address = some node → i ≤ node.size →
    node.subs[i]? = some (some child) → ∃ childNode, tree.heap.cell child = some childNode ∧
      childNode.parent = some address ∧ level child + 1 = level address
  above : ∀ address node, tree.heap.cell address = some node → tree.root ≠ some address →
    loose ≠ some address → ∃ parent parentNode, node.parent = some parent ∧
      tree.heap.cell parent = some parentNode ∧ level parent = level address + 1

namespace Shaped

variable {M level : Nat} {known : Key → Prop} {node : BTreeNode Key Value}

theorem setParent (shaped : Shaped M known level node) (parent : Ptr) :
    Shaped M known level (node.setParent parent) :=
  ⟨shaped.kvsLength, shaped.subsLength, shaped.positive, shaped.size_le, shaped.known,
    shaped.leaf, shaped.inner, shaped.once⟩

theorem mono {more : Key → Prop} (shaped : Shaped M known level node)
    (weaker : ∀ key, known key → more key) : Shaped M more level node :=
  ⟨shaped.kvsLength, shaped.subsLength, shaped.positive, shaped.size_le,
    fun i kv within stored => weaker kv.1 (shaped.known i kv within stored),
    shaped.leaf, shaped.inner, shaped.once⟩

/-- A node that drops its last pairs and children. -/
theorem setSize (shaped : Shaped M known level node) {size : Nat} (positive : 1 ≤ size)
    (smaller : size ≤ node.size) : Shaped M known level (node.setSize size) :=
  ⟨shaped.kvsLength, shaped.subsLength, positive, Nat.le_trans smaller shaped.size_le,
    fun i kv within => shaped.known i kv (Nat.lt_of_lt_of_le within smaller),
    fun isLeaf i within => shaped.leaf isLeaf i (Nat.le_trans within smaller),
    fun isInner i within => shaped.inner isInner i (Nat.le_trans within smaller),
    fun i j child iWithin jWithin => shaped.once i j child (Nat.le_trans iWithin smaller)
      (Nat.le_trans jWithin smaller)⟩

/-- The node that takes the second part of a divided node. -/
theorem half (shaped : Shaped M known level node) (three : 3 ≤ M) (full : node.size = M)
    {fresh taken : BTreeNode Key Value} (kvsLength : fresh.kvs.length = M)
    (subsLength : fresh.subs.length = M + 1) (freshSize : fresh.size = 0)
    (moved : Moved node (M / 2 + 1) fresh 0 (M - (M / 2 + 1)) taken) :
    Shaped M known level taken := by
  have size := moved.size
  have kvsMoved := moved.kvsMoved
  have subsMoved := moved.subsMoved
  rw [freshSize] at size
  simp only [Nat.zero_add] at size kvsMoved subsMoved
  refine ⟨moved.kvsLength.trans kvsLength, moved.subsLength.trans subsLength, by omega, by omega,
    ?_, ?_, ?_, ?_⟩
  · intro i kv within stored
    rw [kvsMoved i (by omega)] at stored
    exact shaped.known _ kv (by omega) stored
  · intro isLeaf i within
    rw [subsMoved i (by omega)]
    exact shaped.leaf isLeaf _ (by omega)
  · intro isInner i within
    rw [subsMoved i (by omega)]
    exact shaped.inner isInner _ (by omega)
  · intro i j child iWithin jWithin iStored jStored
    rw [subsMoved _ (by omega)] at iStored jStored
    have equal := shaped.once _ _ child (by omega) (by omega) iStored jStored
    omega

/-- A node that takes a pair and a child which it has not got yet. -/
theorem placed (shaped : Shaped M known level node) (room : node.size < M)
    {kv : Key × Value} {sub : Ptr} {grown : BTreeNode Key Value} {place : Nat}
    (placed : Placed node kv sub grown place) (kvKnown : known kv.1)
    (leafSub : level = 0 → sub = none) (innerSub : 0 < level → ∃ child, sub = some child)
    (fresh : ∀ i, i ≤ node.size → ∀ child, node.subs[i]? = some (some child) →
      sub ≠ some child) :
    Shaped M known level grown := by
  have size := placed.size
  refine ⟨placed.kvsLength.trans shaped.kvsLength, placed.subsLength.trans shaped.subsLength,
    by omega, by omega, ?_, ?_, ?_, ?_⟩
  · intro i pair within stored
    rcases placed.kvs_cases within with isNew | ⟨j, less, isOld⟩
    · rw [isNew] at stored
      cases stored
      exact kvKnown
    · exact shaped.known j pair less (isOld.symm.trans stored)
  · intro isLeaf i within
    rcases placed.subs_cases within with ⟨_, isNew⟩ | ⟨j, less, _, isOld⟩
    · rw [isNew, leafSub isLeaf]
    · rw [isOld, shaped.leaf isLeaf j less]
  · intro isInner i within
    rcases placed.subs_cases within with ⟨_, isNew⟩ | ⟨j, less, _, isOld⟩
    · rcases innerSub isInner with ⟨child, equal⟩
      exact ⟨child, by rw [isNew, equal]⟩
    · rcases shaped.inner isInner j less with ⟨child, stored⟩
      exact ⟨child, isOld.trans stored⟩
  · intro i j child iWithin jWithin iStored jStored
    rcases placed.subs_cases iWithin with ⟨iEq, iNew⟩ | ⟨i', iLess, iEq, iOld⟩ <;>
      rcases placed.subs_cases jWithin with ⟨jEq, jNew⟩ | ⟨j', jLess, jEq, jOld⟩
    · omega
    · exact absurd (Option.some.inj (iNew.symm.trans iStored))
        (fresh j' jLess child (jOld.symm.trans jStored))
    · exact absurd (Option.some.inj (jNew.symm.trans jStored))
        (fresh i' iLess child (iOld.symm.trans iStored))
    · have equal := shaped.once i' j' child iLess jLess (iOld.symm.trans iStored)
        (jOld.symm.trans jStored)
      rw [iEq, jEq, equal]

end Shaped

namespace Formed

variable {M : Nat} {known : Key → Prop} {tree : BTree Key Value} {level : Nat → Nat}
  {loose overfull : Ptr}

theorem mono {more : Key → Prop} (formed : Formed M known tree level loose overfull)
    (weaker : ∀ key, known key → more key) : Formed M more tree level loose overfull :=
  ⟨formed.rooted, formed.loosened,
    fun address node found => (formed.shaped address node found).mono weaker, formed.fits,
    formed.below, formed.above⟩

/-- A node that has kept its place in the order fits again. -/
theorem settle {cur : Nat} {node : BTreeNode Key Value}
    (formed : Formed M known tree level loose (some cur))
    (found : tree.heap.cell cur = some node) (small : node.size < M) :
    Formed M known tree level loose none := by
  refine ⟨formed.rooted, formed.loosened, formed.shaped, ?_, formed.below, formed.above⟩
  intro address other otherFound _
  by_cases equal : address = cur
  · subst equal
    rw [otherFound] at found
    cases found
    exact small
  · exact formed.fits address other otherFound fun same => equal (Option.some.inj same).symm

/-- The children of a node are other nodes. -/
theorem children {cur : Nat} {node : BTreeNode Key Value}
    (formed : Formed M known tree level loose overfull) (found : tree.heap.cell cur = some node)
    {i child : Nat} (within : i ≤ node.size) (stored : node.subs[i]? = some (some child)) :
    child ≠ cur ∧ ∃ below, tree.heap.cell child = some below := by
  rcases formed.below cur node i child found within stored with ⟨below, belowFound, _, levelEq⟩
  refine ⟨?_, below, belowFound⟩
  intro equal
  rw [equal] at levelEq
  omega

/-- `_BaseInsert` of a pair and the node that has no parent yet. -/
theorem place [LinearOrder Key] {cur : Nat} {node : BTreeNode Key Value}
    (formed : Formed M known tree level loose none) (found : tree.heap.cell cur = some node)
    {kv : Key × Value} (kvKnown : known kv.1) (leafLoose : level cur = 0 → loose = none)
    (innerLoose : 0 < level cur → ∃ child, loose = some child ∧ level child + 1 = level cur) :
    ∃ heap grown, baseInsert tree.heap (some cur) loose kv = .ok heap ∧
      heap.cell cur = some grown ∧ grown.size = node.size + 1 ∧ grown.parent = node.parent ∧
      (∀ other, other ≠ cur → loose ≠ some other → heap.cell other = tree.heap.cell other) ∧
      heap.next = tree.heap.next ∧ Formed M known ⟨heap, tree.root⟩ level none (some cur) := by
  have shaped := formed.shaped cur node found
  have room : node.size < M := formed.fits cur node found (by simp)
  have kvsLength := shaped.kvsLength
  have subsLength := shaped.subsLength
  have looseLevel : ∀ child, loose = some child → level child + 1 = level cur := by
    intro child equal
    by_cases isLeaf : level cur = 0
    · rw [leafLoose isLeaf] at equal
      cases equal
    · rcases innerLoose (by omega) with ⟨other, otherEq, levelEq⟩
      rw [equal] at otherEq
      cases otherEq
      exact levelEq
  have looseNe : ∀ child, loose = some child → child ≠ cur := by
    intro child equal same
    have levelEq := looseLevel child equal
    rw [same] at levelEq
    omega
  -- the node without a parent is nobody's child
  have looseFree : ∀ address other i child, tree.heap.cell address = some other →
      i ≤ other.size → other.subs[i]? = some (some child) → loose ≠ some child := by
    intro address other i child otherFound within stored equal
    rcases formed.below address other i child otherFound within stored with
      ⟨childNode, childFound, parentEq, _⟩
    rcases formed.loosened child equal with ⟨_, looseNode, looseFound, noParent⟩
    rw [childFound] at looseFound
    cases looseFound
    rw [noParent] at parentEq
    cases parentEq
  rcases baseInsert_spec found (by omega) (by omega)
    (fun child equal => ⟨looseNe child equal, (formed.loosened child equal).2.imp fun _ parts =>
      parts.1⟩) kv with
    ⟨heap, grown, place, inserted, placed, foundGrown, adopted, others, next⟩
  have kept : ∀ other otherNode, tree.heap.cell other = some otherNode → other ≠ cur →
      heap.cell other = some (if loose = some other then otherNode.setParent (some cur)
        else otherNode) := by
    intro other otherNode otherFound different
    by_cases isLoose : loose = some other
    · rw [adopted other isLoose, otherFound, if_pos isLoose]
      rfl
    · rw [others other different (Ne.symm isLoose), otherFound, if_neg isLoose]
  have cells : ∀ other after, heap.cell other = some after → other ≠ cur →
      ∃ otherNode, tree.heap.cell other = some otherNode ∧
        after = if loose = some other then otherNode.setParent (some cur) else otherNode := by
    intro other after afterFound different
    cases otherFound : tree.heap.cell other with
    | some otherNode =>
        rw [kept other otherNode otherFound different] at afterFound
        exact ⟨otherNode, rfl, (Option.some.inj afterFound).symm⟩
    | none =>
        by_cases isLoose : loose = some other
        · rw [adopted other isLoose, otherFound] at afterFound
          cases afterFound
        · rw [others other different (Ne.symm isLoose), otherFound] at afterFound
          cases afterFound
  refine ⟨heap, grown, inserted, foundGrown, placed.size, placed.parent,
    fun other different notLoose => others other different (Ne.symm notLoose), next,
    ⟨?_, fun _ equal => (nomatch equal), ?_, ?_, ?_, ?_⟩⟩
  · rcases formed.rooted with ⟨root, rootNode, rootEq, rootFound, noParent⟩
    by_cases isCur : root = cur
    · subst isCur
      rw [found] at rootFound
      cases rootFound
      exact ⟨root, grown, rootEq, foundGrown, placed.parent.trans noParent⟩
    · have notLoose : loose ≠ some root := fun equal => (formed.loosened root equal).1 rootEq
      exact ⟨root, rootNode, rootEq, by rw [kept root rootNode rootFound isCur, if_neg notLoose],
        noParent⟩
  · intro address after afterFound
    by_cases isCur : address = cur
    · subst isCur
      rw [foundGrown] at afterFound
      cases afterFound
      exact shaped.placed room placed kvKnown leafLoose
        (fun isInner => (innerLoose isInner).imp fun _ parts => parts.1)
        fun i within child stored => looseFree address node i child found within stored
    · rcases cells address after afterFound isCur with ⟨other, otherFound, rfl⟩
      by_cases isLoose : loose = some address
      · rw [if_pos isLoose]
        exact (formed.shaped address other otherFound).setParent _
      · rw [if_neg isLoose]
        exact formed.shaped address other otherFound
  · intro address after afterFound different
    have isCur : address ≠ cur := fun equal => different (congrArg some equal.symm)
    rcases cells address after afterFound isCur with ⟨other, otherFound, rfl⟩
    have small := formed.fits address other otherFound (by simp)
    by_cases isLoose : loose = some address
    · rw [if_pos isLoose]
      exact small
    · rw [if_neg isLoose]
      exact small
  · intro address after i child afterFound within stored
    by_cases isCur : address = cur
    · subst isCur
      rw [foundGrown] at afterFound
      cases afterFound
      rcases placed.subs_cases within with ⟨_, isNew⟩ | ⟨j, less, _, isOld⟩
      · have isLoose := Option.some.inj (isNew.symm.trans stored)
        rcases formed.loosened child isLoose with ⟨_, childNode, childFound, _⟩
        exact ⟨childNode.setParent (some address),
          by rw [kept child childNode childFound (looseNe child isLoose), if_pos isLoose], rfl,
          looseLevel child isLoose⟩
      · have oldStored := isOld.symm.trans stored
        rcases formed.below address node j child found less oldStored with
          ⟨childNode, childFound, parentEq, levelEq⟩
        have notLoose := looseFree address node j child found less oldStored
        have notCur := (formed.children found less oldStored).1
        exact ⟨childNode, by rw [kept child childNode childFound notCur, if_neg notLoose],
          parentEq, levelEq⟩
    · rcases cells address after afterFound isCur with ⟨other, otherFound, afterEq⟩
      have sizeEq : after.size = other.size := by
        rw [afterEq]
        split <;> rfl
      have subsEq : after.subs = other.subs := by
        rw [afterEq]
        split <;> rfl
      rw [sizeEq] at within
      rw [subsEq] at stored
      rcases formed.below address other i child otherFound within stored with
        ⟨childNode, childFound, parentEq, levelEq⟩
      have notLoose := looseFree address other i child otherFound within stored
      by_cases childCur : child = cur
      · subst childCur
        rw [found] at childFound
        cases childFound
        exact ⟨grown, foundGrown, placed.parent.trans parentEq, levelEq⟩
      · exact ⟨childNode, by rw [kept child childNode childFound childCur, if_neg notLoose],
          parentEq, levelEq⟩
  · intro address after afterFound notRoot _
    have stays : ∀ parent parentNode, tree.heap.cell parent = some parentNode →
        ∃ parentAfter, heap.cell parent = some parentAfter := by
      intro parent parentNode parentFound
      by_cases isCur : parent = cur
      · exact ⟨grown, isCur ▸ foundGrown⟩
      · exact ⟨_, kept parent parentNode parentFound isCur⟩
    by_cases isCur : address = cur
    · subst isCur
      rw [foundGrown] at afterFound
      cases afterFound
      rcases formed.above address node found notRoot (fun equal => looseNe address equal rfl) with
        ⟨parent, parentNode, parentEq, parentFound, levelEq⟩
      rcases stays parent parentNode parentFound with ⟨parentAfter, afterParent⟩
      exact ⟨parent, parentAfter, placed.parent.trans parentEq, afterParent, levelEq⟩
    · rcases cells address after afterFound isCur with ⟨other, otherFound, rfl⟩
      by_cases isLoose : loose = some address
      · rw [if_pos isLoose]
        exact ⟨cur, grown, rfl, foundGrown, (looseLevel address isLoose).symm⟩
      · rw [if_neg isLoose]
        rcases formed.above address other otherFound notRoot isLoose with
          ⟨parent, parentNode, parentEq, parentFound, levelEq⟩
        rcases stays parent parentNode parentFound with ⟨parentAfter, afterParent⟩
        exact ⟨parent, parentAfter, parentEq, afterParent, levelEq⟩

variable [Inhabited Key] [Inhabited Value]

/-- The division of a leaf that has a parent. Its second part has none yet. -/
theorem divideLeaf (three : 3 ≤ M) {cur : Nat} {node : BTreeNode Key Value}
    (formed : Formed M known tree level none (some cur)) (found : tree.heap.cell cur = some node)
    (full : node.size = M) (isLeaf : level cur = 0) (notRoot : tree.root ≠ some cur) :
    ∃ heap, divideNode M tree.heap (some cur) = .ok (heap, some tree.heap.next) ∧
      heap.cell cur = some (node.setSize (M / 2 + 1)) ∧
      (∀ other otherNode, other ≠ cur → tree.heap.cell other = some otherNode →
        heap.cell other = some otherNode) ∧
      Formed M known ⟨heap, tree.root⟩
        (fun address => if address = tree.heap.next then 0 else level address)
        (some tree.heap.next) none := by
  have shaped := formed.shaped cur node found
  have curLt := Store.lt_next found
  have noChild : ∀ i child, i ≤ M → node.subs[i]? ≠ some (some child) := by
    intro i child within stored
    rw [shaped.leaf isLeaf i (by omega)] at stored
    cases stored
  rcases divideNode_spec (by omega) found shaped.kvsLength shaped.subsLength full
    (fun i child within stored => absurd stored (noChild i child within)) with
    ⟨heap, half, divideEq, foundHalf, moved, divided⟩
  have foundCur : heap.cell cur = some (node.setSize (M / 2 + 1)) := by
    rw [divided.cur, full]
    congr 2
    omega
  have kept : ∀ other otherNode, other ≠ cur → tree.heap.cell other = some otherNode →
      heap.cell other = some otherNode := by
    intro other otherNode notCur otherFound
    have otherLt := Store.lt_next otherFound
    rw [divided.others other notCur (Nat.ne_of_lt otherLt)
      (fun k small => noChild _ other (by omega)), Store.cell_alloc_of_lt _ _ otherLt, otherFound]
  have cells : ∀ other after, heap.cell other = some after → other ≠ cur →
      other ≠ tree.heap.next → tree.heap.cell other = some after := by
    intro other after afterFound notCur notHalf
    rw [divided.others other notCur notHalf (fun k small => noChild _ other (by omega))]
      at afterFound
    simpa [Store.alloc, notHalf] using afterFound
  have halfShaped : Shaped M known 0 half := by
    have curShaped := shaped
    rw [isLeaf] at curShaped
    exact curShaped.half three full List.length_replicate List.length_replicate rfl moved
  have stays : ∀ parent parentNode, tree.heap.cell parent = some parentNode →
      ∃ parentAfter, heap.cell parent = some parentAfter := by
    intro parent parentNode parentFound
    by_cases isCur : parent = cur
    · exact ⟨_, isCur ▸ foundCur⟩
    · exact ⟨_, kept parent parentNode isCur parentFound⟩
  refine ⟨heap, divideEq, foundCur, kept, ⟨?_, ?_, ?_, ?_, ?_, ?_⟩⟩
  · rcases formed.rooted with ⟨root, rootNode, rootEq, rootFound, noParent⟩
    have notCur : root ≠ cur := fun equal => notRoot (rootEq.trans (congrArg some equal))
    exact ⟨root, rootNode, rootEq, kept root rootNode notCur rootFound, noParent⟩
  · intro address equal
    cases equal
    refine ⟨?_, half, foundHalf, moved.parent⟩
    rcases formed.rooted with ⟨root, rootNode, rootEq, rootFound, _⟩
    intro same
    have rootLt := Store.lt_next rootFound
    rw [Option.some.inj (rootEq.symm.trans same)] at rootLt
    exact Nat.lt_irrefl _ rootLt
  · intro address after afterFound
    by_cases isHalf : address = tree.heap.next
    · subst isHalf
      rw [foundHalf] at afterFound
      cases afterFound
      rw [if_pos rfl]
      exact halfShaped
    · rw [if_neg isHalf]
      by_cases isCur : address = cur
      · subst isCur
        rw [foundCur] at afterFound
        cases afterFound
        exact shaped.setSize (by omega) (by omega)
      · exact formed.shaped address after (cells address after afterFound isCur isHalf)
  · intro address after afterFound _
    by_cases isHalf : address = tree.heap.next
    · subst isHalf
      rw [foundHalf] at afterFound
      cases afterFound
      have size := moved.size
      have empty : (newNode M : BTreeNode Key Value).size = 0 := rfl
      omega
    · by_cases isCur : address = cur
      · subst isCur
        rw [foundCur] at afterFound
        cases afterFound
        simp only [BTreeNode.setSize]
        omega
      · exact formed.fits address after (cells address after afterFound isCur isHalf)
          fun equal => isCur (Option.some.inj equal).symm
  · intro address after i child afterFound within stored
    by_cases isHalf : address = tree.heap.next
    · subst isHalf
      rw [foundHalf] at afterFound
      cases afterFound
      rw [halfShaped.leaf rfl i within] at stored
      cases stored
    · by_cases isCur : address = cur
      · subst isCur
        rw [foundCur] at afterFound
        cases afterFound
        simp only [BTreeNode.setSize] at within
        exact absurd stored (noChild i child (by omega))
      · rcases formed.below address after i child (cells address after afterFound isCur isHalf)
          within stored with ⟨childNode, childFound, parentEq, levelEq⟩
        have childNe : child ≠ tree.heap.next := Nat.ne_of_lt (Store.lt_next childFound)
        rw [if_neg isHalf, if_neg childNe]
        by_cases childCur : child = cur
        · subst childCur
          rw [found] at childFound
          cases childFound
          exact ⟨_, foundCur, parentEq, levelEq⟩
        · exact ⟨childNode, kept child childNode childCur childFound, parentEq, levelEq⟩
  · intro address after afterFound addressNe notLoose
    have isHalf : address ≠ tree.heap.next := fun equal => notLoose (congrArg some equal.symm)
    rw [if_neg isHalf]
    have hung : ∃ old, tree.heap.cell address = some old ∧ after.parent = old.parent := by
      by_cases isCur : address = cur
      · subst isCur
        rw [foundCur] at afterFound
        cases afterFound
        exact ⟨node, found, rfl⟩
      · exact ⟨after, cells address after afterFound isCur isHalf, rfl⟩
    rcases hung with ⟨old, oldFound, parentSame⟩
    rcases formed.above address old oldFound addressNe (by simp) with
      ⟨parent, parentNode, parentEq, parentFound, levelEq⟩
    rcases stays parent parentNode parentFound with ⟨parentAfter, afterParent⟩
    have parentNe : parent ≠ tree.heap.next := Nat.ne_of_lt (Store.lt_next parentFound)
    exact ⟨parent, parentAfter, parentSame.trans parentEq, afterParent,
      by rw [if_neg parentNe]; exact levelEq⟩

end Formed

end DataStructAlgorithm.DataStruct.BTree
