import DataStructAlgorithm.DataStruct.Multiway.Structure

/-! # The structure after the division of the root -/

namespace DataStructAlgorithm.DataStruct.BTree

open Foundation

variable {Key Value : Type}

section Root

variable [Inhabited Key] [Inhabited Value]

/-- The memory after the root `cur` has been divided: `half` has the second part,
and `top` is the new root. -/
structure RootDivided (M : Nat) (tree : BTree Key Value) (cur : Nat)
    (node half top : BTreeNode Key Value) (mid : Key × Value) (after : BTree Key Value) : Prop where
  root_eq : after.root = some (tree.heap.next + 1)
  foundTop : after.heap.cell (tree.heap.next + 1) = some top
  foundCur : after.heap.cell cur =
    some ((node.setSize (M / 2)).setParent (some (tree.heap.next + 1)))
  foundHalf : after.heap.cell tree.heap.next = some (half.setParent (some (tree.heap.next + 1)))
  topSize : top.size = 1
  topKvs : ∃ junk, top.kvs = mid :: junk ∧ junk.length + 1 = M
  topSubs : top.subs = some cur :: some tree.heap.next :: List.replicate (M - 1) none
  topParent : top.parent = none
  halfMoved : Moved node (M / 2 + 1) (newNode M) 0 (M - (M / 2 + 1)) half
  moved : ∀ other otherNode, tree.heap.cell other = some otherNode →
    (∃ k, M / 2 < k ∧ k ≤ M ∧ node.subs[k]? = some (some other)) →
    after.heap.cell other = some (otherNode.setParent (some tree.heap.next))
  kept : ∀ other otherNode, tree.heap.cell other = some otherNode → other ≠ cur →
    (∀ k, M / 2 < k → k ≤ M → node.subs[k]? ≠ some (some other)) →
    after.heap.cell other = some otherNode
  old : ∀ other afterNode, after.heap.cell other = some afterNode → other ≠ cur →
    other ≠ tree.heap.next → other ≠ tree.heap.next + 1 →
    ∃ otherNode, tree.heap.cell other = some otherNode

theorem Formed.rootDivided {M : Nat} {known : Key → Prop} {tree : BTree Key Value}
    {level : Nat → Nat} {loose overfull : Ptr} (three : 3 ≤ M) {cur : Nat} {node : BTreeNode Key Value}
    (formed : Formed M known tree level loose overfull) (found : tree.heap.cell cur = some node)
    (full : node.size = M) (mid : Key × Value) :
    ∃ heap after half top,
      divideNode M tree.heap (some cur) = .ok (heap, some tree.heap.next) ∧
      heap.cell cur = some (node.setSize (M / 2 + 1)) ∧
      growRoot M ⟨heap, tree.root⟩ (some cur) (some tree.heap.next) mid = .ok after ∧
      RootDivided M tree cur node half top mid after := by
  have shaped := formed.shaped cur node found
  have curLt := Store.lt_next found
  have children : ∀ k child, k ≤ M → node.subs[k]? = some (some child) →
      child ≠ cur ∧ ∃ below, tree.heap.cell child = some below :=
    fun k child within stored => formed.children found (full ▸ within) stored
  rcases divideNode_spec (by omega) found shaped.kvsLength shaped.subsLength full children with
    ⟨heap, half, divideEq, foundHalf, moved, divided⟩
  have foundCur : heap.cell cur = some (node.setSize (M / 2 + 1)) := by
    rw [divided.cur, full]
    congr 2
    omega
  rcases growRoot_spec ⟨heap, tree.root⟩ foundCur foundHalf (Nat.ne_of_lt curLt)
    (show 1 < M by omega) mid with
    ⟨after, top, growEq, rootEq, foundTop, topSize, topKvs, topSubs, topParent, afterCur,
      afterHalf, afterOthers⟩
  have nextEq : heap.next = tree.heap.next + 1 := divided.next
  simp only [nextEq] at rootEq foundTop afterCur afterHalf afterOthers
  have unchanged : ∀ other otherNode, tree.heap.cell other = some otherNode → other ≠ cur →
      after.heap.cell other = heap.cell other := by
    intro other otherNode otherFound notCur
    have otherLt := Store.lt_next otherFound
    exact afterOthers other notCur (Nat.ne_of_lt otherLt) (by omega)
  have split : ∀ k, M / 2 < k → M / 2 + 1 + (k - (M / 2 + 1)) = k := fun k beyond => by omega
  refine ⟨heap, after, half, top, divideEq, foundCur, growEq, ⟨rootEq, foundTop, afterCur,
    afterHalf, topSize, topKvs, topSubs, topParent, moved, ?_, ?_, ?_⟩⟩
  · intro other otherNode otherFound isMoved
    rcases isMoved with ⟨k, beyond, within, stored⟩
    have notCur := (children k other within stored).1
    rw [← split k beyond] at stored
    rw [unchanged other otherNode otherFound notCur, divided.moved _ other (by omega) stored,
      Store.cell_alloc_of_lt _ _ (Store.lt_next otherFound), otherFound]
    rfl
  · intro other otherNode otherFound notCur notMoved
    have otherLt := Store.lt_next otherFound
    rw [unchanged other otherNode otherFound notCur, divided.others other notCur
      (Nat.ne_of_lt otherLt) (fun k small stored => notMoved _ (by omega) (by omega) stored),
      Store.cell_alloc_of_lt _ _ otherLt, otherFound]
  · intro other afterNode afterFound notCur notHalf notTop
    by_cases isMoved : ∃ k, k ≤ M - (M / 2 + 1) ∧ node.subs[M / 2 + 1 + k]? = some (some other)
    · rcases isMoved with ⟨k, small, stored⟩
      exact (children _ other (by omega) stored).2
    · rw [afterOthers other notCur notHalf notTop, divided.others other notCur notHalf
        fun k small stored => isMoved ⟨k, small, stored⟩] at afterFound
      exact ⟨afterNode, by simpa [Store.alloc, notHalf] using afterFound⟩

end Root

namespace RootDivided

variable {M : Nat} {known : Key → Prop} {tree after : BTree Key Value} {level : Nat → Nat}
  {cur : Nat} {node half top : BTreeNode Key Value} {mid : Key × Value}

/-- The levels after the division of the root. -/
def levelAfter (tree : BTree Key Value) (cur : Nat) (level : Nat → Nat) (address : Nat) : Nat :=
  if address = tree.heap.next + 1 then level cur + 1
  else if address = tree.heap.next then level cur else level address

@[simp] theorem levelAfter_top :
    levelAfter tree cur level (tree.heap.next + 1) = level cur + 1 := if_pos rfl

@[simp] theorem levelAfter_half : levelAfter tree cur level tree.heap.next = level cur := by
  simp [levelAfter]

theorem levelAfter_old {address : Nat} {old : BTreeNode Key Value}
    (found : tree.heap.cell address = some old) :
    levelAfter tree cur level address = level address := by
  have less := Store.lt_next found
  rw [levelAfter, if_neg (by omega), if_neg (by omega)]

variable [Inhabited Key] [Inhabited Value]

/-- Every other node has kept all but perhaps its parent. -/
theorem cases_old (divided : RootDivided M tree cur node half top mid after) {other : Nat}
    {afterNode : BTreeNode Key Value} (found : after.heap.cell other = some afterNode)
    (notCur : other ≠ cur) (notHalf : other ≠ tree.heap.next)
    (notTop : other ≠ tree.heap.next + 1) :
    ∃ otherNode, tree.heap.cell other = some otherNode ∧
      ((∃ k, M / 2 < k ∧ k ≤ M ∧ node.subs[k]? = some (some other)) ∧
          afterNode = otherNode.setParent (some tree.heap.next) ∨
        (∀ k, M / 2 < k → k ≤ M → node.subs[k]? ≠ some (some other)) ∧ afterNode = otherNode) := by
  rcases divided.old other afterNode found notCur notHalf notTop with ⟨otherNode, otherFound⟩
  refine ⟨otherNode, otherFound, ?_⟩
  by_cases isMoved : ∃ k, M / 2 < k ∧ k ≤ M ∧ node.subs[k]? = some (some other)
  · rw [divided.moved other otherNode otherFound isMoved] at found
    exact Or.inl ⟨isMoved, (Option.some.inj found).symm⟩
  · have notMoved : ∀ k, M / 2 < k → k ≤ M → node.subs[k]? ≠ some (some other) :=
      fun k beyond within stored => isMoved ⟨k, beyond, within, stored⟩
    rw [divided.kept other otherNode otherFound notCur notMoved] at found
    exact Or.inr ⟨notMoved, (Option.some.inj found).symm⟩

/-- The invariant holds again, part by part. -/
theorem shaped (divided : RootDivided M tree cur node half top mid after) (three : 3 ≤ M)
    (formed : Formed M known tree level none (some cur)) (found : tree.heap.cell cur = some node)
    (full : node.size = M) (midKnown : known mid.1) (address : Nat)
    (afterNode : BTreeNode Key Value) (afterFound : after.heap.cell address = some afterNode) :
    Shaped M known (levelAfter tree cur level address) afterNode ∧ afterNode.size < M := by
  have curShaped := formed.shaped cur node found
  have curLt := Store.lt_next found
  by_cases isTop : address = tree.heap.next + 1
  · subst isTop
    have equal := Option.some.inj (divided.foundTop.symm.trans afterFound)
    subst equal
    rcases divided.topKvs with ⟨junk, topKvs, junkLength⟩
    have size := divided.topSize
    have subs := divided.topSubs
    rw [levelAfter_top]
    refine ⟨⟨by simp [topKvs, junkLength], by simp [subs]; omega, by omega, by omega, ?_, by simp,
      ?_, ?_⟩, by omega⟩
    · intro i kv within stored
      have zero : i = 0 := by omega
      subst zero
      simp only [topKvs, List.getElem?_cons_zero, Option.some.injEq] at stored
      exact stored ▸ midKnown
    · intro _ i within
      match i, (show i ≤ 1 by omega) with
      | 0, _ => exact ⟨cur, by simp [subs]⟩
      | 1, _ => exact ⟨tree.heap.next, by simp [subs]⟩
    · intro i j child iWithin jWithin iStored jStored
      match i, j, (show i ≤ 1 by omega), (show j ≤ 1 by omega) with
      | 0, 0, _, _ => rfl
      | 1, 1, _, _ => rfl
      | 0, 1, _, _ =>
          simp only [subs, List.getElem?_cons_zero, List.getElem?_cons_succ,
            Option.some.injEq] at iStored jStored
          omega
      | 1, 0, _, _ =>
          simp only [subs, List.getElem?_cons_zero, List.getElem?_cons_succ,
            Option.some.injEq] at iStored jStored
          omega
  · by_cases isHalf : address = tree.heap.next
    · subst isHalf
      have equal := Option.some.inj (divided.foundHalf.symm.trans afterFound)
      subst equal
      have size : half.size = M - (M / 2 + 1) := divided.halfMoved.size.trans (Nat.zero_add _)
      have halfShaped : Shaped M known (level cur) half :=
        curShaped.half three full List.length_replicate List.length_replicate rfl divided.halfMoved
      rw [levelAfter_half]
      exact ⟨halfShaped.setParent _, by simp only [BTreeNode.setParent]; omega⟩
    · by_cases isCur : address = cur
      · subst isCur
        have equal := Option.some.inj (divided.foundCur.symm.trans afterFound)
        subst equal
        rw [levelAfter_old found]
        exact ⟨(curShaped.setSize (by omega) (by omega)).setParent _,
          by simp only [BTreeNode.setParent, BTreeNode.setSize]; omega⟩
      · rcases divided.cases_old afterFound isCur isHalf isTop with
          ⟨otherNode, otherFound, ⟨_, rfl⟩ | ⟨_, rfl⟩⟩
        · rw [levelAfter_old otherFound]
          exact ⟨(formed.shaped address otherNode otherFound).setParent _,
            formed.fits address otherNode otherFound (by simpa using Ne.symm isCur)⟩
        · rw [levelAfter_old otherFound]
          exact ⟨formed.shaped address afterNode otherFound,
            formed.fits address afterNode otherFound (by simpa using Ne.symm isCur)⟩

theorem below (divided : RootDivided M tree cur node half top mid after) (three : 3 ≤ M)
    (formed : Formed M known tree level none (some cur)) (found : tree.heap.cell cur = some node)
    (full : node.size = M) (isRoot : tree.root = some cur) (address : Nat)
    (afterNode : BTreeNode Key Value) (i child : Nat)
    (afterFound : after.heap.cell address = some afterNode) (within : i ≤ afterNode.size)
    (stored : afterNode.subs[i]? = some (some child)) :
    ∃ childNode, after.heap.cell child = some childNode ∧ childNode.parent = some address ∧
      levelAfter tree cur level child + 1 = levelAfter tree cur level address := by
  have curShaped := formed.shaped cur node found
  by_cases isTop : address = tree.heap.next + 1
  · subst isTop
    have equal := Option.some.inj (divided.foundTop.symm.trans afterFound)
    subst equal
    have size := divided.topSize
    have subs := divided.topSubs
    match i, (show i ≤ 1 by omega) with
    | 0, _ =>
        have childEq : cur = child := by simpa [subs] using stored
        subst childEq
        exact ⟨_, divided.foundCur, rfl, by rw [levelAfter_old found, levelAfter_top]⟩
    | 1, _ =>
        have childEq : tree.heap.next = child := by simpa [subs] using stored
        subst childEq
        exact ⟨_, divided.foundHalf, rfl, by rw [levelAfter_half, levelAfter_top]⟩
  · by_cases isHalf : address = tree.heap.next
    · subst isHalf
      have equal := Option.some.inj (divided.foundHalf.symm.trans afterFound)
      subst equal
      have size : half.size = M - (M / 2 + 1) := divided.halfMoved.size.trans (Nat.zero_add _)
      simp only [BTreeNode.setParent] at within stored
      have copied := divided.halfMoved.subsMoved i (by omega)
      rw [Nat.zero_add, stored] at copied
      rcases formed.below cur node _ child found (by omega) copied.symm with
        ⟨childNode, childFound, _, levelEq⟩
      refine ⟨_, divided.moved child childNode childFound
        ⟨_, by omega, by omega, copied.symm⟩, rfl, ?_⟩
      rw [levelAfter_old childFound, levelAfter_half, levelEq]
    · by_cases isCur : address = cur
      · subst isCur
        have equal := Option.some.inj (divided.foundCur.symm.trans afterFound)
        subst equal
        simp only [BTreeNode.setParent, BTreeNode.setSize] at within stored
        rcases formed.below address node i child found (by omega) stored with
          ⟨childNode, childFound, parentEq, levelEq⟩
        have childNe := (formed.children found (by omega) stored).1
        refine ⟨childNode, divided.kept child childNode childFound childNe ?_, parentEq, ?_⟩
        · intro k beyond small storedTwice
          have equal := curShaped.once i k child (by omega) (by omega) stored storedTwice
          omega
        · rw [levelAfter_old childFound, levelAfter_old found, levelEq]
      · rcases divided.cases_old afterFound isCur isHalf isTop with ⟨otherNode, otherFound, parts⟩
        have sameSize : afterNode.size = otherNode.size := by
          rcases parts with ⟨_, rfl⟩ | ⟨_, rfl⟩ <;> rfl
        have sameSubs : afterNode.subs = otherNode.subs := by
          rcases parts with ⟨_, rfl⟩ | ⟨_, rfl⟩ <;> rfl
        rw [sameSize] at within
        rw [sameSubs] at stored
        rcases formed.below address otherNode i child otherFound within stored with
          ⟨childNode, childFound, parentEq, levelEq⟩
        have childNe : child ≠ cur := by
          intro equal
          rcases formed.rooted with ⟨root, rootNode, rootEq, rootFound, noParent⟩
          have curIsRoot := Option.some.inj (rootEq.symm.trans isRoot)
          rw [curIsRoot, ← equal, childFound] at rootFound
          cases rootFound
          rw [parentEq] at noParent
          cases noParent
        refine ⟨childNode, divided.kept child childNode childFound childNe ?_, parentEq, ?_⟩
        · intro k _ small storedTwice
          rcases formed.below cur node k child found (by omega) storedTwice with
            ⟨sameNode, sameFound, sameParent, _⟩
          rw [childFound] at sameFound
          cases sameFound
          exact isCur (Option.some.inj (parentEq.symm.trans sameParent))
        · rw [levelAfter_old childFound, levelAfter_old otherFound, levelEq]

theorem stays (divided : RootDivided M tree cur node half top mid after) {other : Nat}
    {otherNode : BTreeNode Key Value} (found : tree.heap.cell other = some otherNode) :
    ∃ afterNode, after.heap.cell other = some afterNode := by
  by_cases isCur : other = cur
  · exact ⟨_, isCur ▸ divided.foundCur⟩
  · by_cases isMoved : ∃ k, M / 2 < k ∧ k ≤ M ∧ node.subs[k]? = some (some other)
    · exact ⟨_, divided.moved other otherNode found isMoved⟩
    · exact ⟨_, divided.kept other otherNode found isCur
        fun k beyond within stored => isMoved ⟨k, beyond, within, stored⟩⟩

theorem above (divided : RootDivided M tree cur node half top mid after)
    (formed : Formed M known tree level none (some cur)) (found : tree.heap.cell cur = some node)
    (full : node.size = M) (isRoot : tree.root = some cur) (address : Nat)
    (afterNode : BTreeNode Key Value) (afterFound : after.heap.cell address = some afterNode)
    (notRoot : after.root ≠ some address) :
    ∃ parent parentNode, afterNode.parent = some parent ∧
      after.heap.cell parent = some parentNode ∧
      levelAfter tree cur level parent = levelAfter tree cur level address + 1 := by
  have notTop : address ≠ tree.heap.next + 1 := by
    intro equal
    exact notRoot (by rw [divided.root_eq, equal])
  by_cases isHalf : address = tree.heap.next
  · subst isHalf
    have equal := Option.some.inj (divided.foundHalf.symm.trans afterFound)
    subst equal
    exact ⟨_, top, rfl, divided.foundTop, by rw [levelAfter_top, levelAfter_half]⟩
  · by_cases isCur : address = cur
    · subst isCur
      have equal := Option.some.inj (divided.foundCur.symm.trans afterFound)
      subst equal
      exact ⟨_, top, rfl, divided.foundTop, by rw [levelAfter_top, levelAfter_old found]⟩
    · rcases divided.cases_old afterFound isCur isHalf notTop with
        ⟨otherNode, otherFound, ⟨⟨k, _, small, stored⟩, rfl⟩ | ⟨_, rfl⟩⟩
      · rcases formed.below cur node k address found (by omega) stored with ⟨_, _, _, levelEq⟩
        exact ⟨_, _, rfl, divided.foundHalf,
          by rw [levelAfter_half, levelAfter_old otherFound, levelEq]⟩
      · have notOldRoot : tree.root ≠ some address := by
          intro equal
          exact isCur (Option.some.inj (equal.symm.trans isRoot))
        rcases formed.above address afterNode otherFound notOldRoot (by simp) with
          ⟨parent, parentNode, parentEq, parentFound, levelEq⟩
        rcases divided.stays parentFound with ⟨parentAfter, afterParent⟩
        exact ⟨parent, parentAfter, parentEq, afterParent,
          by rw [levelAfter_old parentFound, levelAfter_old otherFound, levelEq]⟩

theorem formed (divided : RootDivided M tree cur node half top mid after) (three : 3 ≤ M)
    (formed : Formed M known tree level none (some cur)) (found : tree.heap.cell cur = some node)
    (full : node.size = M) (isRoot : tree.root = some cur) (midKnown : known mid.1) :
    Formed M known after (levelAfter tree cur level) none none :=
  ⟨⟨_, top, divided.root_eq, divided.foundTop, divided.topParent⟩,
    fun _ equal => (nomatch equal),
    fun address afterNode afterFound =>
      (divided.shaped three formed found full midKnown address afterNode afterFound).1,
    fun address afterNode afterFound _ =>
      (divided.shaped three formed found full midKnown address afterNode afterFound).2,
    divided.below three formed found full isRoot,
    fun address afterNode afterFound notRoot _ =>
      divided.above formed found full isRoot address afterNode afterFound notRoot⟩

end RootDivided

end DataStructAlgorithm.DataStruct.BTree
