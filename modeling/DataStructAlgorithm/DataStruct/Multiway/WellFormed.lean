import Mathlib.Order.Nat
import DataStructAlgorithm.DataStruct.Multiway.NewRoot
import DataStructAlgorithm.DataStruct.Multiway.RootSplit

/-! # Well-formed trees

Runs that never divide an inner node under the root keep the tree well formed. Such
a division leaves a child to both parts of the node. -/

namespace DataStructAlgorithm.DataStruct.BTree

open Foundation

variable {Key Value : Type}

/-- The node that a list of child indices leads to. -/
def descend (heap : Store (BTreeNode Key Value)) : Ptr → List Nat → Ptr
  | pointer, [] => pointer
  | none, _ :: _ => none
  | some address, index :: path =>
      match heap.cell address with
      | none => none
      | some node => if index ≤ node.size then descend heap node.subs[index]?.join path else none

/-- The node has no children. -/
def BTreeNode.Childless (node : BTreeNode Key Value) : Prop :=
  ∀ i, i ≤ node.size → node.subs[i]? = some none

/-- Every child of the node at an address is there and has it for its parent. -/
def BTreeNode.Parental (heap : Store (BTreeNode Key Value)) (address : Nat)
    (node : BTreeNode Key Value) : Prop :=
  ∀ i, i ≤ node.size → ∃ child childNode, node.subs[i]? = some (some child) ∧
    heap.cell child = some childNode ∧ childNode.parent = some address

structure WellFormed (M : Nat) (tree : BTree Key Value) : Prop where
  nodes : ∀ path address, descend tree.heap tree.root path = some address →
    ∃ node, tree.heap.cell address = some node ∧ 1 ≤ node.size ∧ node.size < M ∧
      (node.Childless ∨ node.Parental tree.heap address)
  sameDepth : ∀ p q x y leaf other, descend tree.heap tree.root p = some x →
    descend tree.heap tree.root q = some y → tree.heap.cell x = some leaf →
    tree.heap.cell y = some other → leaf.Childless → other.Childless → p.length = q.length
  onePath : ∀ p q address, descend tree.heap tree.root p = some address →
    descend tree.heap tree.root q = some address → p = q

@[simp] theorem descend_nil (heap : Store (BTreeNode Key Value)) (pointer : Ptr) :
    descend heap pointer [] = pointer := by
  cases pointer <;> rfl

theorem descend_none (heap : Store (BTreeNode Key Value)) (path : List Nat) :
    descend heap none path = none := by
  cases path <;> rfl

theorem descend_append (heap : Store (BTreeNode Key Value)) (pointer : Ptr) (p q : List Nat) :
    descend heap pointer (p ++ q) = descend heap (descend heap pointer p) q := by
  induction p generalizing pointer with
  | nil => rw [descend_nil, List.nil_append]
  | cons index p induction =>
      cases pointer with
      | none => rw [descend_none, descend_none, descend_none]
      | some address =>
          rw [List.cons_append, descend, descend]
          cases heap.cell address with
          | none => rw [descend_none]
          | some node =>
              by_cases within : index ≤ node.size
              · simp only [if_pos within]
                exact induction _
              · simp only [if_neg within]
                rw [descend_none]

/-- A step along a path. -/
theorem descend_concat {heap : Store (BTreeNode Key Value)} {pointer : Ptr} {path : List Nat}
    {index child : Nat} (reached : descend heap pointer (path ++ [index]) = some child) :
    ∃ address node, descend heap pointer path = some address ∧ heap.cell address = some node ∧
      index ≤ node.size ∧ node.subs[index]? = some (some child) := by
  rw [descend_append] at reached
  cases start : descend heap pointer path with
  | none =>
      rw [start, descend_none] at reached
      cases reached
  | some address =>
      rw [start, descend] at reached
      cases found : heap.cell address with
      | none =>
          simp only [found] at reached
          cases reached
      | some node =>
          simp only [found] at reached
          by_cases within : index ≤ node.size
          · rw [if_pos within, descend_nil] at reached
            exact ⟨address, node, rfl, found, within, Option.join_eq_some_iff.mp reached⟩
          · rw [if_neg within] at reached
            cases reached

namespace Formed

variable {M : Nat} {known : Key → Prop} {tree : BTree Key Value} {level : Nat → Nat} {root : Nat}

/-- A path descends one level with each step. -/
theorem level_descend (formed : Formed M known tree level none none)
    (rootEq : tree.root = some root) (path : List Nat) (address : Nat)
    (reached : descend tree.heap tree.root path = some address) :
    (∃ node, tree.heap.cell address = some node) ∧ level address + path.length = level root := by
  induction path using List.reverseRecOn generalizing address with
  | nil =>
      rw [descend_nil, rootEq] at reached
      cases reached
      rcases formed.rooted with ⟨other, node, otherEq, found, _⟩
      rw [rootEq] at otherEq
      cases otherEq
      exact ⟨⟨node, found⟩, rfl⟩
  | append_singleton path index induction =>
      rcases descend_concat reached with ⟨parent, node, parentReached, found, within, stored⟩
      rcases formed.below parent node index address found within stored with
        ⟨childNode, childFound, _, levelEq⟩
      have parentLevel := (induction parent parentReached).2
      rw [List.length_append, List.length_singleton]
      exact ⟨⟨childNode, childFound⟩, by omega⟩

theorem onePath (formed : Formed M known tree level none none) (rootEq : tree.root = some root)
    (p q : List Nat) (address : Nat) (reached : descend tree.heap tree.root p = some address)
    (again : descend tree.heap tree.root q = some address) : p = q := by
  have sameLength : p.length = q.length := by
    have first := (formed.level_descend rootEq p address reached).2
    have second := (formed.level_descend rootEq q address again).2
    omega
  induction p using List.reverseRecOn generalizing q address with
  | nil =>
      rw [List.length_nil] at sameLength
      exact (List.length_eq_zero_iff.mp sameLength.symm).symm
  | append_singleton p i induction =>
      cases q using List.reverseRecOn with
      | nil =>
          rw [List.length_append, List.length_singleton, List.length_nil] at sameLength
          omega
      | append_singleton q j =>
          rcases descend_concat reached with ⟨x, node, xReached, xFound, iWithin, iStored⟩
          rcases descend_concat again with ⟨y, other, yReached, yFound, jWithin, jStored⟩
          rcases formed.below x node i address xFound iWithin iStored with
            ⟨child, childFound, xParent, _⟩
          rcases formed.below y other j address yFound jWithin jStored with
            ⟨same, sameFound, yParent, _⟩
          rw [childFound] at sameFound
          cases sameFound
          have equal := Option.some.inj (xParent.symm.trans yParent)
          subst equal
          rw [xFound] at yFound
          cases yFound
          simp only [List.length_append, List.length_singleton] at sameLength
          rw [induction q x xReached yReached (by omega),
            (formed.shaped x node xFound).once i j address iWithin jWithin iStored jStored]

/-- The invariant makes the tree well formed. -/
theorem wellFormed (formed : Formed M known tree level none none)
    (rootEq : tree.root = some root) : WellFormed M tree := by
  have leafLevel : ∀ address node, tree.heap.cell address = some node → node.Childless →
      level address = 0 := by
    intro address node found childless
    by_contra notLeaf
    rcases (formed.shaped address node found).inner (by omega) 0 (Nat.zero_le _) with
      ⟨child, stored⟩
    rw [childless 0 (Nat.zero_le _)] at stored
    cases stored
  refine ⟨?_, ?_, formed.onePath rootEq⟩
  · intro path address reached
    rcases (formed.level_descend rootEq path address reached).1 with ⟨node, found⟩
    have shaped := formed.shaped address node found
    refine ⟨node, found, shaped.positive, formed.fits address node found (by simp), ?_⟩
    by_cases isLeaf : level address = 0
    · exact Or.inl (shaped.leaf isLeaf)
    · right
      intro i within
      rcases shaped.inner (by omega) i within with ⟨child, stored⟩
      rcases formed.below address node i child found within stored with
        ⟨childNode, childFound, parentEq, _⟩
      exact ⟨child, childNode, stored, childFound, parentEq⟩
  · intro p q x y leaf other xReached yReached xFound yFound xLeaf yLeaf
    have first := (formed.level_descend rootEq p x xReached).2
    have second := (formed.level_descend rootEq q y yReached).2
    rw [leafLevel x leaf xFound xLeaf] at first
    rw [leafLevel y other yFound yLeaf] at second
    omega

end Formed

theorem wellFormed_empty (M : Nat) : WellFormed M (.empty : BTree Key Value) := by
  refine ⟨?_, ?_, ?_⟩
  · intro path address reached
    rw [BTree.empty, descend_none] at reached
    cases reached
  · intro p q x y leaf other reached
    rw [BTree.empty, descend_none] at reached
    cases reached
  · intro p q address reached
    rw [BTree.empty, descend_none] at reached
    cases reached

/-! ## Search -/

section Find

variable [LinearOrder Key]

/-- The scan for a key that the node has not got ends in front of some index. -/
theorem scan_missing {kvs : List (Key × Value)} {key : Key} (remaining i : Nat)
    (room : i + remaining ≤ kvs.length)
    (absent : ∀ j kv, j < i + remaining → kvs[j]? = some kv → kv.1 ≠ key) :
    ∃ k, scan kvs key remaining i = .ok (.before k) ∧ k ≤ i + remaining := by
  induction remaining generalizing i with
  | zero => exact ⟨i, rfl, Nat.le_refl i⟩
  | succ remaining induction =>
      have read : readAt kvs i = .ok kvs[i] := readAt_of_lt (by omega)
      have different : kvs[i].1 ≠ key :=
        absent i kvs[i] (by omega) (List.getElem?_eq_getElem (by omega))
      rw [scan, read, Outcome.ok_bind]
      by_cases less : key < kvs[i].1
      · rw [if_pos less]
        exact ⟨i, rfl, by omega⟩
      · rw [if_neg less, if_pos (lt_of_le_of_ne (not_lt.mp less) different)]
        rcases induction (i + 1) (by omega)
          (fun j kv within => absent j kv (by omega)) with ⟨k, scanned, within⟩
        exact ⟨k, scanned, by omega⟩

/-- The search for an unknown key ends at a leaf. -/
theorem Formed.find_unknown {M : Nat} {known : Key → Prop} {tree : BTree Key Value}
    {level : Nat → Nat} (formed : Formed M known tree level none none) {key : Key}
    (unknown : ¬ known key) (fuel : Nat) (address : Nat) (node : BTreeNode Key Value)
    (parent : Ptr) (found : tree.heap.cell address = some node)
    (enough : level address + 1 < fuel) :
    ∃ leaf leafNode, repeatLoop (findPass tree.heap key) fuel (some address, parent) =
        .ok (some leaf, -1) ∧
      tree.heap.cell leaf = some leafNode ∧ level leaf = 0 := by
  induction fuel generalizing address node parent with
  | zero => omega
  | succ fuel induction =>
      have shaped := formed.shaped address node found
      have kvsLength := shaped.kvsLength
      have subsLength := shaped.subsLength
      have sizeLe := shaped.size_le
      have absent : ∀ j kv, j < 0 + node.size → node.kvs[j]? = some kv → kv.1 ≠ key := by
        intro j kv less stored equal
        exact unknown (equal ▸ shaped.known j kv (by omega) stored)
      rcases scan_missing node.size 0 (by omega) absent with ⟨k, scanned, within⟩
      have subRead : readAt node.subs k = .ok node.subs[k] := readAt_of_lt (by omega)
      have stored : node.subs[k]? = some node.subs[k] := List.getElem?_eq_getElem (by omega)
      have pass : findPass tree.heap key (some address, parent) =
          .ok (.again (node.subs[k], some address)) := by
        simp [findPass, Store.load_some found, scanned, subRead]
      rw [repeatLoop_again fuel pass]
      by_cases isLeaf : level address = 0
      · have noChild := Option.some.inj (stored.symm.trans (shaped.leaf isLeaf k (by omega)))
        have more : ∃ rest, fuel = rest + 1 := ⟨fuel - 1, by omega⟩
        rcases more with ⟨fuel, rfl⟩
        rw [noChild]
        exact ⟨address, node, repeatLoop_leave fuel rfl, found, isLeaf⟩
      · rcases shaped.inner (by omega) k (by omega) with ⟨child, childStored⟩
        have isChild := Option.some.inj (stored.symm.trans childStored)
        rcases formed.below address node k child found (by omega) childStored with
          ⟨childNode, childFound, _, levelEq⟩
        rw [isChild]
        exact induction child childNode (some address) childFound (by omega)

end Find

section Insert

variable [LinearOrder Key] [Inhabited Key] [Inhabited Value]

namespace Formed

variable {M : Nat} {known : Key → Prop} {tree : BTree Key Value} {level : Nat → Nat}
  {loose : Ptr} {cur : Nat} {node : BTreeNode Key Value} {kv : Key × Value}

/-- The pass at a node with room is the last one. -/
theorem insertPass_room (formed : Formed M known tree level loose none)
    (found : tree.heap.cell cur = some node) (room : node.size + 1 < M) (kvKnown : known kv.1)
    (leafLoose : level cur = 0 → loose = none)
    (innerLoose : 0 < level cur → ∃ child, loose = some child ∧ level child + 1 = level cur) :
    ∃ after, insertPass M ⟨tree, some cur, loose, kv⟩ = .ok (.leave after) ∧
      after.root = tree.root ∧ Formed M known after level none none := by
  rcases formed.place found kvKnown leafLoose innerLoose with
    ⟨heap, grown, inserted, foundGrown, size, _, _, _, placed⟩
  have small : grown.size < M := by omega
  refine ⟨⟨heap, tree.root⟩, ?_, rfl, placed.settle foundGrown small⟩
  simp only [insertPass, inserted, Outcome.ok_bind, Store.load_some foundGrown, if_pos small]
  rfl

/-- The pass at a full root gives the tree a new root. -/
theorem insertPass_root (three : 3 ≤ M) (formed : Formed M known tree level loose none)
    (found : tree.heap.cell cur = some node) (full : node.size + 1 = M) (kvKnown : known kv.1)
    (leafLoose : level cur = 0 → loose = none)
    (innerLoose : 0 < level cur → ∃ child, loose = some child ∧ level child + 1 = level cur)
    (isRoot : tree.root = some cur) :
    ∃ after top levelAfter, insertPass M ⟨tree, some cur, loose, kv⟩ = .ok (.leave after) ∧
      after.root = some top ∧ levelAfter top = level cur + 1 ∧
      Formed M known after levelAfter none none := by
  rcases formed.place found kvKnown leafLoose innerLoose with
    ⟨heap, grown, inserted, foundGrown, size, _, _, _, placed⟩
  have grownFull : grown.size = M := by omega
  have shaped := placed.shaped cur grown foundGrown
  have kvsLength := shaped.kvsLength
  have within : (M / 2 + 1) / 2 < grown.kvs.length := by omega
  have midKnown : known grown.kvs[(M / 2 + 1) / 2].1 :=
    shaped.known _ _ (by omega) (List.getElem?_eq_getElem within)
  rcases placed.rootDivided three foundGrown grownFull grown.kvs[(M / 2 + 1) / 2] with
    ⟨dividedHeap, after, half, top, divideEq, foundCur, growEq, divided⟩
  refine ⟨after, _, _, ?_, divided.root_eq, RootDivided.levelAfter_top,
    divided.formed three placed foundGrown grownFull isRoot midKnown⟩
  have midRead : readAt (grown.setSize (M / 2 + 1)).kvs ((grown.setSize (M / 2 + 1)).size / 2) =
      .ok grown.kvs[(M / 2 + 1) / 2] := readAt_of_lt within
  have notSmall : ¬ grown.size < M := by omega
  simp only [insertPass, inserted, Outcome.ok_bind, Store.load_some foundGrown, if_neg notSmall,
    divideEq, Store.load_some foundCur, midRead, if_pos isRoot.symm, growEq]
  rfl

/-- The pass at a full leaf under an inner node. -/
theorem insertPass_leaf (three : 3 ≤ M) (formed : Formed M known tree level none none)
    (found : tree.heap.cell cur = some node) (full : node.size + 1 = M) (kvKnown : known kv.1)
    (isLeaf : level cur = 0) (notRoot : tree.root ≠ some cur) :
    ∃ after half mid levelAfter, insertPass M ⟨tree, some cur, none, kv⟩ =
        .ok (.again ⟨after, node.parent, some half, mid⟩) ∧
      known mid.1 ∧ after.root = tree.root ∧ levelAfter half = 0 ∧
      (∀ other otherNode, other ≠ cur → tree.heap.cell other = some otherNode →
        after.heap.cell other = some otherNode ∧ levelAfter other = level other) ∧
      Formed M known after levelAfter (some half) none := by
  rcases formed.place found kvKnown (fun _ => rfl) (by omega) with
    ⟨heap, grown, inserted, foundGrown, size, parentEq, others, next, placed⟩
  have grownFull : grown.size = M := by omega
  have shaped := placed.shaped cur grown foundGrown
  have kvsLength := shaped.kvsLength
  have within : (M / 2 + 1) / 2 < grown.kvs.length := by omega
  rcases placed.divideLeaf three foundGrown grownFull isLeaf notRoot with
    ⟨dividedHeap, divideEq, foundCur, kept, divided⟩
  refine ⟨⟨dividedHeap, tree.root⟩, heap.next, grown.kvs[(M / 2 + 1) / 2],
    fun address => if address = heap.next then 0 else level address, ?_,
    shaped.known _ _ (by omega) (List.getElem?_eq_getElem within), rfl, if_pos rfl, ?_, divided⟩
  · have midRead : readAt (grown.setSize (M / 2 + 1)).kvs
        ((grown.setSize (M / 2 + 1)).size / 2) = .ok grown.kvs[(M / 2 + 1) / 2] :=
      readAt_of_lt within
    have notSmall : ¬ grown.size < M := by omega
    simp only [insertPass, inserted, Outcome.ok_bind, Store.load_some foundGrown, if_neg notSmall,
      divideEq, Store.load_some foundCur, midRead, if_neg (Ne.symm notRoot), ← parentEq]
    rfl
  · intro other otherNode notCur otherFound
    have less := Store.lt_next otherFound
    have sameCell : heap.cell other = some otherNode := by
      rw [others other notCur (by simp), otherFound]
    exact ⟨kept other otherNode notCur sameCell, if_neg (by omega)⟩

end Formed

/-- Whether the insertion of a key divides an inner node under the root: the node
where the search ends and its parent are full, and the parent is not the root. -/
def dividesInner (fuel M : Nat) (tree : BTree Key Value) (key : Key) : Outcome Bool :=
  match tree.root with
  | none => .ok false
  | some _ => do
      let ret ← find fuel tree key
      let node ← tree.heap.load ret.1
      match node.parent with
      | none => pure false
      | some _ => do
          let parent ← tree.heap.load node.parent
          pure (node.size + 1 = M && parent.size + 1 = M && node.parent ≠ tree.root)

/-- Insertion that divides no inner node under the root keeps the invariant. -/
theorem Formed.insert {M : Nat} {known : Key → Prop} {tree : BTree Key Value}
    {level : Nat → Nat} (three : 3 ≤ M) (formed : Formed M known tree level none none)
    {root : Nat} (rootEq : tree.root = some root) {kv : Key × Value} (unknown : ¬ known kv.1)
    {fuel : Nat} (enough : level root + 2 < fuel)
    (spared : dividesInner fuel M tree kv.1 = .ok false) :
    ∃ after top levelAfter, BTree.insert fuel M tree kv = .ok (after, true) ∧
      after.root = some top ∧ levelAfter top ≤ level root + 1 ∧
      Formed M (fun key => key = kv.1 ∨ known key) after levelAfter none none := by
  rcases formed.rooted with ⟨same, rootNode, sameEq, rootFound, _⟩
  have sameRoot := Option.some.inj (rootEq.symm.trans sameEq)
  subst sameRoot
  rcases formed.find_unknown unknown fuel root rootNode none rootFound (by omega) with
    ⟨leaf, node, searched, found, isLeaf⟩
  have missing : find fuel tree kv.1 = .ok (some leaf, -1) := by rw [find, rootEq, searched]
  have wider : Formed M (fun key => key = kv.1 ∨ known key) tree level none none :=
    formed.mono fun _ => Or.inr
  have kvKnown : kv.1 = kv.1 ∨ known kv.1 := Or.inl rfl
  have leafFits := formed.fits leaf node found (by simp)
  have positive : ∃ rest, fuel = rest + 2 := ⟨fuel - 2, by omega⟩
  rcases positive with ⟨fuel, rfl⟩
  rw [insert_absent rootEq missing]
  by_cases room : node.size + 1 < M
  · rcases wider.insertPass_room found room kvKnown (fun _ => rfl) (by omega) with
      ⟨after, pass, rootAfter, formedAfter⟩
    exact ⟨after, root, level, by rw [repeatLoop_leave _ pass]; rfl, rootAfter.trans rootEq,
      by omega, formedAfter⟩
  · have full : node.size + 1 = M := by omega
    by_cases isRoot : tree.root = some leaf
    · rcases wider.insertPass_root three found full kvKnown (fun _ => rfl) (by omega) isRoot with
        ⟨after, top, levelAfter, pass, rootAfter, levelEq, formedAfter⟩
      exact ⟨after, top, levelAfter, by rw [repeatLoop_leave _ pass]; rfl, rootAfter, by omega,
        formedAfter⟩
    · rcases formed.above leaf node found isRoot (by simp) with
        ⟨parent, parentNode, parentEq, parentFound, parentLevel⟩
      rcases wider.insertPass_leaf three found full kvKnown isLeaf isRoot with
        ⟨middle, half, mid, levelMiddle, pass, midKnown, rootMiddle, levelHalf, kept, formedMiddle⟩
      have parentNe : parent ≠ leaf := by
        intro equal
        rw [equal] at parentLevel
        omega
      rcases kept parent parentNode parentNe parentFound with ⟨parentMiddle, parentKept⟩
      have innerLoose : 0 < levelMiddle parent →
          ∃ child, some half = some child ∧ levelMiddle child + 1 = levelMiddle parent :=
        fun _ => ⟨half, rfl, by omega⟩
      rw [repeatLoop_again _ pass, parentEq]
      by_cases parentRoom : parentNode.size + 1 < M
      · rcases formedMiddle.insertPass_room parentMiddle parentRoom midKnown (by omega)
          innerLoose with ⟨after, lastPass, rootAfter, formedAfter⟩
        have rootNe : root ≠ leaf := fun equal => isRoot (rootEq.trans (congrArg some equal))
        have rootKept := (kept root rootNode rootNe rootFound).2
        exact ⟨after, root, levelMiddle, by rw [repeatLoop_leave _ lastPass]; rfl,
          rootAfter.trans (rootMiddle.trans rootEq), by omega, formedAfter⟩
      · have parentFits := formed.fits parent parentNode parentFound (by simp)
        have parentFull : parentNode.size + 1 = M := by omega
        have parentRoot : tree.root = some parent := by
          rw [dividesInner, rootEq] at spared
          simp only [missing, Outcome.ok_bind, Store.load_some found, parentEq,
            Store.load_some parentFound, full, parentFull, Outcome.pure_eq_ok, Except.ok.injEq,
            decide_true, Bool.true_and, decide_eq_false_iff_not, not_not] at spared
          rw [rootEq, spared]
        have same := Option.some.inj (rootEq.symm.trans parentRoot)
        subst same
        rcases formedMiddle.insertPass_root three parentMiddle parentFull midKnown (by omega)
          innerLoose (rootMiddle.trans rootEq) with
          ⟨after, top, levelAfter, lastPass, rootAfter, levelEq, formedAfter⟩
        exact ⟨after, top, levelAfter, by rw [repeatLoop_leave _ lastPass]; rfl, rootAfter,
          by omega, formedAfter⟩

/-- The first insertion makes a leaf. -/
theorem formed_first {M : Nat} (three : 3 ≤ M) (fuel : Nat) (kv : Key × Value) :
    ∃ after root, BTree.insert fuel M (.empty : BTree Key Value) kv = .ok (after, true) ∧
      after.root = some root ∧ Formed M (fun key => key = kv.1) after (fun _ => 0) none none := by
  let node : BTreeNode Key Value :=
    ⟨(List.replicate M default).set 0 kv, List.replicate (M + 1) none, none, 1⟩
  have wrote : writeAt (List.replicate M (default : Key × Value)) 0 kv =
      .ok ((List.replicate M default).set 0 kv) := writeAt_of_lt _ (by simp; omega)
  have only : ∀ address other, (Store.empty.alloc node).cell address = some other →
      other = node := by
    intro address other found
    by_cases isFirst : address = 0
    · subst isFirst
      exact (Option.some.inj found).symm
    · simp [Store.alloc, isFirst, Store.empty] at found
  have noChild : ∀ i, i ≤ 1 → node.subs[i]? = some none :=
    fun i within => List.getElem?_replicate_of_lt (by omega)
  refine ⟨⟨Store.empty.alloc node, some 0⟩, 0, ?_, rfl, ⟨⟨0, node, rfl, rfl, rfl⟩,
    fun _ equal => (by cases equal), ?_, ?_, ?_, ?_⟩⟩
  · simp only [BTree.insert, BTree.empty, newNodeWith, newNode, wrote, Outcome.ok_bind]
    rfl
  · intro address other found
    rw [only address other found]
    refine ⟨by simp [node], by simp [node], Nat.le_refl 1, by simp only [node]; omega, ?_,
      fun _ => noChild, by omega, ?_⟩
    · intro i pair within stored
      have zero : i = 0 := by
        simp only [node] at within
        omega
      subst zero
      rw [List.getElem?_set_self (by simp; omega)] at stored
      cases stored
      rfl
    · intro i j child within _ stored
      rw [noChild i within] at stored
      cases stored
  · intro address other found _
    rw [only address other found]
    simp only [node]
    omega
  · intro address other i child found within stored
    rw [only address other found] at within stored
    rw [noChild i within] at stored
    cases stored
  · intro address other found notRoot
    by_cases isFirst : address = 0
    · rw [isFirst] at notRoot
      exact absurd rfl notRoot
    · simp [Store.alloc, isFirst, Store.empty] at found

/-! ## Runs -/

/-- No insertion of the sequence divides an inner node under the root. -/
def SparesInner (fuel M : Nat) : BTree Key Value → List (Key × Value) → Prop
  | _, [] => True
  | tree, kv :: rest => dividesInner fuel M tree kv.1 = .ok false ∧
      ∀ after flag, BTree.insert fuel M tree kv = .ok (after, flag) →
        SparesInner fuel M after rest

theorem Formed.insertAll {M : Nat} (three : 3 ≤ M) {fuel : Nat} (items : List (Key × Value))
    {known : Key → Prop} {tree : BTree Key Value} {level : Nat → Nat}
    (formed : Formed M known tree level none none) {root : Nat} (rootEq : tree.root = some root)
    (unknown : ∀ kv ∈ items, ¬ known kv.1) (nodup : (items.map Prod.fst).Nodup)
    (enough : level root + items.length + 2 < fuel) (spared : SparesInner fuel M tree items) :
    ∃ after top knownAfter levelAfter, BTree.insertAll fuel M tree items = .ok (after, true) ∧
      after.root = some top ∧ Formed M knownAfter after levelAfter none none := by
  induction items generalizing known tree level root with
  | nil => exact ⟨tree, root, known, level, rfl, rootEq, formed⟩
  | cons kv rest induction =>
      simp only [List.length_cons] at enough
      rw [List.map_cons, List.nodup_cons] at nodup
      rcases formed.insert three rootEq (unknown kv (by simp)) (by omega) spared.1 with
        ⟨middle, top, levelMiddle, inserted, rootMiddle, levelLe, formedMiddle⟩
      have unknownRest : ∀ other ∈ rest, ¬ (other.1 = kv.1 ∨ known other.1) := by
        intro other member isKnown
        rcases isKnown with equal | isKnown
        · exact nodup.1 (equal ▸ List.mem_map_of_mem member)
        · exact unknown other (by simp [member]) isKnown
      rcases induction formedMiddle rootMiddle unknownRest nodup.2 (by omega)
        (spared.2 middle true inserted) with
        ⟨after, last, knownAfter, levelAfter, ran, rootAfter, formedAfter⟩
      refine ⟨after, last, knownAfter, levelAfter, ?_, rootAfter, formedAfter⟩
      simp only [BTree.insertAll, inserted, Outcome.ok_bind, ran]
      rfl

theorem SparesInner.cons {fuel M : Nat} {tree after : BTree Key Value} {kv : Key × Value}
    {rest : List (Key × Value)} {flag : Bool}
    (spared : dividesInner fuel M tree kv.1 = .ok false)
    (inserted : BTree.insert fuel M tree kv = .ok (after, flag))
    (others : SparesInner fuel M after rest) : SparesInner fuel M tree (kv :: rest) := by
  refine ⟨spared, fun result other equal => ?_⟩
  rw [inserted] at equal
  cases equal
  exact others

theorem SparesInner.before {fuel M : Nat} (done rest : List (Key × Value))
    {tree : BTree Key Value} (spared : SparesInner fuel M tree (done ++ rest)) :
    SparesInner fuel M tree done := by
  induction done generalizing tree with
  | nil => trivial
  | cons kv done induction =>
      exact ⟨spared.1, fun after flag inserted => induction (spared.2 after flag inserted)⟩

end Insert

end DataStructAlgorithm.DataStruct.BTree
