import DataStructAlgorithm.Foundation.Slots
import DataStructAlgorithm.Foundation.VertexCycles

/-! # The union-find array of `Union/UnionFindSet.cpp`

A slot holds the index of the parent, or minus the size of the set at its root. -/

namespace DataStructAlgorithm.Algorithm

open Foundation

/-- The member `_set`. -/
abbrev UnionFindSet := List Int

namespace UnionFindSet

/-- `UnionFindSet(n)` -/
def ofSize (n : Nat) : UnionFindSet :=
  List.replicate (n + 1) (-1)

/-- One pass of `while (_set[index] > 0)`. -/
def parentPass (set : UnionFindSet) (index : Nat) : Outcome (Pass Nat Nat) := do
  let parent ← readAt set index
  if parent > 0 then pure (.again parent.toNat) else pure (.leave index)

/-- `_FindParent` -/
def findParent (fuel : Nat) (set : UnionFindSet) (index : Nat) : Outcome Nat :=
  if index < set.length then repeatLoop (parentPass set) fuel index else .error .assertion

/-- `SetUnionFriend`. The roots are looked up before the two arguments are compared. -/
def setUnionFriend (fuel : Nat) (set : UnionFindSet) (left right : Nat) :
    Outcome UnionFindSet :=
  if left < set.length ∧ right < set.length then do
    let leftParent ← findParent fuel set left
    let rightParent ← findParent fuel set right
    if left ≠ right then do
      let leftSize ← readAt set leftParent
      let rightSize ← readAt set rightParent
      let set ← writeAt set leftParent (leftSize + rightSize)
      writeAt set rightParent (leftParent : Int)
    else pure set
  else .error .assertion

/-- `UnionSize` -/
def unionSize (set : UnionFindSet) : Nat :=
  (set.drop 1).countP fun slot => slot < 0

end UnionFindSet

end DataStructAlgorithm.Algorithm

/-! ## What the union-find array stores

The loop of `_FindParent` stops at a slot that is not positive. A child of index 0
stores 0, so the loop stops at the child: index 0 is never the root of another
index. The roots tell which indices are joined by paths that avoid index 0. -/

namespace DataStructAlgorithm.Algorithm.UnionFindSet

open Foundation

/-- The walk from an index to the root where `_FindParent` stops. -/
inductive Reaches (set : UnionFindSet) : (index root depth : Nat) → Prop
  | root {index : Nat} {value : Int} (found : set[index]? = some value) (stops : value ≤ 0) :
      Reaches set index index 0
  | up {index root depth : Nat} {value : Int} (found : set[index]? = some value)
      (climbs : 0 < value) (rest : Reaches set value.toNat root depth) :
      Reaches set index root (depth + 1)

namespace Reaches

variable {set : UnionFindSet} {index root depth : Nat}

theorem root_slot (reaches : Reaches set index root depth) :
    ∃ value, set[root]? = some value ∧ value ≤ 0 := by
  induction reaches with
  | root found stops => exact ⟨_, found, stops⟩
  | up _ _ _ induction => exact induction

theorem repeatLoop (reaches : Reaches set index root depth) (fuel : Nat) (enough : depth < fuel) :
    Foundation.repeatLoop (parentPass set) fuel index = .ok root := by
  induction reaches generalizing fuel with
  | @root index value found stops =>
      rcases fuel with _ | fuel
      · omega
      · have pass : parentPass set index = .ok (.leave index) := by
          have notPositive : ¬value > 0 := by omega
          simp [parentPass, readAt_of_getElem? found, notPositive]
        exact repeatLoop_leave _ pass
  | @up index root depth value found climbs rest induction =>
      rcases fuel with _ | fuel
      · omega
      · have pass : parentPass set index = .ok (.again value.toNat) := by
          simp [parentPass, readAt_of_getElem? found, climbs]
        rw [repeatLoop_again _ pass]
        exact induction fuel (by omega)

theorem lt_length (reaches : Reaches set index root depth) : index < set.length := by
  cases reaches with
  | root found _ => exact (List.getElem?_eq_some_iff.mp found).1
  | up found _ _ => exact (List.getElem?_eq_some_iff.mp found).1

theorem findParent (reaches : Reaches set index root depth) (fuel : Nat)
    (enough : depth < fuel) : UnionFindSet.findParent fuel set index = .ok root := by
  rw [UnionFindSet.findParent, if_pos reaches.lt_length]
  exact reaches.repeatLoop fuel enough

end Reaches

/-- The array after the root `right` has become a child of the root `left`. -/
def attach (set : UnionFindSet) (left right : Nat) (size : Int) : UnionFindSet :=
  (set.set left size).set right (left : Int)

section Attach

variable {set : UnionFindSet} {left right : Nat} {leftValue rightValue : Int} (size : Int)
  (leftRoot : set[left]? = some leftValue) (leftStops : leftValue ≤ 0)
  (rightRoot : set[right]? = some rightValue) (rightStops : rightValue ≤ 0)
  (different : left ≠ right) (sizeStops : size ≤ 0)

include leftRoot different in
theorem getElem?_attach_left : (attach set left right size)[left]? = some size := by
  have within := (List.getElem?_eq_some_iff.mp leftRoot).1
  rw [attach, List.getElem?_set_ne different.symm, List.getElem?_set_self within]

include rightRoot in
theorem getElem?_attach_right : (attach set left right size)[right]? = some (left : Int) := by
  have within := (List.getElem?_eq_some_iff.mp rightRoot).1
  rw [attach, List.getElem?_set_self (by rwa [List.length_set])]

theorem getElem?_attach_other {index : Nat} (notLeft : index ≠ left) (notRight : index ≠ right) :
    (attach set left right size)[index]? = set[index]? := by
  rw [attach, List.getElem?_set_ne notRight.symm, List.getElem?_set_ne notLeft.symm]

include leftRoot leftStops rightRoot rightStops different sizeStops in
/-- Walks to the attached root go on to its parent, unless the parent is index 0. -/
theorem Reaches.attach {index root depth : Nat} (reaches : Reaches set index root depth) :
    ∃ after ≤ depth + 1, Reaches (attach set left right size) index
      (if left ≠ 0 ∧ root = right then left else root) after := by
  induction reaches with
  | @root index value found stops =>
      by_cases atRight : index = right
      · subst atRight
        have slot : (UnionFindSet.attach set left index size)[index]? = some (left : Int) :=
          getElem?_attach_right size rightRoot
        by_cases zero : left = 0
        · rw [if_neg (by simp [zero])]
          exact ⟨0, by omega, .root slot (by simp [zero])⟩
        · rw [if_pos ⟨zero, rfl⟩]
          have parent := getElem?_attach_left size leftRoot different
          exact ⟨1, by omega, .up slot (by omega) (.root parent sizeStops)⟩
      · rw [if_neg (by simp [atRight])]
        by_cases atLeft : index = left
        · subst atLeft
          exact ⟨0, by omega, .root (getElem?_attach_left size leftRoot different) sizeStops⟩
        · have slot : (UnionFindSet.attach set left right size)[index]? = set[index]? :=
            getElem?_attach_other size atLeft atRight
          exact ⟨0, by omega, .root (slot.trans found) stops⟩
  | @up index root depth value found climbs rest induction =>
      have notLeft : index ≠ left := by
        intro equal
        rw [equal, leftRoot] at found
        cases found
        omega
      have notRight : index ≠ right := by
        intro equal
        rw [equal, rightRoot] at found
        cases found
        omega
      rcases induction with ⟨after, deeper, reached⟩
      have slot : (UnionFindSet.attach set left right size)[index]? = set[index]? :=
        getElem?_attach_other size notLeft notRight
      exact ⟨after + 1, by omega, .up (slot.trans found) climbs reached⟩

end Attach

/-- The array stores which indices up to `n` are joined by paths of `links` that
avoid index 0. -/
structure Parts (set : UnionFindSet) (n : Nat) (links : List (Nat × Nat)) (root : Nat → Nat)
    (bound : Nat) : Prop where
  length_eq : set.length = n + 1
  reaches : ∀ index ≤ n, ∃ depth ≤ bound, Reaches set index (root index) depth
  zero : root 0 = 0
  same_iff : ∀ u ≤ n, ∀ v ≤ n, root u = root v ↔ Joined (avoiding 0 links) u v

theorem parts_ofSize (n : Nat) : Parts (ofSize n) n [] id 0 where
  length_eq := List.length_replicate
  reaches := by
    intro index within
    have found : (ofSize n)[index]? = some (-1) := by
      rw [ofSize, List.getElem?_replicate, if_pos (by omega)]
    exact ⟨0, Nat.le_refl 0, .root found (by omega)⟩
  zero := rfl
  same_iff := fun _ _ _ _ => joined_nil.symm

namespace Parts

variable {set : UnionFindSet} {n : Nat} {links : List (Nat × Nat)} {root : Nat → Nat} {bound : Nat}

theorem findParent (parts : Parts set n links root bound) {index : Nat} (within : index ≤ n)
    (fuel : Nat) (enough : bound < fuel) :
    UnionFindSet.findParent fuel set index = .ok (root index) := by
  rcases parts.reaches index within with ⟨depth, small, reaches⟩
  exact reaches.findParent fuel (by omega)

theorem deeper (parts : Parts set n links root bound) {more : Nat} (grown : bound ≤ more) :
    Parts set n links root more where
  length_eq := parts.length_eq
  reaches := by
    intro index within
    rcases parts.reaches index within with ⟨depth, small, reaches⟩
    exact ⟨depth, small.trans grown, reaches⟩
  zero := parts.zero
  same_iff := parts.same_iff

/-- Index 0 is the root of itself only. -/
theorem root_eq_zero (parts : Parts set n links root bound) {index : Nat} (within : index ≤ n) :
    root index = 0 ↔ index = 0 := by
  constructor
  · intro equal
    have joined := (parts.same_iff index within 0 (Nat.zero_le n)).mp (equal.trans parts.zero.symm)
    exact (eq_iff_of_avoiding joined).mpr rfl
  · intro equal
    rw [equal]
    exact parts.zero

/-- An edge whose ends are in the same part changes nothing. -/
theorem skip (parts : Parts set n links root bound) {src dst : Nat} (srcWithin : src ≤ n)
    (dstWithin : dst ≤ n) (same : root src = root dst) :
    Parts set n ((src, dst) :: links) root bound where
  length_eq := parts.length_eq
  reaches := parts.reaches
  zero := parts.zero
  same_iff := by
    intro u uWithin v vWithin
    rw [parts.same_iff u uWithin v vWithin]
    have joined := (parts.same_iff src srcWithin dst dstWithin).mp same
    by_cases touches : Touches 0 (src, dst)
    · rw [avoiding_cons_of_touches touches]
    · rw [avoiding_cons_of_misses touches]
      exact (Joined.cons_iff_of_joined joined).symm

/-- The array that `SetUnionFriend` leaves when the roots are different. -/
theorem setUnionFriend_eq (parts : Parts set n links root bound) {src dst : Nat}
    (srcWithin : src ≤ n) (dstWithin : dst ≤ n) (different : root src ≠ root dst) (fuel : Nat)
    (enough : bound < fuel) :
    ∃ srcValue dstValue, set[root src]? = some srcValue ∧ srcValue ≤ 0 ∧
      set[root dst]? = some dstValue ∧ dstValue ≤ 0 ∧
      UnionFindSet.setUnionFriend fuel set src dst =
        .ok (attach set (root src) (root dst) (srcValue + dstValue)) := by
  have lengthEq := parts.length_eq
  rcases parts.reaches src srcWithin with ⟨_, _, srcReaches⟩
  rcases parts.reaches dst dstWithin with ⟨_, _, dstReaches⟩
  rcases srcReaches.root_slot with ⟨srcValue, srcSlot, srcStops⟩
  rcases dstReaches.root_slot with ⟨dstValue, dstSlot, dstStops⟩
  have srcLt := (List.getElem?_eq_some_iff.mp srcSlot).1
  have dstLt := (List.getElem?_eq_some_iff.mp dstSlot).1
  have known : src < set.length ∧ dst < set.length := by omega
  have notEqual : src ≠ dst := fun equal => different (congrArg root equal)
  refine ⟨srcValue, dstValue, srcSlot, srcStops, dstSlot, dstStops, ?_⟩
  rw [UnionFindSet.setUnionFriend, if_pos known, parts.findParent srcWithin fuel enough,
    parts.findParent dstWithin fuel enough]
  simp only [Outcome.ok_bind, if_pos notEqual, readAt_of_getElem? srcSlot,
    readAt_of_getElem? dstSlot, writeAt_of_lt _ srcLt]
  rw [writeAt_of_lt _ (by rwa [List.length_set])]
  rfl

/-- The roots after the root of `dst` has become a child of the root of `src`. -/
def merge (root : Nat → Nat) (src dst index : Nat) : Nat :=
  if root src ≠ 0 ∧ root index = root dst then root src else root index

/-- Attaching the root of one index to the root of another one adds a link. -/
theorem attach (parts : Parts set n links root bound) {src dst : Nat} (srcWithin : src ≤ n)
    (dstPositive : 0 < dst) (dstWithin : dst ≤ n) (different : root src ≠ root dst)
    {srcValue dstValue : Int} (srcSlot : set[root src]? = some srcValue)
    (srcStops : srcValue ≤ 0) (dstSlot : set[root dst]? = some dstValue)
    (dstStops : dstValue ≤ 0) :
    Parts (UnionFindSet.attach set (root src) (root dst) (srcValue + dstValue)) n
      ((src, dst) :: links) (merge root src dst) (bound + 1) := by
  have dstRoot : root dst ≠ 0 := by
    intro zero
    have equal := (parts.root_eq_zero dstWithin).mp zero
    omega
  refine ⟨?_, ?_, ?_, ?_⟩
  · simp [UnionFindSet.attach, parts.length_eq]
  · intro index indexWithin
    rcases parts.reaches index indexWithin with ⟨depth, small, reaches⟩
    rcases reaches.attach (srcValue + dstValue) srcSlot srcStops dstSlot dstStops different
      (by omega) with ⟨after, deeper, reached⟩
    exact ⟨after, by omega, reached⟩
  · rw [merge, parts.zero, if_neg]
    intro both
    exact dstRoot both.2.symm
  · intro u uWithin v vWithin
    rw [merge, merge]
    by_cases zero : src = 0
    · have noMerge : root src = 0 := (parts.root_eq_zero srcWithin).mpr zero
      rw [avoiding_cons_of_touches (Or.inl zero)]
      simpa [noMerge] using parts.same_iff u uWithin v vWithin
    · have merges : root src ≠ 0 := fun equal => zero ((parts.root_eq_zero srcWithin).mp equal)
      have misses : ¬Touches 0 (src, dst) := by
        intro touches
        rcases touches with equal | equal
        · exact zero equal
        · exact Nat.ne_of_gt dstPositive equal
      rw [avoiding_cons_of_misses misses, joined_cons_iff]
      have uv := parts.same_iff u uWithin v vWithin
      have us := parts.same_iff u uWithin src srcWithin
      have ud := parts.same_iff u uWithin dst dstWithin
      have vs := parts.same_iff v vWithin src srcWithin
      have vd := parts.same_iff v vWithin dst dstWithin
      simp only [← uv, ← us, ← ud, ← vs, ← vd]
      by_cases first : root u = root dst
      · by_cases second : root v = root dst
        · simp [first, second]
        · have apart : root dst ≠ root v := Ne.symm second
          simp [merges, first, second, apart, eq_comm]
      · by_cases second : root v = root dst
        · simp [merges, first, second]
        · simp [first, second]

/-- `SetUnionFriend` on two indices with different roots. -/
theorem setUnionFriend (parts : Parts set n links root bound) {src dst : Nat}
    (srcWithin : src ≤ n) (dstPositive : 0 < dst) (dstWithin : dst ≤ n)
    (different : root src ≠ root dst) (fuel : Nat) (enough : bound < fuel) :
    ∃ after merged, UnionFindSet.setUnionFriend fuel set src dst = .ok after ∧
      Parts after n ((src, dst) :: links) merged (bound + 1) := by
  rcases parts.setUnionFriend_eq srcWithin dstWithin different fuel enough with
    ⟨srcValue, dstValue, srcSlot, srcStops, dstSlot, dstStops, united⟩
  exact ⟨_, _, united, parts.attach srcWithin dstPositive dstWithin different srcSlot srcStops
    dstSlot dstStops⟩

end Parts

end DataStructAlgorithm.Algorithm.UnionFindSet
