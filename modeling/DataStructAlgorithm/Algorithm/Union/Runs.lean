import Mathlib.Data.Finset.Card
import Mathlib.Order.Interval.Finset.Nat
import DataStructAlgorithm.Foundation.Transition
import DataStructAlgorithm.Algorithm.Union.UnionFindSet

/-! # Sequences of `SetUnionFriend` calls -/

namespace DataStructAlgorithm.Algorithm.UnionFindSet

open Foundation

/-- One call `SetUnionFriend(left, right)`. -/
def step (fuel : Nat) (set : UnionFindSet) (call : Nat × Nat) : Outcome UnionFindSet :=
  set.setUnionFriend fuel call.1 call.2

/-- Both arguments of a call are among the indices from 1 to `n`. -/
def Within (n : Nat) (call : Nat × Nat) : Prop :=
  (1 ≤ call.1 ∧ call.1 ≤ n) ∧ 1 ≤ call.2 ∧ call.2 ≤ n

instance (n : Nat) (call : Nat × Nat) : Decidable (Within n call) :=
  inferInstanceAs (Decidable (_ ∧ _))

theorem avoiding_zero {n : Nat} {links : List (Nat × Nat)}
    (within : ∀ link ∈ links, Within n link) : avoiding 0 links = links := by
  apply List.filter_eq_self.mpr
  intro link member
  have ends := within link member
  rw [Within] at ends
  simp only [Touches, decide_eq_true_eq, not_or]
  omega

/-! ## Sizes -/

/-- The indices from 1 to `n` that have a given root. -/
def members (n : Nat) (root : Nat → Nat) (top : Nat) : Finset Nat :=
  (Finset.Icc 1 n).filter fun index => root index = top

theorem mem_members {n index top : Nat} {root : Nat → Nat} :
    index ∈ members n root top ↔ (1 ≤ index ∧ index ≤ n) ∧ root index = top := by
  rw [members, Finset.mem_filter, Finset.mem_Icc]

/-- What the slots hold after `links` have been merged: the sizes of the sets at
their roots, and indices up to `n` elsewhere. -/
structure Sized (set : UnionFindSet) (n : Nat) (links : List (Nat × Nat)) (root : Nat → Nat) :
    Prop where
  size_eq : ∀ index : Nat, 1 ≤ index → index ≤ n →
    set[root index]? = some (-((members n root (root index)).card : Int))
  count_eq : unionSize set + links.length = n
  range : ∀ slot ∈ set, -(n + 1 : Int) ≤ slot ∧ slot ≤ n

theorem members_id {n index : Nat} (positive : 1 ≤ index) (within : index ≤ n) :
    members n id index = {index} := by
  ext other
  rw [mem_members, Finset.mem_singleton, id_eq]
  omega

theorem sized_ofSize (n : Nat) : Sized (ofSize n) n [] id where
  size_eq := by
    intro index positive within
    rw [id_eq, members_id positive within, Finset.card_singleton, ofSize,
      List.getElem?_replicate, if_pos (by omega)]
    rfl
  count_eq := by
    simp [unionSize, ofSize, List.countP_replicate]
  range := by
    intro slot member
    rw [List.eq_of_mem_replicate member]
    omega

theorem card_members_pos {n index : Nat} (root : Nat → Nat) (positive : 1 ≤ index)
    (within : index ≤ n) : 0 < (members n root (root index)).card := by
  apply Finset.card_pos.mpr
  exact ⟨index, mem_members.mpr ⟨⟨positive, within⟩, rfl⟩⟩

/-- The members of the merged set. -/
theorem card_members_merge {n src dst : Nat} {root : Nat → Nat} (notZero : root src ≠ 0)
    (different : root src ≠ root dst) :
    (members n (Parts.merge root src dst) (root src)).card =
      (members n root (root src)).card + (members n root (root dst)).card := by
  have split : members n (Parts.merge root src dst) (root src) =
      members n root (root src) ∪ members n root (root dst) := by
    ext index
    rw [Finset.mem_union, mem_members, mem_members, mem_members, Parts.merge, ← and_or_left]
    apply and_congr_right
    intro _
    by_cases moved : root index = root dst
    · simp [moved, notZero]
    · simp [moved]
  have apart : Disjoint (members n root (root src)) (members n root (root dst)) := by
    apply Finset.disjoint_filter.mpr
    intro index _ first second
    exact different (first.symm.trans second)
  rw [split, Finset.card_union_of_disjoint apart]

/-- The members of the other sets stay the same. -/
theorem members_merge {n src dst top : Nat} {root : Nat → Nat} (notSrc : top ≠ root src)
    (notDst : top ≠ root dst) :
    members n (Parts.merge root src dst) top = members n root top := by
  ext index
  rw [mem_members, mem_members, Parts.merge]
  by_cases moved : root index = root dst
  · have elsewhere : root dst ≠ top := notDst.symm
    have outside : root src ≠ top := notSrc.symm
    rw [moved]
    split <;> simp [elsewhere, outside]
  · simp [moved]

/-- The number of sets shrinks by one when a root becomes a child. -/
theorem unionSize_attach {set : UnionFindSet} {left right : Nat} {leftValue rightValue : Int}
    (size : Int) (leftSlot : set[left]? = some leftValue) (leftNegative : leftValue < 0)
    (rightSlot : set[right]? = some rightValue) (rightNegative : rightValue < 0)
    (sizeNegative : size < 0) (leftPositive : 0 < left) (rightPositive : 0 < right)
    (different : left ≠ right) : unionSize (attach set left right size) + 1 = unionSize set := by
  rcases List.getElem?_eq_some_iff.mp leftSlot with ⟨leftInside, leftIs⟩
  rcases List.getElem?_eq_some_iff.mp rightSlot with ⟨rightInside, rightIs⟩
  have leftLt : left - 1 < (set.drop 1).length := by
    rw [List.length_drop]
    omega
  have rightLt : right - 1 < ((set.drop 1).set (left - 1) size).length := by
    rw [List.length_set, List.length_drop]
    omega
  have leftEq : (set.drop 1)[left - 1] = leftValue := by
    rw [List.getElem_drop]
    simp only [show 1 + (left - 1) = left by omega]
    exact leftIs
  have rightEq : ((set.drop 1).set (left - 1) size)[right - 1] = rightValue := by
    rw [List.getElem_set_ne (by omega), List.getElem_drop]
    simp only [show 1 + (right - 1) = right by omega]
    exact rightIs
  have positive : 0 < (set.drop 1).countP fun slot => slot < 0 := by
    apply List.countP_pos_iff.mpr
    exact ⟨leftValue, leftEq ▸ List.getElem_mem leftLt, by simpa using leftNegative⟩
  have notNegative : ¬(left : Int) < 0 := by omega
  rw [unionSize, attach, List.drop_set, if_neg (by omega), List.drop_set, if_neg (by omega),
    List.countP_set rightLt, rightEq, List.countP_set leftLt, leftEq]
  simp only [leftNegative, rightNegative, sizeNegative, notNegative, decide_true, decide_false,
    if_true, Bool.false_eq_true, if_false]
  rw [unionSize]
  omega

namespace Parts

variable {set : UnionFindSet} {n : Nat} {links : List (Nat × Nat)} {root : Nat → Nat} {bound : Nat}

theorem root_pos (parts : Parts set n links root bound) {index : Nat} (positive : 1 ≤ index)
    (within : index ≤ n) : 0 < root index := by
  have notZero : root index ≠ 0 := fun zero => by
    have equal := (parts.root_eq_zero within).mp zero
    omega
  exact Nat.pos_of_ne_zero notZero

theorem root_le (parts : Parts set n links root bound) {index : Nat} (within : index ≤ n) :
    root index ≤ n := by
  rcases parts.reaches index within with ⟨_, _, reaches⟩
  rcases reaches.root_slot with ⟨value, slot, _⟩
  have inside := (List.getElem?_eq_some_iff.mp slot).1
  have lengthEq := parts.length_eq
  omega

end Parts

/-- A merge of two sets adds their sizes. -/
theorem Sized.attach {set : UnionFindSet} {n : Nat} {links : List (Nat × Nat)}
    {root : Nat → Nat} {bound src dst : Nat} (sized : Sized set n links root)
    (parts : Parts set n links root bound) (within : Within n (src, dst))
    (different : root src ≠ root dst) {srcValue dstValue : Int}
    (srcSlot : set[root src]? = some srcValue) (dstSlot : set[root dst]? = some dstValue) :
    Sized (UnionFindSet.attach set (root src) (root dst) (srcValue + dstValue)) n
      ((src, dst) :: links) (Parts.merge root src dst) := by
  simp only [Within] at within
  rcases within with ⟨⟨srcPositive, srcWithin⟩, dstPositive, dstWithin⟩
  have srcRoot := parts.root_pos srcPositive srcWithin
  have dstRoot := parts.root_pos dstPositive dstWithin
  have srcCard := card_members_pos root srcPositive srcWithin
  have dstCard := card_members_pos root dstPositive dstWithin
  have srcSize := sized.size_eq src srcPositive srcWithin
  have dstSize := sized.size_eq dst dstPositive dstWithin
  rw [srcSlot, Option.some.injEq] at srcSize
  rw [dstSlot, Option.some.injEq] at dstSize
  have merged := card_members_merge (n := n) (Nat.ne_of_gt srcRoot) different
  have total : srcValue + dstValue =
      -((members n (Parts.merge root src dst) (root src)).card : Int) := by
    rw [merged]
    omega
  refine ⟨?_, ?_, ?_⟩
  · intro index positive indexWithin
    by_cases joins : root index = root src ∨ root index = root dst
    · have top : Parts.merge root src dst index = root src := by
        rw [Parts.merge]
        rcases joins with first | second
        · rw [if_neg (by simp [first, different]), first]
        · rw [if_pos ⟨Nat.ne_of_gt srcRoot, second⟩]
      rw [top, ← total]
      exact getElem?_attach_left _ srcSlot different
    · rcases not_or.mp joins with ⟨notSrc, notDst⟩
      have top : Parts.merge root src dst index = root index := by
        rw [Parts.merge, if_neg (by simp [notDst])]
      rw [top, members_merge notSrc notDst, getElem?_attach_other _ notSrc notDst]
      exact sized.size_eq index positive indexWithin
  · have fewer := unionSize_attach (srcValue + dstValue) srcSlot (by omega) dstSlot (by omega)
      (by omega) srcRoot dstRoot different
    have counted := sized.count_eq
    rw [List.length_cons]
    omega
  · intro slot member
    have srcLe := parts.root_le srcWithin
    have whole : (members n (Parts.merge root src dst) (root src)).card ≤ n := by
      have few := Finset.card_filter_le (Finset.Icc 1 n)
        fun index => Parts.merge root src dst index = root src
      rw [Nat.card_Icc] at few
      rw [members]
      omega
    rcases List.mem_or_eq_of_mem_set member with member | equal
    · rcases List.mem_or_eq_of_mem_set member with member | equal
      · exact sized.range slot member
      · omega
    · omega

/-! ## Runs -/

/-- Different roots at the time of the call. -/
def Separate (fuel n : Nat) (set : UnionFindSet) (call : Nat × Nat) : Prop :=
  Within n call ∧ set.findParent fuel call.1 ≠ set.findParent fuel call.2

instance (fuel n : Nat) (set : UnionFindSet) (call : Nat × Nat) :
    Decidable (Separate fuel n set call) :=
  inferInstanceAs (Decidable (_ ∧ _ ≠ _))

theorem runs_sized {fuel n : Nat} (calls : List (Nat × Nat)) {set : UnionFindSet}
    {links : List (Nat × Nat)} {root : Nat → Nat} (parts : Parts set n links root links.length)
    (sized : Sized set n links root) (inside : ∀ link ∈ links, Within n link)
    (enough : links.length + calls.length < fuel)
    (separate : EveryStep (step fuel) (Separate fuel n) set calls) :
    ∃ final merged, runAll (step fuel) set calls = .ok final ∧
      Parts final n (calls.reverse ++ links) merged (links.length + calls.length) ∧
      Sized final n (calls.reverse ++ links) merged ∧
      ∀ link ∈ calls.reverse ++ links, Within n link := by
  induction calls generalizing set links root with
  | nil => exact ⟨set, root, rfl, parts, sized, inside⟩
  | cons call rest induction =>
      rcases separate with ⟨⟨within, apart⟩, later⟩
      rcases call with ⟨src, dst⟩
      simp only [List.length_cons] at enough
      have srcFound := parts.findParent within.1.2 fuel (by omega)
      have dstFound := parts.findParent within.2.2 fuel (by omega)
      have different : root src ≠ root dst := by
        intro equal
        simp only [srcFound, dstFound, equal, ne_eq, not_true_eq_false] at apart
      rcases parts.setUnionFriend_eq within.1.2 within.2.2 different fuel (by omega) with
        ⟨srcValue, dstValue, srcSlot, srcStops, dstSlot, dstStops, united⟩
      have stepped : step fuel set (src, dst) = .ok _ := united
      have nextParts := parts.attach within.1.2 within.2.1 within.2.2 different srcSlot srcStops
        dstSlot dstStops
      have nextSized := sized.attach parts within different srcSlot dstSlot
      have nextInside : ∀ link ∈ (src, dst) :: links, Within n link :=
        List.forall_mem_cons.mpr ⟨within, inside⟩
      rcases induction nextParts nextSized nextInside (by rw [List.length_cons]; omega)
        (later _ stepped) with ⟨final, merged, ran, finalParts, finalSized, finalInside⟩
      have arranged : (((src, dst) :: rest).reverse ++ links) =
          rest.reverse ++ (src, dst) :: links := by
        rw [List.reverse_cons, List.append_assoc, List.singleton_append]
      rw [arranged]
      refine ⟨final, merged, ?_, finalParts.deeper (by simp only [List.length_cons]; omega),
        finalSized, finalInside⟩
      rw [runAll, stepped]
      exact ran

/-- `_FindParent` ends for every index. -/
def Terminating (set : UnionFindSet) : Prop :=
  ∀ index, index < set.length → ∃ fuel root, set.findParent fuel index = .ok root

/-- What should hold before a call: every search ends, and the call changes nothing
when its arguments have the same root. -/
def Keeps (fuel : Nat) (set : UnionFindSet) (call : Nat × Nat) : Prop :=
  Terminating set ∧ ∀ root, set.findParent fuel call.1 = .ok root →
    set.findParent fuel call.2 = .ok root → step fuel set call = .ok set

/-- The arguments of a call are equal or have different roots. -/
def Harmless (fuel : Nat) (set : UnionFindSet) (call : Nat × Nat) : Prop :=
  call.1 = call.2 ∨ set.findParent fuel call.1 ≠ set.findParent fuel call.2

instance (fuel : Nat) (set : UnionFindSet) (call : Nat × Nat) :
    Decidable (Harmless fuel set call) :=
  inferInstanceAs (Decidable (_ ∨ _ ≠ _))

namespace Parts

variable {set : UnionFindSet} {n : Nat} {links : List (Nat × Nat)} {root : Nat → Nat}
  {bound src dst : Nat}

theorem terminating (parts : Parts set n links root bound) : Terminating set := by
  intro index inside
  have lengthEq := parts.length_eq
  exact ⟨bound + 1, root index, parts.findParent (by omega) (bound + 1) (by omega)⟩

theorem setUnionFriend_self (parts : Parts set n links root bound) (within : src ≤ n)
    (fuel : Nat) (enough : bound < fuel) :
    UnionFindSet.setUnionFriend fuel set src src = .ok set := by
  have known : src < set.length ∧ src < set.length := by
    have lengthEq := parts.length_eq
    omega
  rw [UnionFindSet.setUnionFriend, if_pos known, parts.findParent within fuel enough]
  simp

/-- A call on different indices with the same root makes this root its own parent. -/
theorem setUnionFriend_same (parts : Parts set n links root bound) (srcWithin : src ≤ n)
    (dstWithin : dst ≤ n) (different : src ≠ dst) (same : root src = root dst) (fuel : Nat)
    (enough : bound < fuel) :
    ∃ value ≤ 0, set[root src]? = some value ∧ UnionFindSet.setUnionFriend fuel set src dst =
      .ok ((set.set (root src) (value + value)).set (root src) (root src)) := by
  have lengthEq := parts.length_eq
  rcases parts.reaches src srcWithin with ⟨_, _, reaches⟩
  rcases reaches.root_slot with ⟨value, slot, stops⟩
  have inside := (List.getElem?_eq_some_iff.mp slot).1
  have known : src < set.length ∧ dst < set.length := by omega
  refine ⟨value, stops, slot, ?_⟩
  rw [UnionFindSet.setUnionFriend, if_pos known, parts.findParent srcWithin fuel enough,
    parts.findParent dstWithin fuel enough, ← same]
  simp only [Outcome.ok_bind, if_pos different, readAt_of_getElem? slot, writeAt_of_lt _ inside]
  exact writeAt_of_lt _ (by rwa [List.length_set])

/-- A call keeps what it should exactly when it is harmless. -/
theorem keeps_iff (parts : Parts set n links root bound) (within : Within n (src, dst))
    (fuel : Nat) (enough : bound < fuel) :
    Keeps fuel set (src, dst) ↔ Harmless fuel set (src, dst) := by
  simp only [Within] at within
  have srcFound := parts.findParent within.1.2 fuel enough
  have dstFound := parts.findParent within.2.2 fuel enough
  constructor
  · intro keeps
    by_cases equal : src = dst
    · exact Or.inl equal
    · right
      intro same
      simp only [srcFound, dstFound, Except.ok.injEq] at same
      rcases parts.setUnionFriend_same within.1.2 within.2.2 equal same fuel enough with
        ⟨value, stops, slot, united⟩
      have unchanged := keeps.2 (root dst) (by rw [srcFound, same]) dstFound
      rw [step, united, Except.ok.injEq] at unchanged
      have inside := (List.getElem?_eq_some_iff.mp slot).1
      have changed : set[root src]? = some (root src : Int) := by
        rw [← unchanged]
        exact List.getElem?_set_self (by rwa [List.length_set])
      rw [slot, Option.some.injEq] at changed
      have positive := parts.root_pos within.1.1 within.1.2
      omega
  · intro harmless
    refine ⟨parts.terminating, fun top srcTop dstTop => ?_⟩
    rcases harmless with equal | apart
    · have equal : src = dst := equal
      subst equal
      exact parts.setUnionFriend_self within.1.2 fuel enough
    · exact absurd (srcTop.trans dstTop.symm) apart

/-- A harmless call leaves an array that stores sets again. -/
theorem harmless_step (parts : Parts set n links root bound) (within : Within n (src, dst))
    (fuel : Nat) (enough : bound < fuel) (harmless : Harmless fuel set (src, dst)) :
    ∃ after others merged, step fuel set (src, dst) = .ok after ∧
      Parts after n others merged (bound + 1) := by
  simp only [Within] at within
  by_cases same : root src = root dst
  · rcases harmless with equal | apart
    · have equal : src = dst := equal
      subst equal
      exact ⟨set, links, root, parts.setUnionFriend_self within.1.2 fuel enough,
        parts.deeper (Nat.le_succ bound)⟩
    · simp only [parts.findParent within.1.2 fuel enough, parts.findParent within.2.2 fuel enough,
        same, ne_eq, not_true_eq_false] at apart
  · rcases parts.setUnionFriend within.1.2 within.2.1 within.2.2 same fuel enough with
      ⟨after, merged, united, nextParts⟩
    exact ⟨after, (src, dst) :: links, merged, united, nextParts⟩

end Parts

theorem runs_keep_iff {fuel n : Nat} (calls : List (Nat × Nat)) {set : UnionFindSet}
    {links : List (Nat × Nat)} {root : Nat → Nat} {bound : Nat}
    (parts : Parts set n links root bound) (within : ∀ call ∈ calls, Within n call)
    (enough : bound + calls.length < fuel) :
    (EveryStep (step fuel) (Keeps fuel) set calls ∧
      ∃ final, runAll (step fuel) set calls = .ok final ∧ Terminating final) ↔
    EveryStep (step fuel) (Harmless fuel) set calls := by
  induction calls generalizing set links root bound with
  | nil => exact ⟨fun _ => trivial, fun _ => ⟨trivial, set, rfl, parts.terminating⟩⟩
  | cons call rest induction =>
      rcases call with ⟨src, dst⟩
      have now := within (src, dst) (List.mem_cons_self ..)
      rw [List.length_cons] at enough
      have keepsIff := parts.keeps_iff now fuel (by omega)
      have next : Harmless fuel set (src, dst) → ∃ after, step fuel set (src, dst) = .ok after ∧
          ((EveryStep (step fuel) (Keeps fuel) after rest ∧
            ∃ final, runAll (step fuel) after rest = .ok final ∧ Terminating final) ↔
          EveryStep (step fuel) (Harmless fuel) after rest) := by
        intro harmless
        rcases parts.harmless_step now fuel (by omega) harmless with
          ⟨after, others, merged, stepped, nextParts⟩
        exact ⟨after, stepped, induction nextParts
          (fun other member => within other (List.mem_cons_of_mem _ member)) (by omega)⟩
      constructor
      · intro kept
        rcases kept with ⟨⟨keeps, later⟩, final, ran, ended⟩
        have harmless := keepsIff.mp keeps
        rcases next harmless with ⟨after, stepped, others⟩
        rw [runAll, stepped] at ran
        exact .cons stepped harmless (others.mp ⟨later after stepped, final, ran, ended⟩)
      · intro every
        rcases next every.1 with ⟨after, stepped, others⟩
        rcases others.mpr (every.2 after stepped) with ⟨later, final, ran, ended⟩
        refine ⟨.cons stepped (keepsIff.mpr every.1) later, final, ?_, ended⟩
        rw [runAll, stepped]
        exact ran

end DataStructAlgorithm.Algorithm.UnionFindSet
