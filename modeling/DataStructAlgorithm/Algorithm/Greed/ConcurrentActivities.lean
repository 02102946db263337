import Mathlib.Data.List.Induction
import Mathlib.Data.List.Sort
import DataStructAlgorithm.Foundation.Conversions
import DataStructAlgorithm.Foundation.HeapOrder
import DataStructAlgorithm.Foundation.Overlap

/-! # `Algorithm/Greed/ConcurrentActivities.cpp`

`std::sort` and `std::make_heap` are functions of which only the result is known: the
elements are rearranged, into the order of `CmpStart` and into a heap for `CmpFinsh`. -/

namespace DataStructAlgorithm.Algorithm.Greed

open Foundation

structure ActiveTime (Time : Type) where
  start : Time
  finsh : Time
  deriving DecidableEq, Repr

section CommonAcitive

variable {Time : Type} [LinearOrder Time]

/-- `std::sort` with `CmpStart`. -/
structure SortsByStart (sort : List (ActiveTime Time) → List (ActiveTime Time)) : Prop where
  perm : ∀ t_v, (sort t_v).Perm t_v
  sorted : ∀ t_v, (sort t_v).Pairwise fun left right => ¬right.start < left.start

/-- `std::make_heap` with `CmpFinsh`, with which no parent is less than its children. -/
structure MakesHeap (makeHeap : List Time → List Time) : Prop where
  perm : ∀ finsh, (makeHeap finsh).Perm finsh
  heap : ∀ finsh, HeapFrom OrderDual.toDual (fun index => (makeHeap finsh)[index]?) 0

/-- The loop over `j`, whose first argument is `t_v[i].m_start` and whose second one the
part of `finsh` from `j` to `i`. -/
def countLoop (start : Time) : List Time → (j curMax : Int) → Outcome Int
  | [], _, curMax => .ok curMax
  | finsh :: rest, j, curMax =>
      if start < finsh then do
        let curMax ← addInt curMax 1
        let j ← addInt j 1
        countLoop start rest j curMax
      else .ok curMax

/-- The loop over `i`, whose first argument is the part of `t_v` from `i` on. -/
def activityLoop (makeHeap : List Time → List Time) :
    List (ActiveTime Time) → (i max : Int) → (finsh : List Time) → Outcome Int
  | [], _, max, _ => .ok max
  | activity :: rest, i, max, finsh => do
      let curMax ← countLoop activity.start (finsh.take i.toNat) 0 1
      let max := if max < curMax then curMax else max
      let finsh := makeHeap (finsh ++ [activity.finsh])
      let i ← addInt i 1
      activityLoop makeHeap rest i max finsh

/-- `CommonAcitive`, with the vector as it leaves it. -/
def commonAcitive (sort : List (ActiveTime Time) → List (ActiveTime Time))
    (makeHeap : List Time → List Time) (t_v : List (ActiveTime Time)) :
    Outcome (List (ActiveTime Time) × Int) :=
  if t_v.length ≤ 1 then .ok (t_v, t_v.length)
  else
    match sort t_v with
    | [] => .error .outOfRange
    | first :: rest => do
        let max ← activityLoop makeHeap rest 1 1 [first.finsh]
        pure (first :: rest, max)

/-- `CommonAcitive` returns the greatest number of activities that run at one moment. -/
def ReturnsMost (sort : List (ActiveTime Time) → List (ActiveTime Time))
    (makeHeap : List Time → List Time) (t_v : List (ActiveTime Time)) : Prop :=
  ∃ (after : List (ActiveTime Time)) (most : Nat),
    commonAcitive sort makeHeap t_v = .ok (after, most) ∧
      IsMostRunning ActiveTime.start ActiveTime.finsh t_v most

/-- The array `finsh` when the activities in `before` have been entered. -/
def entered (makeHeap : List Time → List Time) : List (ActiveTime Time) → List Time
  | [] => []
  | first :: rest =>
      rest.foldl (fun finsh activity => makeHeap (finsh ++ [activity.finsh])) [first.finsh]

/-- What the loop over `j` counts for an activity behind those in `before`. -/
def counted (makeHeap : List Time → List Time) (before : List (ActiveTime Time))
    (activity : ActiveTime Time) : Nat :=
  ((entered makeHeap before).takeWhile fun finsh => decide (activity.start < finsh)).length + 1

/-- At some busiest moment at which activities start, the array has all that run on in
front of all that are over when the last of them is counted. -/
def BusiestInFront (sort : List (ActiveTime Time) → List (ActiveTime Time))
    (makeHeap : List Time → List Time) (t_v : List (ActiveTime Time)) : Prop :=
  ∃ before activity after, sort t_v = before ++ activity :: after ∧
    (∀ time, running ActiveTime.start ActiveTime.finsh t_v time ≤
      running ActiveTime.start ActiveTime.finsh t_v activity.start) ∧
    (∀ later ∈ after, activity.start < later.start) ∧
    InFront (fun finsh => decide (activity.start < finsh)) (entered makeHeap before)

variable {sort : List (ActiveTime Time) → List (ActiveTime Time)}
  {makeHeap : List Time → List Time}

/-! ## The loops -/

theorem countLoop_eq (start : Time) (finsh : List Time) (j curMax : Nat)
    (jSmall : j + finsh.length < 2 ^ 31) (countSmall : curMax + finsh.length < 2 ^ 31) :
    countLoop start finsh j curMax = .ok
      ((curMax + (finsh.takeWhile fun finsh => decide (start < finsh)).length : Nat) : Int) := by
  induction finsh generalizing j curMax with
  | nil => rfl
  | cons first rest induction =>
      rw [List.length_cons] at jSmall countSmall
      by_cases runsOn : start < first
      · have stepped : addInt j 1 = .ok ((j + 1 : Nat) : Int) :=
          addInt_natCast (show j + 1 < 2 ^ 31 by omega)
        have added : addInt curMax 1 = .ok ((curMax + 1 : Nat) : Int) :=
          addInt_natCast (show curMax + 1 < 2 ^ 31 by omega)
        rw [countLoop, if_pos runsOn, added, Outcome.ok_bind, stepped, Outcome.ok_bind,
          induction (j + 1) (curMax + 1) (by omega) (by omega),
          List.takeWhile_cons_of_pos (by simp [runsOn]), List.length_cons, Nat.add_right_comm,
          Nat.add_assoc]
      · rw [countLoop, if_neg runsOn, List.takeWhile_cons_of_neg (by simp [runsOn])]
        rfl

omit [LinearOrder Time] in
theorem entered_append {before : List (ActiveTime Time)} (notEmpty : before ≠ [])
    (activity : ActiveTime Time) :
    entered makeHeap (before ++ [activity]) =
      makeHeap (entered makeHeap before ++ [activity.finsh]) := by
  cases before with
  | nil => exact absurd rfl notEmpty
  | cons first rest => simp [entered]

theorem entered_perm (makesHeap : MakesHeap makeHeap) (before : List (ActiveTime Time)) :
    (entered makeHeap before).Perm (before.map ActiveTime.finsh) := by
  induction before using List.reverseRec with
  | nil => exact .refl _
  | append_singleton before activity induction =>
      cases before with
      | nil => exact .refl _
      | cons first rest =>
          rw [entered_append (List.cons_ne_nil _ _), List.map_append]
          exact (makesHeap.perm _).trans (induction.append_right _)

theorem length_entered (makesHeap : MakesHeap makeHeap) (before : List (ActiveTime Time)) :
    (entered makeHeap before).length = before.length := by
  rw [(entered_perm makesHeap before).length_eq, List.length_map]

/-- One pass of the loop over `i`. -/
theorem activityLoop_cons (makesHeap : MakesHeap makeHeap) {before : List (ActiveTime Time)}
    (notEmpty : before ≠ []) (activity : ActiveTime Time) (rest : List (ActiveTime Time))
    (small : before.length + 1 < 2 ^ 31) (max : Nat) :
    activityLoop makeHeap (activity :: rest) before.length max (entered makeHeap before) =
      activityLoop makeHeap rest (before ++ [activity]).length
        (Nat.max max (counted makeHeap before activity) : Nat)
        (entered makeHeap (before ++ [activity])) := by
  have lengthEq := length_entered makesHeap before
  have stepped : addInt before.length 1 = .ok ((before.length + 1 : Nat) : Int) :=
    addInt_natCast (show before.length + 1 < 2 ^ 31 by omega)
  have count : countLoop activity.start (entered makeHeap before) 0 1 =
      .ok (counted makeHeap before activity : Int) := by
    have counts := countLoop_eq activity.start (entered makeHeap before) 0 1 (by omega) (by omega)
    rwa [Nat.add_comm 1] at counts
  have greater : (if (max : Int) < counted makeHeap before activity then
      (counted makeHeap before activity : Int) else max) =
        (Nat.max max (counted makeHeap before activity) : Nat) := by
    split <;> simp only [Nat.max_def] <;> split <;> omega
  rw [activityLoop, Int.toNat_natCast, List.take_of_length_le (Nat.le_of_eq lengthEq), count,
    Outcome.ok_bind]
  simp only [stepped, Outcome.ok_bind, greater, entered_append notEmpty, List.length_append,
    List.length_singleton]

/-- The loop over `i` finds the greatest count. -/
theorem activityLoop_greatest (makesHeap : MakesHeap makeHeap)
    {before rest : List (ActiveTime Time)} (notEmpty : before ≠ [])
    (small : before.length + rest.length < 2 ^ 31) (max : Nat) :
    ∃ most : Nat,
      activityLoop makeHeap rest before.length max (entered makeHeap before) = .ok most ∧
      max ≤ most ∧
      (∀ mid activity after, rest = mid ++ activity :: after →
        counted makeHeap (before ++ mid) activity ≤ most) ∧
      (most = max ∨ ∃ mid activity after, rest = mid ++ activity :: after ∧
        most = counted makeHeap (before ++ mid) activity) := by
  induction rest generalizing before max with
  | nil => exact ⟨max, rfl, Nat.le_refl max, by simp, Or.inl rfl⟩
  | cons first rest induction =>
      rw [List.length_cons] at small
      have bound : (before ++ [first]).length + rest.length < 2 ^ 31 := by
        rw [List.length_append, List.length_singleton]
        omega
      rcases induction (List.append_ne_nil_of_right_ne_nil _ (List.cons_ne_nil _ _)) bound
        (Nat.max max (counted makeHeap before first)) with
        ⟨most, looped, atLeast, greatest, reached⟩
      have atLeastMax := Nat.le_trans (Nat.le_max_left max (counted makeHeap before first)) atLeast
      have atLeastFirst :=
        Nat.le_trans (Nat.le_max_right max (counted makeHeap before first)) atLeast
      refine ⟨most, ?_, atLeastMax, ?_, ?_⟩
      · rw [activityLoop_cons makesHeap notEmpty first rest (by omega), looped]
      · intro mid activity after split
        cases mid with
        | nil =>
            cases split
            rwa [List.append_nil]
        | cons head mid =>
            cases split
            simpa using greatest mid activity after rfl
      · rcases reached with same | ⟨mid, activity, after, rfl, same⟩
        · rcases Nat.le_total max (counted makeHeap before first) with greater | kept
          · refine Or.inr ⟨[], first, rest, rfl, ?_⟩
            rw [same, List.append_nil]
            exact Nat.max_eq_right greater
          · exact Or.inl (same.trans (Nat.max_eq_left kept))
        · exact Or.inr ⟨first :: mid, activity, after, rfl, by simpa using same⟩

/-- When the loop over `i` ends, `i` has not overflowed. -/
theorem activityLoop_fits {rest : List (ActiveTime Time)} {i max result : Int}
    {finsh : List Time} (inRange : i < 2 ^ 31)
    (returned : activityLoop makeHeap rest i max finsh = .ok result) :
    i + rest.length < 2 ^ 31 := by
  induction rest generalizing i max finsh with
  | nil => simpa using inRange
  | cons first rest induction =>
      rw [activityLoop] at returned
      rcases Outcome.bind_eq_ok returned with ⟨curMax, _, returned⟩
      rcases Outcome.bind_eq_ok returned with ⟨next, stepped, returned⟩
      have sum := addInt_eq_ok stepped
      have fits := induction sum.2.2 returned
      rw [List.length_cons]
      omega

/-! ## The function -/

theorem SortsByStart.increasing (sorts : SortsByStart sort) (t_v : List (ActiveTime Time)) :
    (sort t_v).Pairwise fun left right => left.start ≤ right.start :=
  (sorts.sorted t_v).imp not_lt.mp

section Function

variable {t_v : List (ActiveTime Time)} (sorts : SortsByStart sort) (makesHeap : MakesHeap makeHeap)
include sorts

/-- On few enough activities the function returns the greatest of its counts. -/
theorem commonAcitive_greatest (makesHeap : MakesHeap makeHeap) (notEmpty : t_v ≠ [])
    (small : t_v.length < 2 ^ 31) :
    ∃ (left : List (ActiveTime Time)) (most : Nat),
      commonAcitive sort makeHeap t_v = .ok (left, most) ∧
      (∀ before activity after, sort t_v = before ++ activity :: after →
        counted makeHeap before activity ≤ most) ∧
      ∃ before activity after, sort t_v = before ++ activity :: after ∧
        most = counted makeHeap before activity := by
  have lengthEq := (sorts.perm t_v).length_eq
  cases sortedEq : sort t_v with
  | nil =>
      rw [sortedEq, List.length_nil] at lengthEq
      exact absurd (List.eq_nil_of_length_eq_zero lengthEq.symm) notEmpty
  | cons first rest =>
      rw [sortedEq, List.length_cons] at lengthEq
      have fits : [first].length + rest.length < 2 ^ 31 := by
        rw [List.length_singleton]
        omega
      rcases activityLoop_greatest makesHeap (List.cons_ne_nil first []) fits 1 with
        ⟨most, looped, atLeast, greatest, reached⟩
      refine ⟨if t_v.length ≤ 1 then t_v else first :: rest, most, ?_, ?_, ?_⟩
      · by_cases short : t_v.length ≤ 1
        · have restEmpty : rest = [] := List.eq_nil_of_length_eq_zero (by omega)
          subst restEmpty
          have one : (1 : Int) = most := Except.ok.inj looped
          have lengthOne : t_v.length = 1 := by simpa using lengthEq.symm
          rw [commonAcitive, if_pos short, if_pos short, ← one, lengthOne]
          rfl
        · rw [commonAcitive, if_neg short, if_neg short, sortedEq]
          simp only [List.length_singleton, entered, List.foldl_nil] at looped
          have run : activityLoop makeHeap rest 1 1 [first.finsh] = .ok (most : Int) := looped
          simp only [run, Outcome.ok_bind, Outcome.pure_eq_ok]
      · intro before activity after split
        cases before with
        | nil => exact atLeast
        | cons head mid =>
            cases split
            exact greatest mid activity after rfl
      · rcases reached with same | ⟨mid, activity, after, rfl, same⟩
        · exact ⟨[], first, rest, rfl, same⟩
        · exact ⟨first :: mid, activity, after, rfl, same⟩

theorem commonAcitive_fits {result : List (ActiveTime Time) × Int}
    (returned : commonAcitive sort makeHeap t_v = .ok result) : t_v.length < 2 ^ 31 := by
  by_cases short : t_v.length ≤ 1
  · omega
  · have lengthEq := (sorts.perm t_v).length_eq
    rw [commonAcitive, if_neg short] at returned
    cases sortedEq : sort t_v with
    | nil =>
        rw [sortedEq] at returned
        cases returned
    | cons first rest =>
        rw [sortedEq] at returned lengthEq
        rcases Outcome.bind_eq_ok returned with ⟨max, looped, _⟩
        have fits := activityLoop_fits (by omega) looped
        rw [List.length_cons] at lengthEq
        omega

variable {before after : List (ActiveTime Time)} {activity : ActiveTime Time}
  (proper : ∀ activity ∈ t_v, activity.start < activity.finsh)
  (split : sort t_v = before ++ activity :: after)
include makesHeap proper split

/-- What a count misses: the finish times behind an earlier one, and the activities that
start at the same time. -/
theorem running_eq_counted :
    running ActiveTime.start ActiveTime.finsh t_v activity.start +
        ((entered makeHeap before).takeWhile fun finsh => decide (activity.start < finsh)).length =
      counted makeHeap before activity +
        (entered makeHeap before).countP (fun finsh => decide (activity.start < finsh)) +
        running ActiveTime.start ActiveTime.finsh after activity.start := by
  have sorted := sorts.increasing t_v
  rw [split] at sorted
  have member : activity ∈ t_v := by
    rw [← (sorts.perm t_v).mem_iff, split]
    simp
  rw [← running_perm (sorts.perm t_v), split, running_start sorted (proper activity member),
    (entered_perm makesHeap before).countP_eq, List.countP_map, counted]
  simp only [Function.comp_def]
  omega

theorem counted_le_running :
    counted makeHeap before activity ≤
      running ActiveTime.start ActiveTime.finsh t_v activity.start := by
  have equation := running_eq_counted sorts makesHeap proper split
  have front := length_takeWhile_le_countP (fun finsh => decide (activity.start < finsh))
    (entered makeHeap before)
  omega

theorem counted_eq_running_iff :
    counted makeHeap before activity =
        running ActiveTime.start ActiveTime.finsh t_v activity.start ↔
      (∀ later ∈ after, activity.start < later.start) ∧
        InFront (fun finsh => decide (activity.start < finsh)) (entered makeHeap before) := by
  have sorted := sorts.increasing t_v
  rw [split] at sorted
  have properAfter : ∀ later ∈ after, later.start < later.finsh := by
    intro later member
    apply proper later
    rw [← (sorts.perm t_v).mem_iff, split]
    simp [member]
  have equation := running_eq_counted sorts makesHeap proper split
  have front := length_takeWhile_le_countP (fun finsh => decide (activity.start < finsh))
    (entered makeHeap before)
  rw [← running_behind_eq_zero_iff sorted properAfter,
    ← length_takeWhile_eq_iff]
  omega

end Function

section Exactly

variable (sorts : SortsByStart sort) (makesHeap : MakesHeap makeHeap)
  (t_v : List (ActiveTime Time)) (proper : ∀ activity ∈ t_v, activity.start < activity.finsh)
include sorts makesHeap proper

theorem returnsMost_of_inFront (notEmpty : t_v ≠ []) (small : t_v.length < 2 ^ 31)
    (inFront : BusiestInFront sort makeHeap t_v) : ReturnsMost sort makeHeap t_v := by
  rcases inFront with ⟨before, activity, after, split, busiest, last, front⟩
  rcases commonAcitive_greatest sorts makesHeap notEmpty small with
    ⟨left, most, ran, greatest, earlier, other, later, otherSplit, mostEq⟩
  have equal := (counted_eq_running_iff sorts makesHeap proper split).mpr ⟨last, front⟩
  have atLeast := greatest before activity after split
  have atMost := counted_le_running sorts makesHeap proper otherSplit
  have otherBusy := busiest other.start
  refine ⟨left, most, ran, ?_, Or.inr ⟨activity.start, by omega⟩⟩
  intro time
  have bound := busiest time
  omega

/-- Up to three activities are counted right: a heap of two is in decreasing order. -/
theorem returnsMost_of_three (few : t_v.length ≤ 3) : ReturnsMost sort makeHeap t_v := by
  rcases eq_or_ne t_v [] with rfl | notEmpty
  · exact ⟨[], 0, rfl, fun time => Nat.le_refl 0, Or.inl rfl⟩
  apply returnsMost_of_inFront sorts makesHeap t_v proper notEmpty (by omega)
  have sortedNotEmpty : sort t_v ≠ [] := fun empty =>
    notEmpty (List.perm_nil.mp (empty ▸ (sorts.perm t_v).symm))
  rcases exists_busiest ActiveTime.finsh (sorts.increasing t_v) sortedNotEmpty with
    ⟨before, activity, after, split, busiest, last⟩
  refine ⟨before, activity, after, split, ?_, last, ?_⟩
  · intro time
    rw [← running_perm (sorts.perm t_v), ← running_perm (sorts.perm t_v)]
    exact busiest time
  · have lengthEq := (sorts.perm t_v).length_eq
    rw [split, List.length_append, List.length_cons] at lengthEq
    rcases before with _ | ⟨first, _ | ⟨second, _ | ⟨third, rest⟩⟩⟩
    · exact List.Pairwise.nil
    · exact List.pairwise_singleton _ _
    · have heap := makesHeap.heap ([first.finsh] ++ [second.finsh])
      have lengthTwo := (makesHeap.perm ([first.finsh] ++ [second.finsh])).length_eq
      rw [entered, List.foldl_cons, List.foldl_nil]
      rcases List.length_eq_two.mp lengthTwo with ⟨upper, lower, pair⟩
      rw [pair] at heap ⊢
      have ordered : lower ≤ upper := heap 1 Nat.one_pos (Nat.zero_le _) upper lower rfl rfl
      simp only [InFront, List.pairwise_pair, decide_eq_true_eq]
      exact fun runsOn => lt_of_lt_of_le runsOn ordered
    · simp only [List.length_cons] at lengthEq
      omega

/-- `CommonAcitive` is right exactly on the vectors whose length is an `int` and in which, at some
busiest moment, the loop over `j` leaves no activity uncounted. -/
theorem commonAcitive_most_iff :
    ReturnsMost sort makeHeap t_v ↔
      t_v = [] ∨ (t_v.length < 2 ^ 31 ∧ BusiestInFront sort makeHeap t_v) := by
  rcases eq_or_ne t_v [] with rfl | notEmpty
  · refine iff_of_true ⟨[], 0, rfl, ?_, Or.inl rfl⟩ (Or.inl rfl)
    exact fun time => Nat.le_refl 0
  rw [or_iff_right notEmpty]
  constructor
  · rintro ⟨result, most, returned, atMost, _⟩
    have small := commonAcitive_fits sorts returned
    rcases commonAcitive_greatest sorts makesHeap notEmpty small with
      ⟨left, found, ran, _, before, activity, after, split, foundEq⟩
    rw [returned] at ran
    have same : most = found := Int.ofNat_inj.mp (congrArg Prod.snd (Except.ok.inj ran))
    have least := counted_le_running sorts makesHeap proper split
    have bound := atMost activity.start
    have equal : counted makeHeap before activity =
        running ActiveTime.start ActiveTime.finsh t_v activity.start := by omega
    rcases (counted_eq_running_iff sorts makesHeap proper split).mp equal with ⟨last, front⟩
    refine ⟨small, before, activity, after, split, ?_, last, front⟩
    intro time
    have other := atMost time
    omega
  · intro condition
    exact returnsMost_of_inFront sorts makesHeap t_v proper notEmpty condition.1 condition.2

end Exactly

/-! ## A vector that is undercounted -/

/-- The order of starts, by insertion. -/
def insertByStart (t_v : List (ActiveTime Time)) : List (ActiveTime Time) :=
  t_v.insertionSort fun left right => left.start ≤ right.start

theorem insertByStart_sorts :
    SortsByStart (insertByStart : List (ActiveTime Time) → List (ActiveTime Time)) where
  perm := fun t_v => List.perm_insertionSort _ t_v
  sorted := fun t_v => (List.pairwise_insertionSort _ t_v).imp not_lt.mpr

/-- Every child is compared with its parent. -/
def isHeap (finsh : List Time) : Bool :=
  (List.range finsh.length).all fun child =>
    finsh[(child - 1) / 2]?.all fun upper =>
      finsh[child]?.all fun lower => decide (lower ≤ upper)

/-- A heap is kept, and everything else put in decreasing order. -/
def keepHeap (finsh : List Time) : List Time :=
  if isHeap finsh then finsh else finsh.insertionSort (· ≥ ·)

theorem keepHeap_makes : MakesHeap (keepHeap : List Time → List Time) where
  perm := by
    intro finsh
    rw [keepHeap]
    split
    · exact .refl _
    · exact List.perm_insertionSort _ finsh
  heap := by
    intro finsh child positive _ upper lower foundUpper foundLower
    rw [OrderDual.toDual_le_toDual]
    rw [keepHeap] at foundUpper foundLower
    by_cases heap : isHeap finsh = true
    · rw [if_pos heap] at foundUpper foundLower
      have inside := (List.getElem?_eq_some_iff.mp foundLower).1
      have compared := List.all_eq_true.mp heap child (List.mem_range.mpr inside)
      simpa only [foundUpper, foundLower, Option.all_some, decide_eq_true_eq] using compared
    · rw [if_neg heap] at foundUpper foundLower
      rcases List.getElem?_eq_some_iff.mp foundUpper with ⟨upperInside, rfl⟩
      rcases List.getElem?_eq_some_iff.mp foundLower with ⟨lowerInside, rfl⟩
      exact List.pairwise_iff_getElem.mp (List.pairwise_insertionSort (· ≥ ·) finsh) _ _ _ _
        (by omega)

end CommonAcitive

theorem commonAcitive_most_iff_three :
    ReturnsMost insertByStart keepHeap [⟨2, 3⟩, ⟨0, 5⟩, ⟨1, 4⟩] ↔
      ([⟨2, 3⟩, ⟨0, 5⟩, ⟨1, 4⟩] : List (ActiveTime Nat)) = [] ∨
        ([⟨2, 3⟩, ⟨0, 5⟩, ⟨1, 4⟩] : List (ActiveTime Nat)).length < 2 ^ 31 ∧
          BusiestInFront insertByStart keepHeap [⟨2, 3⟩, ⟨0, 5⟩, ⟨1, 4⟩] :=
  commonAcitive_most_iff insertByStart_sorts keepHeap_makes _ (by decide)

/-- At 5 the first, the third and the fourth of them run. -/
def crowded : List (ActiveTime Nat) := [⟨0, 100⟩, ⟨1, 3⟩, ⟨4, 90⟩, ⟨5, 95⟩]

theorem crowded_most : IsMostRunning ActiveTime.start ActiveTime.finsh crowded 3 := by
  refine ⟨?_, Or.inr ⟨5, rfl⟩⟩
  intro time
  simp only [running, crowded, List.countP_cons, List.countP_nil, decide_eq_true_eq]
  split <;> split <;> split <;> split <;> omega

/-- The finish time 3 stands between 100 and 90, and ends the loop over `j`. -/
theorem commonAcitive_undercounts :
    SortsByStart (insertByStart : List (ActiveTime Nat) → List (ActiveTime Nat)) ∧
      MakesHeap (keepHeap : List Nat → List Nat) ∧
      (∀ activity ∈ crowded, activity.start < activity.finsh) ∧
      commonAcitive insertByStart keepHeap crowded = .ok (crowded, 2) ∧
      IsMostRunning ActiveTime.start ActiveTime.finsh crowded 3 ∧
      ¬ReturnsMost insertByStart keepHeap crowded := by
  have returned : commonAcitive insertByStart keepHeap crowded = .ok (crowded, 2) := by decide
  refine ⟨insertByStart_sorts, keepHeap_makes, by decide, returned, crowded_most, ?_⟩
  rintro ⟨after, most, ran, atMost, _⟩
  rw [returned] at ran
  have two : (2 : Int) = most := congrArg Prod.snd (Except.ok.inj ran)
  have three : 3 ≤ most := atMost 5
  omega

end DataStructAlgorithm.Algorithm.Greed
