import Mathlib.Data.List.MinMax

/-! # Overlapping intervals

Each item runs from its start until just before its finish. When items are swept in
the order of their starts, the greatest number that run at one time is found at the last
item to start at some time. -/

namespace DataStructAlgorithm.Foundation

/-! ## Counting at the front of a list -/

section Front

variable {Item : Type u} {chosen : Item → Bool}

/-- No item that is chosen stands behind one that is not. -/
def InFront (chosen : Item → Bool) (items : List Item) : Prop :=
  items.Pairwise fun left right => chosen right → chosen left

theorem length_takeWhile_le_countP (chosen : Item → Bool) (items : List Item) :
    (items.takeWhile chosen).length ≤ items.countP chosen := by
  induction items with
  | nil => exact Nat.le_refl 0
  | cons first rest induction =>
      cases isChosen : chosen first with
      | true => simpa [isChosen] using induction
      | false => simp [isChosen]

/-- The items at the front are all the chosen ones. -/
theorem length_takeWhile_eq_iff (items : List Item) :
    (items.takeWhile chosen).length = items.countP chosen ↔ InFront chosen items := by
  induction items with
  | nil => exact iff_of_true rfl List.Pairwise.nil
  | cons first rest induction =>
      rw [InFront, List.pairwise_cons, ← InFront, ← induction]
      cases isChosen : chosen first with
      | true => simp [isChosen]
      | false =>
          -- nothing is at the front, so nothing may be chosen behind it
          have none : rest.countP chosen = 0 → (rest.takeWhile chosen).length =
              rest.countP chosen := by
            intro zero
            have bound := length_takeWhile_le_countP chosen rest
            omega
          simp only [isChosen, List.takeWhile_cons_of_neg, List.countP_cons_of_neg,
            List.length_nil, Bool.false_eq_true, not_false_eq_true, imp_false]
          constructor
          · intro zero
            exact ⟨List.countP_eq_zero.mp zero.symm, none zero.symm⟩
          · intro parts
            exact (List.countP_eq_zero.mpr parts.1).symm

end Front

/-! ## Items that run at one time -/

section Running

variable {Item : Type u} {Time : Type v} [LinearOrder Time] (start finish : Item → Time)

/-- How many items run at `time`. -/
def running (items : List Item) (time : Time) : Nat :=
  items.countP fun item => decide (start item ≤ time ∧ time < finish item)

/-- The greatest number of items that run at one time. -/
def IsMostRunning (items : List Item) (most : Nat) : Prop :=
  (∀ time, running start finish items time ≤ most) ∧
    (most = 0 ∨ ∃ time, running start finish items time = most)

variable {start finish} {items before after : List Item} {item : Item} {time : Time}

theorem running_perm {other : List Item} (perm : items.Perm other) (time : Time) :
    running start finish items time = running start finish other time :=
  perm.countP_eq _

theorem IsMostRunning.perm {other : List Item} (perm : items.Perm other) {most : Nat} :
    IsMostRunning start finish items most ↔ IsMostRunning start finish other most := by
  simp only [IsMostRunning, running_perm perm]

/-- The items taken apart behind the last one that has started. -/
theorem exists_last_started (started : ∃ item ∈ items, start item ≤ time) :
    ∃ before item after, items = before ++ item :: after ∧ start item ≤ time ∧
      ∀ later ∈ after, time < start later := by
  induction items with
  | nil =>
      rcases started with ⟨item, member, _⟩
      cases member
  | cons first rest induction =>
      by_cases startedBehind : ∃ item ∈ rest, start item ≤ time
      · rcases induction startedBehind with ⟨before, item, after, rfl, itemStarted, later⟩
        exact ⟨first :: before, item, after, rfl, itemStarted, later⟩
      · have notBehind : ∀ later ∈ rest, time < start later := by
          intro later member
          exact not_le.mp fun reached => startedBehind ⟨later, member, reached⟩
        rcases started with ⟨item, member, itemStarted⟩
        rcases List.mem_cons.mp member with rfl | inRest
        · exact ⟨[], item, rest, rfl, itemStarted, notBehind⟩
        · exact absurd ⟨item, inRest, itemStarted⟩ startedBehind

variable (sorted : (before ++ item :: after).Pairwise fun left right => start left ≤ start right)
include sorted

/-- At the start of the last item that has started, no fewer items run. -/
theorem running_le_at_last (started : start item ≤ time)
    (behind : ∀ later ∈ after, time < start later) :
    running start finish (before ++ item :: after) time ≤
      running start finish (before ++ item :: after) (start item) := by
  apply List.countP_mono_left
  intro other member runs
  rw [decide_eq_true_iff] at runs ⊢
  refine ⟨?_, lt_of_le_of_lt started runs.2⟩
  rcases List.mem_append.mp member with inBefore | inRest
  · exact (List.pairwise_append.mp sorted).2.2 other inBefore item List.mem_cons_self
  · rcases List.mem_cons.mp inRest with rfl | inAfter
    · exact le_refl _
    · exact absurd runs.1 (not_le.mpr (behind other inAfter))

omit sorted in
variable (finish) in
/-- At some time at which items start the greatest number run. -/
theorem exists_busiest {items : List Item}
    (sorted : items.Pairwise fun left right => start left ≤ start right) (notEmpty : items ≠ []) :
    ∃ before item after, items = before ++ item :: after ∧
      (∀ time, running start finish items time ≤ running start finish items (start item)) ∧
      ∀ later ∈ after, start item < start later := by
  -- the busiest of the starts, and the last item to have started then
  have some : items.argmax (fun item => running start finish items (start item)) ≠ none :=
    mt List.argmax_eq_none.mp notEmpty
  rcases Option.ne_none_iff_exists'.mp some with ⟨busiest, isBusiest⟩
  have member := List.argmax_mem isBusiest
  rcases exists_last_started ⟨busiest, member, le_refl (start busiest)⟩ with
    ⟨before, item, after, split, started, behind⟩
  subst split
  have atLast : running start finish (before ++ item :: after) (start busiest) ≤
      running start finish (before ++ item :: after) (start item) :=
    running_le_at_last sorted started behind
  refine ⟨before, item, after, rfl, ?_, ?_⟩
  · intro time
    by_cases any : ∃ other ∈ before ++ item :: after, start other ≤ time
    · rcases exists_last_started any with ⟨early, other, late, otherSplit, otherStarted, later⟩
      rw [otherSplit] at sorted
      have otherLast : running start finish (early ++ other :: late) time ≤
          running start finish (early ++ other :: late) (start other) :=
        running_le_at_last sorted otherStarted later
      rw [← otherSplit] at otherLast
      have otherMember : other ∈ before ++ item :: after := by
        rw [otherSplit]
        simp
      exact otherLast.trans ((List.le_of_mem_argmax otherMember isBusiest).trans atLast)
    · have none : running start finish (before ++ item :: after) time = 0 := by
        rw [running, List.countP_eq_zero]
        intro other otherMember runs
        exact any ⟨other, otherMember, (of_decide_eq_true runs).1⟩
      rw [none]
      exact Nat.zero_le _
  · intro later laterMember
    exact lt_of_le_of_lt started (behind later laterMember)

/-- What runs when an item starts: itself, what started before it and runs on, and what
starts at the same time behind it. -/
theorem running_start (proper : start item < finish item) :
    running start finish (before ++ item :: after) (start item) =
      before.countP (fun earlier => decide (start item < finish earlier)) + 1 +
        running start finish after (start item) := by
  have earlier : before.countP (fun earlier =>
      decide (start earlier ≤ start item ∧ start item < finish earlier)) =
        before.countP (fun earlier => decide (start item < finish earlier)) := by
    apply List.countP_congr
    intro earlier member
    have starts := (List.pairwise_append.mp sorted).2.2 earlier member item List.mem_cons_self
    simp [starts]
  rw [running, List.countP_append, List.countP_cons_of_pos (by simp [proper]), earlier, running]
  omega

/-- Nothing starts at the same time behind an item exactly when it is the last one. -/
theorem running_behind_eq_zero_iff (proper : ∀ later ∈ after, start later < finish later) :
    running start finish after (start item) = 0 ↔ ∀ later ∈ after, start item < start later := by
  rw [running, List.countP_eq_zero]
  have starts := (List.pairwise_cons.mp (List.pairwise_append.mp sorted).2.1).1
  constructor
  · intro nothing later member
    refine lt_of_le_of_ne (starts later member) fun equal => nothing later member ?_
    simp only [equal, le_refl, true_and, decide_eq_true_eq]
    exact proper later member
  · intro behind later member runs
    rw [decide_eq_true_iff] at runs
    exact absurd runs.1 (not_le.mpr (behind later member))

end Running

end DataStructAlgorithm.Foundation
