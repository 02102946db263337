import Mathlib.Data.Nat.ModEq

/-! # Round robin

Members stand in a circle and take turns. A turn goes to the first member from a start on that
is available, and the next turn starts behind that member. Members may leave for good. -/

namespace DataStructAlgorithm.Foundation

/-- Who was available in a turn, and who got it. -/
structure Turn where
  available : Nat → Prop
  chosen : Option Nat

/-- The first of `count` members around the circle that is available. -/
def FirstFrom (count start : Nat) (available : Nat → Prop) (chosen : Nat) : Prop :=
  ∃ skipped < count, chosen = (start + skipped) % count ∧ available chosen ∧
    ∀ earlier < skipped, ¬ available ((start + earlier) % count)

/-- Turns that are taken one after the other. Nobody is chosen when nobody is available, and
no turn follows. -/
inductive Rotation (count : Nat) : Nat → List Turn → Prop
  | nil (start : Nat) : Rotation count start []
  | stop {start : Nat} {available : Nat → Prop}
      (nobody : ∀ member < count, ¬ available member) :
      Rotation count start [⟨available, none⟩]
  | turn {start chosen : Nat} {available : Nat → Prop} {rest : List Turn}
      (first : FirstFrom count start available chosen)
      (leave : ∀ later ∈ rest, ∀ member, later.available member → available member)
      (next : Rotation count ((chosen + 1) % count) rest) :
      Rotation count start (⟨available, some chosen⟩ :: rest)

section Circle

variable {count base : Nat}

theorem circle_inj {first second : Nat} (firstLt : first < count) (secondLt : second < count)
    (same : (base + first) % count = (base + second) % count) : first = second := by
  have congruent : first ≡ second [MOD count] := Nat.ModEq.add_left_cancel' base same
  exact Nat.ModEq.eq_of_lt_of_lt congruent firstLt secondLt

theorem circle_add (place step : Nat) :
    ((base + place) % count + step) % count = (base + (place + step)) % count := by
  rw [Nat.mod_add_mod, Nat.add_assoc]

/-- Every member stands at some place behind a member. -/
theorem circle_place (base : Nat) {member : Nat} (within : member < count) :
    ∃ place < count, member = (base + place) % count := by
  have positive : 0 < count := by omega
  have small : base % count < count := Nat.mod_lt base positive
  refine ⟨(member + count - base % count) % count, Nat.mod_lt _ positive, ?_⟩
  rw [Nat.add_mod_mod, ← Nat.mod_add_mod, Nat.add_sub_of_le (by omega), Nat.add_mod_right,
    Nat.mod_eq_of_lt within]

end Circle

/-- How often a member is chosen. -/
def timesChosen (member : Nat) (turns : List Turn) : Nat :=
  turns.countP fun turn => turn.chosen = some member

theorem timesChosen_cons (member : Nat) (turn : Turn) (turns : List Turn) :
    timesChosen member (turn :: turns) =
      timesChosen member turns + if turn.chosen = some member then 1 else 0 := by
  rw [timesChosen, List.countP_cons]
  simp only [decide_eq_true_eq]
  rfl

/-- When the member at the last place is available, the turn goes to the first available member
on the way to it. -/
theorem FirstFrom.place {count base start chosen : Nat} {available : Nat → Prop}
    (first : FirstFrom count ((base + start) % count) available chosen) (within : start < count)
    (last : available ((base + (count - 1)) % count)) :
    ∃ place < count, start ≤ place ∧ chosen = (base + place) % count ∧
      ∀ other < place, start ≤ other → ¬ available ((base + other) % count) := by
  rcases first with ⟨skipped, _, isChosen, _, unavailable⟩
  have passed : ∀ other, start ≤ other → other < start + skipped →
      ¬ available ((base + other) % count) := by
    intro other low high
    have notHere := unavailable (other - start) (by omega)
    rw [circle_add, Nat.add_sub_of_le low] at notHere
    exact notHere
  have placeLt : start + skipped < count := by
    apply Nat.lt_of_not_le
    intro beyond
    exact passed (count - 1) (by omega) (by omega) last
  rw [circle_add] at isChosen
  exact ⟨start + skipped, placeLt, Nat.le_add_right _ _, isChosen,
    fun other high low => passed other low high⟩

theorem Rotation.chosen_available {count start : Nat} {turns : List Turn}
    (rotation : Rotation count start turns) {turn : Turn} (member : turn ∈ turns) {chosen : Nat}
    (isChosen : turn.chosen = some chosen) : turn.available chosen ∧ chosen < count := by
  induction rotation with
  | nil start => cases member
  | stop nobody =>
      rw [List.mem_singleton.mp member] at isChosen
      cases isChosen
  | turn first leave next induction =>
      rcases List.mem_cons.mp member with rfl | later
      · cases isChosen
        rcases first with ⟨skipped, skippedLt, place, available, _⟩
        refine ⟨available, ?_⟩
        rw [place]
        exact Nat.mod_lt _ (by omega)
      · exact induction later

/-- A turn that others follow goes to a member, and they start behind it. -/
theorem Rotation.uncons {count start : Nat} {turn : Turn} {rest : List Turn}
    (rotation : Rotation count start (turn :: rest)) (follow : rest ≠ []) :
    ∃ chosen, turn.chosen = some chosen ∧ FirstFrom count start turn.available chosen ∧
      (∀ later ∈ rest, ∀ member, later.available member → turn.available member) ∧
      Rotation count ((chosen + 1) % count) rest := by
  cases rotation with
  | stop nobody => exact absurd rfl follow
  | turn first leave next => exact ⟨_, rfl, first, leave, next⟩

theorem Rotation.tail {count start : Nat} {turn : Turn} {rest : List Turn}
    (rotation : Rotation count start (turn :: rest)) : ∃ other, Rotation count other rest := by
  cases rotation with
  | stop nobody => exact ⟨start, .nil start⟩
  | turn first leave next => exact ⟨_, next⟩

theorem Rotation.of_append {count start : Nat} {before rest : List Turn}
    (rotation : Rotation count start (before ++ rest)) : ∃ other, Rotation count other rest := by
  induction before generalizing start with
  | nil => exact ⟨start, rotation⟩
  | cons turn before induction =>
      rcases rotation.tail with ⟨other, next⟩
      exact induction next

/-- The turns on the way around the circle to a member at the last place: a member whose place
is still ahead gets exactly one of them. -/
theorem Rotation.timesChosen_eq {count place : Nat} (base start : Nat)
    {middle after : List Turn} {last : Turn}
    (rotation : Rotation count ((base + start) % count) (middle ++ last :: after))
    (startLt : start < count) (placeLt : place + 1 < count)
    (lastChosen : last.chosen = some ((base + (count - 1)) % count))
    (notBefore : ∀ turn ∈ middle, turn.chosen ≠ some ((base + (count - 1)) % count))
    (available : last.available ((base + place) % count)) :
    timesChosen ((base + place) % count) middle = if start ≤ place then 1 else 0 := by
  have isTurn : last ∈ middle ++ last :: after := by simp
  have lastAvailable := (rotation.chosen_available isTurn lastChosen).1
  induction middle generalizing start with
  | nil =>
      cases rotation with
      | stop nobody => cases lastChosen
      | turn first leave next =>
          rcases first.place startLt lastAvailable with ⟨found, foundLt, _, isFound, passed⟩
          have isLast : found = count - 1 := by
            apply circle_inj foundLt (by omega)
            rw [← isFound]
            exact Option.some.inj lastChosen
          have ahead : ¬ start ≤ place := fun ahead => passed place (by omega) ahead available
          rw [if_neg ahead]
          rfl
  | cons turn middle induction =>
      rcases rotation.uncons (by simp) with ⟨chosen, isChosen, first, leave, next⟩
      have turnLast := leave last (by simp) _ lastAvailable
      have turnPlace := leave last (by simp) _ available
      rcases first.place startLt turnLast with ⟨found, foundLt, foundFrom, isFound, passed⟩
      have notLast : found ≠ count - 1 := by
        intro isLast
        apply notBefore turn List.mem_cons_self
        rw [isChosen, isFound, isLast]
      rw [isFound, circle_add] at next
      have others := induction (found + 1) next (by omega)
        (fun other member => notBefore other (List.mem_cons_of_mem _ member)) (by simp)
      have here : turn.chosen = some ((base + place) % count) ↔ found = place := by
        rw [isChosen, isFound, Option.some.injEq]
        exact ⟨circle_inj foundLt (by omega), fun same => by rw [same]⟩
      rw [timesChosen_cons, others]
      simp only [here]
      by_cases isPlace : found = place
      · subst isPlace
        simp [foundFrom]
      · have notPassed : start ≤ place → found < place := by
          intro ahead
          have notBehind : ¬ place < found := fun behind => passed place behind ahead turnPlace
          omega
        by_cases ahead : start ≤ place
        · have less := notPassed ahead
          simp [isPlace, ahead, Nat.succ_le_of_lt less]
        · have behind : ¬ found + 1 ≤ place := by omega
          simp [isPlace, ahead, behind]

/-- Between two turns of a member without another one in between, every other member that is
still available at the second has had exactly one turn. -/
theorem Rotation.fair {count start : Nat} {before middle after : List Turn} {first second : Turn}
    (rotation : Rotation count start (before ++ first :: (middle ++ second :: after)))
    {chosen other : Nat} (firstChosen : first.chosen = some chosen)
    (secondChosen : second.chosen = some chosen)
    (consecutive : ∀ turn ∈ middle, turn.chosen ≠ some chosen)
    (within : other < count) (different : other ≠ chosen) (available : second.available other) :
    timesChosen other middle = 1 := by
  rcases rotation.of_append with ⟨start, rotation⟩
  rcases rotation.uncons (by simp) with ⟨found, isFound, _, _, next⟩
  have same : found = chosen := Option.some.inj (isFound.symm.trans firstChosen)
  subst same
  have foundLt := (rotation.chosen_available List.mem_cons_self isFound).2
  rcases circle_place (found + 1) within with ⟨place, placeLt, rfl⟩
  have around : (found + 1 + (count - 1)) % count = found := by
    have whole : found + 1 + (count - 1) = found + count := by omega
    rw [whole, Nat.add_mod_right, Nat.mod_eq_of_lt foundLt]
  have notLast : place ≠ count - 1 := by
    intro isLast
    rw [isLast] at different
    exact different around
  have counted := Rotation.timesChosen_eq (found + 1) 0 next (by omega)
    (by omega) (by rw [around]; exact secondChosen) (by rw [around]; exact consecutive) available
  rw [counted, if_pos (Nat.zero_le _)]

end DataStructAlgorithm.Foundation
