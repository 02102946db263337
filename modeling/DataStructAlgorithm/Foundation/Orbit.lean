import Mathlib.Data.Int.GCD
import Mathlib.Logic.Function.Iterate
import DataStructAlgorithm.Foundation.Outcome

/-! # Loops along an orbit

A loop whose passes can lead from a state to one other state only runs along the orbit
of a function. It ends at the first state of the orbit where a pass leaves it. -/

namespace DataStructAlgorithm.Foundation

variable {State Result : Type} {body : State → Outcome (Pass State Result)}
  {next : State → State}

/-- A pass that goes round again leads to the next state. -/
def Advances (body : State → Outcome (Pass State Result)) (next : State → State) : Prop :=
  ∀ state after, body state = .ok (.again after) → after = next state

/-- The first passes of a loop all go round again. -/
def Passes (body : State → Outcome (Pass State Result)) (next : State → State) (count : Nat)
    (state : State) : Prop :=
  ∀ earlier < count, body (next^[earlier] state) = .ok (.again (next^[earlier + 1] state))

theorem passes_succ {count : Nat} {state : State} :
    Passes body next (count + 1) state ↔
      body state = .ok (.again (next state)) ∧ Passes body next count (next state) := by
  constructor
  · intro passes
    exact ⟨passes 0 (Nat.succ_pos _), fun earlier less => passes (earlier + 1) (by omega)⟩
  · rintro ⟨first, others⟩ earlier less
    rcases earlier with _ | earlier
    · exact first
    · exact others earlier (by omega)

/-- A loop returns exactly when some pass leaves it and all passes before go round. -/
theorem repeatLoop_eq_ok_iff (advances : Advances body next) (fuel : Nat) (state : State)
    (result : Result) :
    repeatLoop body fuel state = .ok result ↔
      ∃ count < fuel, Passes body next count state ∧
        body (next^[count] state) = .ok (.leave result) := by
  induction fuel generalizing state with
  | zero =>
      refine iff_of_false nofun ?_
      rintro ⟨count, less, _⟩
      omega
  | succ fuel induction =>
      cases pass : body state with
      | error fault =>
          refine iff_of_false (by simp [repeatLoop, pass]) ?_
          rintro ⟨count, _, passes, leaves⟩
          rcases count with _ | count
          · rw [Function.iterate_zero, id_eq, pass] at leaves
            cases leaves
          · have first := (passes_succ.mp passes).1
            rw [pass] at first
            cases first
      | ok ended =>
          cases ended with
          | again after =>
              have isNext := advances state after pass
              subst isNext
              rw [repeatLoop_again _ pass, induction]
              constructor
              · rintro ⟨count, less, passes, leaves⟩
                exact ⟨count + 1, by omega, passes_succ.mpr ⟨pass, passes⟩, leaves⟩
              · rintro ⟨count, less, passes, leaves⟩
                rcases count with _ | count
                · rw [Function.iterate_zero, id_eq, pass] at leaves
                  cases leaves
                · exact ⟨count, by omega, (passes_succ.mp passes).2, leaves⟩
          | leave final =>
              rw [repeatLoop_leave _ pass]
              constructor
              · intro returned
                cases returned
                exact ⟨0, Nat.succ_pos _, fun earlier less => by omega, pass⟩
              · rintro ⟨count, less, passes, leaves⟩
                rcases count with _ | count
                · rw [Function.iterate_zero, id_eq, pass] at leaves
                  cases leaves
                  rfl
                · have first := (passes_succ.mp passes).1
                  rw [pass] at first
                  cases first

/-- A condition holds at the begin of every pass exactly when it holds at every state of
the orbit that the loop comes to. -/
theorem everyPass_iff (advances : Advances body next) (holds : State → Prop) (state : State) :
    (∀ fuel, EveryPass body holds fuel state) ↔
      ∀ count, Passes body next count state → holds (next^[count] state) := by
  constructor
  · intro every count passes
    induction count generalizing state with
    | zero => exact (every 1).1
    | succ count induction =>
        rcases passes_succ.mp passes with ⟨first, others⟩
        exact induction (next state) (fun fuel => (every (fuel + 1)).2 _ first) others
  · intro along fuel
    induction fuel generalizing state with
    | zero => trivial
    | succ fuel induction =>
        refine ⟨along 0 fun earlier less => by omega, fun after pass => ?_⟩
        have isNext := advances state after pass
        subst isNext
        exact induction (next state) fun count passes =>
          along (count + 1) (passes_succ.mpr ⟨pass, passes⟩)

/-- A loop comes to any state of the orbit, or one of the passes before does not go round. -/
theorem passes_or_first (advances : Advances body next) (count : Nat) (state : State) :
    Passes body next count state ∨ ∃ first < count, Passes body next first state ∧
      ∀ after, body (next^[first] state) ≠ .ok (.again after) := by
  induction count with
  | zero => exact Or.inl fun earlier less => by omega
  | succ count induction =>
      rcases induction with passes | ⟨first, less, passes, stops⟩
      · by_cases goes : body (next^[count] state) = .ok (.again (next^[count + 1] state))
        · left
          intro earlier less
          rcases Nat.lt_succ_iff_lt_or_eq.mp less with before | last
          · exact passes earlier before
          · rw [last]
            exact goes
        · refine Or.inr ⟨count, Nat.lt_succ_self _, passes, fun after pass => goes ?_⟩
          have isNext := advances _ after pass
          rw [pass, isNext, Function.iterate_succ_apply']
      · exact Or.inr ⟨first, by omega, passes, stops⟩

/-- A pass that can neither fail nor repeat its state leaves the loop or goes round. -/
theorem repeatLoop_terminates_iff (advances : Advances body next)
    (safe : ∀ state fault, body state ≠ .error fault) (state : State) :
    (∃ fuel result, repeatLoop body fuel state = .ok result) ↔
      ∃ count, ∀ after, body (next^[count] state) ≠ .ok (.again after) := by
  constructor
  · rintro ⟨fuel, result, returned⟩
    rcases (repeatLoop_eq_ok_iff advances fuel state result).mp returned with
      ⟨count, _, _, leaves⟩
    refine ⟨count, fun after again => ?_⟩
    rw [leaves] at again
    cases again
  · rintro ⟨count, stops⟩
    have reached : ∃ first, Passes body next first state ∧
        ∀ after, body (next^[first] state) ≠ .ok (.again after) := by
      rcases passes_or_first advances count state with passes | ⟨first, _, passes, stopped⟩
      · exact ⟨count, passes, stops⟩
      · exact ⟨first, passes, stopped⟩
    rcases reached with ⟨first, passes, stopped⟩
    cases pass : body (next^[first] state) with
    | error fault => exact absurd pass (safe _ fault)
    | ok ended =>
        cases ended with
        | again after => exact absurd pass (stopped after)
        | leave result =>
            exact ⟨first + 1, result, (repeatLoop_eq_ok_iff advances _ state result).mpr
              ⟨first, Nat.lt_succ_self _, passes, pass⟩⟩

/-! ## Positions modulo a size -/

section Positions

variable {position : State → Nat} {size stride : Nat} {kept : State → Prop}

theorem iterate_kept (keeps : ∀ state, kept state → kept (next state)) (count : Nat)
    (start : State) (begins : kept start) : kept (next^[count] start) := by
  induction count with
  | zero => exact begins
  | succ count induction =>
      rw [Function.iterate_succ_apply']
      exact keeps _ induction

theorem position_iterate (keeps : ∀ state, kept state → kept (next state))
    (moves : ∀ state, kept state → position (next state) % size = (position state + stride) % size)
    (count : Nat) (start : State) (begins : kept start) :
    position (next^[count] start) % size = (position start + stride * count) % size := by
  induction count with
  | zero => rfl
  | succ count induction =>
      rw [Function.iterate_succ_apply', moves _ (iterate_kept keeps count start begins),
        Nat.add_mod, induction, ← Nat.add_mod, Nat.mul_succ, Nat.add_assoc]

/-- An orbit that moves on by a stride coprime to the size comes to every position. -/
theorem iterate_reaches (position : State → Nat)
    (keeps : ∀ state, kept state → kept (next state))
    (moves : ∀ state, kept state → position (next state) % size = (position state + stride) % size)
    (coprime : Nat.Coprime stride size) (start : State) (begins : kept start) {target : Nat}
    (within : target < size) : ∃ count, position (next^[count] start) % size = target := by
  have nonempty : size ≠ 0 := Nat.ne_of_gt (Nat.lt_of_le_of_lt (Nat.zero_le _) within)
  -- The way from the start to the target, counted forwards.
  have way : ∃ distance, (position start + distance) % size = target := by
    refine ⟨target + (size - position start % size), ?_⟩
    have low := Nat.mod_lt (position start) (Nat.pos_of_ne_zero nonempty)
    have whole : position start + (target + (size - position start % size)) =
        target + size * (position start / size + 1) := by
      have split := Nat.mod_add_div (position start) size
      rw [Nat.mul_succ]
      omega
    rw [whole, Nat.add_mul_mod_self_left, Nat.mod_eq_of_lt within]
  rcases way with ⟨distance, arrives⟩
  rcases Nat.exists_mul_mod_eq_of_coprime distance coprime nonempty with ⟨count, _, same⟩
  refine ⟨count, ?_⟩
  rw [position_iterate keeps moves count start begins, Nat.add_mod, same, ← Nat.add_mod, arrives]

end Positions

end DataStructAlgorithm.Foundation
