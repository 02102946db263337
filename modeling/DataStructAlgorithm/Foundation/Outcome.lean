/-! Results of imperative code, and its loops.

A computation either yields a value or stops on a `Fault`. Loops are run with
an explicit amount of fuel, so that they are executable and total; running out
of fuel is a fault of its own, hence a result `.ok` always reports a loop that
has really ended. -/

namespace DataStructAlgorithm.Foundation

/-- The ways in which a modelled computation can fail to return. -/
inductive Fault
  | nullPointer
  | danglingPointer
  | outOfRange
  | assertion
  | divisionByZero
  | outOfFuel
  deriving DecidableEq, Repr

abbrev Outcome := Except Fault

namespace Outcome

@[simp] theorem ok_bind (value : α) (next : α → Outcome β) :
    ((Except.ok value : Outcome α) >>= next) = next value := rfl

@[simp] theorem pure_bind' (value : α) (next : α → Outcome β) :
    ((pure value : Outcome α) >>= next) = next value := rfl

@[simp] theorem error_bind (fault : Fault) (next : α → Outcome β) :
    ((Except.error fault : Outcome α) >>= next) = .error fault := rfl

@[simp] theorem pure_eq_ok (value : α) :
    (pure value : Outcome α) = .ok value := rfl

/-- A sequence that returns a value has a first part that returned one. -/
theorem bind_eq_ok {first : Outcome α} {next : α → Outcome β} {result : β}
    (returned : (first >>= next) = .ok result) :
    ∃ middle, first = .ok middle ∧ next middle = .ok result := by
  cases first with
  | error fault => cases returned
  | ok middle => exact ⟨middle, rfl, returned⟩

/-- A sequence that fails does so in its first part or in the rest. -/
theorem bind_eq_error {first : Outcome α} {next : α → Outcome β} {fault : Fault}
    (failed : (first >>= next) = .error fault) :
    first = .error fault ∨ ∃ middle, first = .ok middle ∧ next middle = .error fault := by
  cases first with
  | error other =>
      cases failed
      exact Or.inl rfl
  | ok middle => exact Or.inr ⟨middle, rfl, failed⟩

instance (result : Outcome α) (fault : Fault) : Decidable (result = .error fault) :=
  match result with
  | .ok _ => isFalse nofun
  | .error other => decidable_of_iff (other = fault) ⟨congrArg _, Except.error.inj⟩

instance [DecidableEq α] (result : Outcome α) (value : α) : Decidable (result = .ok value) :=
  match result with
  | .ok other => decidable_of_iff (other = value) ⟨congrArg _, Except.ok.inj⟩
  | .error _ => isFalse nofun

end Outcome

/-- How one pass through a loop body ends: the loop goes round again, or it is
left by its condition, a `break` or a `return`. -/
inductive Pass (State Result : Type u) : Type u
  | again (state : State)
  | leave (result : Result)

/-- Repeat a loop body, at most `fuel` times. -/
def repeatLoop {State Result : Type u} (body : State → Outcome (Pass State Result)) :
    (fuel : Nat) → State → Outcome Result
  | 0, _ => .error .outOfFuel
  | fuel + 1, state =>
      match body state with
      | .error fault => .error fault
      | .ok (.again next) => repeatLoop body fuel next
      | .ok (.leave result) => .ok result

section Loops

variable {State Result : Type u} {body : State → Outcome (Pass State Result)}

@[simp] theorem repeatLoop_zero (state : State) :
    repeatLoop body 0 state = .error .outOfFuel := rfl

theorem repeatLoop_again {state next : State} (fuel : Nat)
    (pass : body state = .ok (.again next)) :
    repeatLoop body (fuel + 1) state = repeatLoop body fuel next := by
  simp [repeatLoop, pass]

theorem repeatLoop_leave {state : State} {result : Result} (fuel : Nat)
    (pass : body state = .ok (.leave result)) :
    repeatLoop body (fuel + 1) state = .ok result := by
  simp [repeatLoop, pass]

theorem repeatLoop_error {state : State} {fault : Fault} (fuel : Nat)
    (pass : body state = .error fault) : repeatLoop body (fuel + 1) state = .error fault := by
  simp [repeatLoop, pass]

/-- More fuel does not change a result. -/
theorem repeatLoop_mono {fuel more : Nat} {state : State} {result : Result}
    (returned : repeatLoop body fuel state = .ok result) (enough : fuel ≤ more) :
    repeatLoop body more state = .ok result := by
  induction fuel generalizing state more with
  | zero => cases returned
  | succ fuel induction =>
      have positive : ∃ rest, more = rest + 1 := ⟨more - 1, by omega⟩
      rcases positive with ⟨more, rfl⟩
      cases pass : body state with
      | error fault => simp [repeatLoop, pass] at returned
      | ok ended =>
          cases ended with
          | again next =>
              rw [repeatLoop_again _ pass] at returned ⊢
              exact induction returned (by omega)
          | leave result =>
              rw [repeatLoop_leave _ pass] at returned ⊢
              exact returned

/-- The fuel does not matter to what a loop returns. -/
theorem repeatLoop_unique {fuel otherFuel : Nat} {state : State} {result other : Result}
    (returned : repeatLoop body fuel state = .ok result)
    (otherReturned : repeatLoop body otherFuel state = .ok other) : result = other := by
  have first := repeatLoop_mono returned (Nat.le_max_left fuel otherFuel)
  have second := repeatLoop_mono otherReturned (Nat.le_max_right fuel otherFuel)
  exact Except.ok.inj (first.symm.trans second)

/-- Two bodies that agree on an invariant make the same loop. -/
theorem repeatLoop_congr {other : State → Outcome (Pass State Result)} (invariant : State → Prop)
    (same : ∀ state, invariant state → body state = other state)
    (again : ∀ state next, invariant state → other state = .ok (.again next) → invariant next) :
    ∀ fuel state, invariant state → repeatLoop body fuel state = repeatLoop other fuel state := by
  intro fuel
  induction fuel with
  | zero => intro state _; rfl
  | succ fuel induction =>
      intro state kept
      have pass := same state kept
      cases otherPass : other state with
      | error fault => rw [repeatLoop_error _ (pass.trans otherPass), repeatLoop_error _ otherPass]
      | ok ended =>
          cases ended with
          | again next =>
              rw [repeatLoop_again _ (pass.trans otherPass), repeatLoop_again _ otherPass]
              exact induction next (again state next kept otherPass)
          | leave result =>
              rw [repeatLoop_leave _ (pass.trans otherPass), repeatLoop_leave _ otherPass]

/-- From a state the loop goes on as from a later one, after some passes. -/
def Reaches (body : State → Outcome (Pass State Result)) (passes : Nat) (state later : State) :
    Prop :=
  ∀ fuel, repeatLoop body (fuel + passes) state = repeatLoop body fuel later

namespace Reaches

theorem refl (state : State) : Reaches body 0 state state := fun _ => rfl

theorem trans {first second : Nat} {state middle later : State}
    (early : Reaches body first state middle) (late : Reaches body second middle later) :
    Reaches body (first + second) state later := by
  intro fuel
  rw [Nat.add_comm first, ← Nat.add_assoc, early, late]

theorem pass {state next : State} (again : body state = .ok (.again next)) :
    Reaches body 1 state next :=
  fun fuel => repeatLoop_again fuel again

/-- A state from which the first pass does the same. -/
theorem congr {passes : Nat} {state other later : State} (same : body state = body other)
    (reaches : Reaches body (passes + 1) other later) : Reaches body (passes + 1) state later := by
  intro fuel
  rw [← reaches fuel, ← Nat.add_assoc, repeatLoop, repeatLoop, same]

theorem leave {passes fuel : Nat} {state later : State} {result : Result}
    (reaches : Reaches body passes state later) (left : body later = .ok (.leave result))
    (enough : passes < fuel) : repeatLoop body fuel state = .ok result := by
  have split : fuel = (fuel - passes - 1 + 1) + passes := by omega
  rw [split, reaches, repeatLoop_leave _ left]

end Reaches

/-- After a pass the fuel that was there before it is enough, too. -/
theorem repeatLoop_next {fuel : Nat} {state next : State} {result : Result}
    (pass : body state = .ok (.again next)) (returned : repeatLoop body fuel state = .ok result) :
    repeatLoop body fuel next = .ok result := by
  cases fuel with
  | zero => cases returned
  | succ fuel =>
      rw [repeatLoop_again fuel pass] at returned
      exact repeatLoop_mono returned (Nat.le_succ fuel)

/-- Passes that come first do not change what a loop can return. -/
theorem repeatLoop_returns_iff {state later : State} {passes : Nat}
    (reaches : ∀ fuel, repeatLoop body (fuel + passes) state = repeatLoop body fuel later)
    (result : Result) :
    (∃ fuel, repeatLoop body fuel state = .ok result) ↔
      ∃ fuel, repeatLoop body fuel later = .ok result := by
  constructor
  · rintro ⟨fuel, returned⟩
    exact ⟨fuel, by rw [← reaches]; exact repeatLoop_mono returned (Nat.le_add_right _ _)⟩
  · rintro ⟨fuel, returned⟩
    exact ⟨fuel + passes, by rw [reaches]; exact returned⟩

theorem repeatLoop_leave_iff {state : State} {final : Result}
    (pass : body state = .ok (.leave final)) (result : Result) :
    (∃ fuel, repeatLoop body fuel state = .ok result) ↔ result = final := by
  constructor
  · rintro ⟨fuel, returned⟩
    cases fuel with
    | zero => cases returned
    | succ fuel =>
        rw [repeatLoop_leave _ pass] at returned
        cases returned
        rfl
  · rintro rfl
    exact ⟨1, repeatLoop_leave 0 pass⟩

/-- A loop that goes round again from every state of an invariant does not end. -/
theorem repeatLoop_endless (invariant : State → Prop)
    (again : ∀ state, invariant state → ∃ next, body state = .ok (.again next) ∧ invariant next)
    (fuel : Nat) (state : State) (start : invariant state) :
    repeatLoop body fuel state = .error .outOfFuel := by
  induction fuel generalizing state with
  | zero => rfl
  | succ fuel induction =>
      rcases again state start with ⟨next, pass, kept⟩
      rw [repeatLoop_again _ pass]
      exact induction next kept

/-- A loop whose passes get nearer to an end does not run for ever. -/
theorem repeatLoop_ends (invariant : Nat → State → Prop)
    (step : ∀ bound state, invariant bound state → body state ≠ .error .outOfFuel ∧
      ∀ next, body state = .ok (.again next) → ∃ smaller < bound, invariant smaller next) :
    ∀ fuel bound state, invariant bound state → bound < fuel →
      repeatLoop body fuel state ≠ .error .outOfFuel := by
  intro fuel
  induction fuel with
  | zero => intro bound state _ enough; omega
  | succ fuel induction =>
      intro bound state kept enough
      rcases step bound state kept with ⟨noFault, nearer⟩
      cases pass : body state with
      | error fault =>
          rw [repeatLoop_error _ pass]
          intro isFuel
          cases isFuel
          exact noFault pass
      | ok ended =>
          cases ended with
          | again next =>
              rcases nearer next pass with ⟨smaller, less, nextKept⟩
              rw [repeatLoop_again _ pass]
              exact induction smaller next nextKept (by omega)
          | leave result =>
              rw [repeatLoop_leave _ pass]
              exact nofun

/-- A condition holds in every state that a loop begins a pass in. -/
def EveryPass (body : State → Outcome (Pass State Result)) (holds : State → Prop) :
    (fuel : Nat) → State → Prop
  | 0, _ => True
  | fuel + 1, state =>
      holds state ∧ ∀ next, body state = .ok (.again next) → EveryPass body holds fuel next

instance EveryPass.decidable (holds : State → Prop) [DecidablePred holds] :
    (fuel : Nat) → (state : State) → Decidable (EveryPass body holds fuel state)
  | 0, _ => isTrue trivial
  | fuel + 1, state =>
      match pass : body state with
      | .ok (.again next) =>
          have := EveryPass.decidable holds fuel next
          decidable_of_iff (holds state ∧ EveryPass body holds fuel next)
            (and_congr_right fun _ => ⟨fun later other otherPass => by
              rw [pass] at otherPass
              cases otherPass
              exact later, fun later => later next pass⟩)
      | .ok (.leave result) =>
          decidable_of_iff (holds state) ⟨fun now => ⟨now, fun other otherPass => by
            rw [pass] at otherPass
            cases otherPass⟩, And.left⟩
      | .error fault =>
          decidable_of_iff (holds state) ⟨fun now => ⟨now, fun other otherPass => by
            rw [pass] at otherPass
            cases otherPass⟩, And.left⟩

theorem everyPass_of_always {holds : State → Prop} (always : ∀ state, holds state) (fuel : Nat)
    (state : State) : EveryPass body holds fuel state := by
  induction fuel generalizing state with
  | zero => trivial
  | succ fuel induction => exact ⟨always state, fun next _ => induction next⟩

theorem repeatLoop_body {fuel : Nat} {state : State} {result : Result}
    (returned : repeatLoop body fuel state = .ok result) : ∃ ended, body state = .ok ended := by
  cases fuel with
  | zero => cases returned
  | succ fuel =>
      cases pass : body state with
      | error fault => simp [repeatLoop, pass] at returned
      | ok ended => exact ⟨ended, rfl⟩

/-- What must hold of every state from which a loop returns a good result. -/
theorem everyPass_of_returned (invariant holds : State → Prop) (good : Result → Prop)
    (again : ∀ state next, invariant state → body state = .ok (.again next) → invariant next)
    (needed : ∀ fuel state result, invariant state → repeatLoop body fuel state = .ok result →
      good result → holds state) :
    ∀ fuel state result, invariant state → repeatLoop body fuel state = .ok result →
      good result → EveryPass body holds fuel state := by
  intro fuel
  induction fuel with
  | zero => intro state result _ _ _; trivial
  | succ fuel induction =>
      intro state result kept returned wanted
      refine ⟨needed (fuel + 1) state result kept returned wanted, ?_⟩
      intro next pass
      rw [repeatLoop_again _ pass] at returned
      exact induction next result (again state next kept pass) returned wanted

/-- The rule for a loop that is total as long as its states meet a condition. -/
theorem repeatLoop_total_every (holds : State → Prop) (invariant : Nat → State → Prop)
    (post : Result → Prop)
    (step : ∀ bound state, invariant bound state → holds state →
      (∃ next smaller, body state = .ok (.again next) ∧ smaller < bound ∧
        invariant smaller next) ∨
      (∃ result, body state = .ok (.leave result) ∧ post result)) :
    ∀ fuel bound state, invariant bound state → bound < fuel →
      EveryPass body holds fuel state →
      ∃ result, repeatLoop body fuel state = .ok result ∧ post result := by
  intro fuel
  induction fuel with
  | zero => intro bound state _ enough; omega
  | succ fuel induction =>
      intro bound state kept enough every
      rcases step bound state kept every.1 with
        ⟨next, smaller, pass, less, nextKept⟩ | ⟨result, pass, done⟩
      · rw [repeatLoop_again _ pass]
        exact induction smaller next nextKept (by omega) (every.2 next pass)
      · exact ⟨result, repeatLoop_leave _ pass, done⟩

/-- The rule for what a loop leaves as long as its states meet a condition. -/
theorem repeatLoop_partial_every (holds invariant : State → Prop) (post : Result → Prop)
    (again : ∀ state next, invariant state → holds state → body state = .ok (.again next) →
      invariant next)
    (leave : ∀ state result, invariant state → holds state → body state = .ok (.leave result) →
      post result) :
    ∀ fuel state result, invariant state → EveryPass body holds fuel state →
      repeatLoop body fuel state = .ok result → post result := by
  intro fuel
  induction fuel with
  | zero => intro state result _ _ returned; cases returned
  | succ fuel induction =>
      intro state result kept every returned
      cases pass : body state with
      | error fault => simp [repeatLoop, pass] at returned
      | ok ended =>
          cases ended with
          | again next =>
              rw [repeatLoop_again _ pass] at returned
              exact induction next result (again state next kept every.1 pass) (every.2 next pass)
                returned
          | leave final =>
              rw [repeatLoop_leave _ pass] at returned
              cases returned
              exact leave state result kept every.1 pass

/-- The rule for total correctness. The invariant speaks about a bound on the
passes that are left; each pass either goes round again with the invariant at a
smaller bound, or leaves the loop with the postcondition established. -/
theorem repeatLoop_total (invariant : Nat → State → Prop) (post : Result → Prop)
    (step : ∀ bound state, invariant bound state →
      (∃ next smaller, body state = .ok (.again next) ∧ smaller < bound ∧
        invariant smaller next) ∨
      (∃ result, body state = .ok (.leave result) ∧ post result)) :
    ∀ fuel bound state, invariant bound state → bound < fuel →
      ∃ result, repeatLoop body fuel state = .ok result ∧ post result := by
  intro fuel bound state kept enough
  exact repeatLoop_total_every (fun _ => True) invariant post
    (fun bound state kept _ => step bound state kept) fuel bound state kept enough
    (everyPass_of_always (fun _ => trivial) fuel state)

/-- The rule for partial correctness. -/
theorem repeatLoop_partial (invariant : State → Prop) (post : Result → Prop)
    (again : ∀ state next, invariant state → body state = .ok (.again next) → invariant next)
    (leave : ∀ state result, invariant state → body state = .ok (.leave result) → post result) :
    ∀ fuel state result, invariant state → repeatLoop body fuel state = .ok result →
      post result := by
  intro fuel state result kept returned
  exact repeatLoop_partial_every (fun _ => True) invariant post
    (fun state next kept _ => again state next kept)
    (fun state result kept _ => leave state result kept) fuel state result kept
    (everyPass_of_always (fun _ => trivial) fuel state) returned

end Loops

end DataStructAlgorithm.Foundation
