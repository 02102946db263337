import DataStructAlgorithm.Foundation.Outcome

/-! # Runs of a transition system

A step takes an action, which it may refuse, and reports an event. A run is a list
of actions that are taken one after the other. -/

namespace DataStructAlgorithm.Foundation

/-! ## Steps that may be refused -/

section Refusals

variable {State Action Event : Type}

def runSteps (step : State → Action → Option (State × Event)) :
    State → List Action → Option (State × List Event)
  | state, [] => some (state, [])
  | state, action :: rest => do
      let (state, event) ← step state action
      let (state, events) ← runSteps step state rest
      pure (state, event :: events)

variable {step : State → Action → Option (State × Event)}

theorem runSteps_cons {state final : State} {action : Action} {rest : List Action}
    {log : List Event} (ran : runSteps step state (action :: rest) = some (final, log)) :
    ∃ middle event events, step state action = some (middle, event) ∧
      runSteps step middle rest = some (final, events) ∧ log = event :: events := by
  cases stepped : step state action with
  | none => simp [runSteps, stepped] at ran
  | some result =>
      cases others : runSteps step result.1 rest with
      | none => simp [runSteps, stepped, others] at ran
      | some last =>
          simp only [runSteps, stepped, others, Option.bind_eq_bind, Option.bind_some,
            Option.pure_def, Option.some.injEq, Prod.mk.injEq] at ran
          exact ⟨result.1, result.2, last.2, rfl, by rw [others, ← ran.1], ran.2.symm⟩

/-- What every step keeps between the past events and the state, a run keeps. -/
theorem runSteps_induction (holds : List Event → State → Prop)
    (keeps : ∀ past state action after event, holds past state →
      step state action = some (after, event) → holds (past ++ [event]) after)
    (actions : List Action) (past : List Event) (state final : State) (log : List Event)
    (start : holds past state) (ran : runSteps step state actions = some (final, log)) :
    holds (past ++ log) final := by
  induction actions generalizing past state log with
  | nil =>
      cases ran
      rw [List.append_nil]
      exact start
  | cons action rest induction =>
      rcases runSteps_cons ran with ⟨middle, event, events, stepped, others, rfl⟩
      have next := induction (past ++ [event]) middle events
        (keeps past state action middle event start stepped) others
      rw [List.append_assoc] at next
      exact next

/-- Every action of a run meets a condition in the state that it is taken in. -/
def EveryTaken (step : State → Action → Option (State × Event)) (holds : State → Action → Prop) :
    State → List Action → Prop
  | _, [] => True
  | state, action :: rest => holds state action ∧
      ∀ after event, step state action = some (after, event) → EveryTaken step holds after rest

instance EveryTaken.decidable {holds : State → Action → Prop}
    [∀ state action, Decidable (holds state action)] :
    (state : State) → (actions : List Action) → Decidable (EveryTaken step holds state actions)
  | _, [] => isTrue trivial
  | state, action :: rest =>
      match taken : step state action with
      | some (after, event) =>
          have : Decidable (EveryTaken step holds after rest) := EveryTaken.decidable after rest
          decidable_of_iff (holds state action ∧ EveryTaken step holds after rest)
            (and_congr_right fun _ => ⟨fun later other otherEvent otherTaken => by
              rw [taken] at otherTaken
              cases otherTaken
              exact later, fun later => later after event taken⟩)
      | none =>
          decidable_of_iff (holds state action) ⟨fun now => ⟨now, fun other event otherTaken => by
            rw [taken] at otherTaken
            cases otherTaken⟩, And.left⟩

/-- What every step that meets a condition keeps between the past events and the state is
kept by a run whose steps all meet it. -/
theorem EveryTaken.induction {allowed : State → Action → Prop}
    (holds : List Event → State → Prop)
    (keeps : ∀ past state action after event, holds past state → allowed state action →
      step state action = some (after, event) → holds (past ++ [event]) after)
    (actions : List Action) (past : List Event) (state final : State) (log : List Event)
    (every : EveryTaken step allowed state actions) (start : holds past state)
    (ran : runSteps step state actions = some (final, log)) : holds (past ++ log) final := by
  induction actions generalizing past state log with
  | nil =>
      cases ran
      rw [List.append_nil]
      exact start
  | cons action rest induction =>
      rcases runSteps_cons ran with ⟨middle, event, events, stepped, others, rfl⟩
      have next := induction (past ++ [event]) middle events (every.2 middle event stepped)
        (keeps past state action middle event start every.1 stepped) others
      rw [List.append_assoc] at next
      exact next

/-- A quantity that every step lowers bounds the length of a run. -/
theorem runSteps_bounded (work : State → Nat) (invariant : State → Prop)
    (allowed : Action → Prop)
    (lowers : ∀ state action after event, invariant state → allowed action →
      step state action = some (after, event) → invariant after ∧ work after < work state)
    (actions : List Action) (permitted : ∀ action ∈ actions, allowed action)
    (state final : State) (log : List Event) (start : invariant state)
    (ran : runSteps step state actions = some (final, log)) :
    actions.length + work final ≤ work state := by
  induction actions generalizing state log with
  | nil =>
      cases ran
      simp
  | cons action rest induction =>
      rcases runSteps_cons ran with ⟨middle, event, events, stepped, others, _⟩
      rcases lowers state action middle event start (permitted action (by simp)) stepped with
        ⟨keeps, less⟩
      have bounded := induction (fun other member => permitted other (by simp [member])) middle
        events keeps others
      rw [List.length_cons]
      omega

/-- No action can be taken. -/
def AtRest (step : State → Action → Option (State × Event)) (state : State) : Prop :=
  ∀ action, step state action = none

/-- Where every step lowers a quantity, every state has a run to a state of rest. -/
theorem exists_atRest (work : State → Nat)
    (lowers : ∀ state action after event, step state action = some (after, event) →
      work after < work state) (state : State) :
    ∃ actions final log, runSteps step state actions = some (final, log) ∧ AtRest step final := by
  induction size : work state using Nat.strongRecOn generalizing state with
  | ind size induction =>
      by_cases still : AtRest step state
      · exact ⟨[], state, [], rfl, still⟩
      · rcases Classical.not_forall.mp still with ⟨action, taken⟩
        rcases Option.ne_none_iff_exists'.mp taken with ⟨⟨after, event⟩, stepped⟩
        have less := lowers state action after event stepped
        rcases induction (work after) (by omega) after rfl with ⟨rest, final, log, ran, finalStill⟩
        refine ⟨action :: rest, final, event :: log, ?_, finalStill⟩
        rw [runSteps, stepped]
        simp only [Option.bind_eq_bind, Option.bind_some, ran, Option.pure_def]

theorem runSteps_append {state middle final : State} {first second : List Action}
    {log events : List Event} (ran : runSteps step state first = some (middle, log))
    (more : runSteps step middle second = some (final, events)) :
    runSteps step state (first ++ second) = some (final, log ++ events) := by
  induction first generalizing state log with
  | nil =>
      cases ran
      exact more
  | cons action rest induction =>
      rcases runSteps_cons ran with ⟨after, event, others, stepped, ranRest, rfl⟩
      rw [List.cons_append, runSteps, stepped]
      simp only [Option.bind_eq_bind, Option.bind_some, induction ranRest, Option.pure_def,
        List.cons_append]

end Refusals

/-! ## Steps that may be faults -/

section Faults

variable {State Action : Type}

def runAll (step : State → Action → Outcome State) : State → List Action → Outcome State
  | state, [] => .ok state
  | state, action :: rest => do
      let state ← step state action
      runAll step state rest

/-- Every action of a run meets a condition in the state that it is taken in. -/
def EveryStep (step : State → Action → Outcome State) (holds : State → Action → Prop) :
    State → List Action → Prop
  | _, [] => True
  | state, action :: rest => holds state action ∧
      ∀ after, step state action = .ok after → EveryStep step holds after rest

variable {step : State → Action → Outcome State} {holds : State → Action → Prop}

instance EveryStep.decidable [∀ state action, Decidable (holds state action)] :
    (state : State) → (actions : List Action) → Decidable (EveryStep step holds state actions)
  | _, [] => isTrue trivial
  | state, action :: rest =>
      match taken : step state action with
      | .ok after =>
          have := EveryStep.decidable after rest
          decidable_of_iff (holds state action ∧ EveryStep step holds after rest)
            (and_congr_right fun _ => ⟨fun later other otherTaken => by
              rw [taken] at otherTaken
              cases otherTaken
              exact later, fun later => later after taken⟩)
      | .error fault =>
          decidable_of_iff (holds state action) ⟨fun now => ⟨now, fun other otherTaken => by
            rw [taken] at otherTaken
            cases otherTaken⟩, And.left⟩

theorem EveryStep.cons {state after : State} {action : Action} {rest : List Action}
    (taken : step state action = .ok after) (now : holds state action)
    (later : EveryStep step holds after rest) : EveryStep step holds state (action :: rest) := by
  refine ⟨now, fun other otherTaken => ?_⟩
  rw [taken] at otherTaken
  cases otherTaken
  exact later

theorem EveryStep.and {other : State → Action → Prop} {state : State} {actions : List Action}
    (first : EveryStep step holds state actions) (second : EveryStep step other state actions) :
    EveryStep step (fun state action => holds state action ∧ other state action) state
      actions := by
  induction actions generalizing state with
  | nil => trivial
  | cons action rest induction =>
      refine ⟨⟨first.1, second.1⟩, fun after taken => ?_⟩
      exact induction (first.2 after taken) (second.2 after taken)

/-- A run whose steps all succeed and keep an invariant. -/
theorem runAll_total (invariant : State → Prop)
    (keeps : ∀ state action, invariant state → holds state action →
      ∃ after, step state action = .ok after ∧ invariant after)
    (actions : List Action) (state : State) (start : invariant state)
    (every : EveryStep step holds state actions) :
    ∃ final, runAll step state actions = .ok final ∧ invariant final := by
  induction actions generalizing state with
  | nil => exact ⟨state, rfl, start⟩
  | cons action rest induction =>
      rcases keeps state action start every.1 with ⟨after, taken, next⟩
      rw [runAll, taken, Outcome.ok_bind]
      exact induction after next (every.2 after taken)

/-- What every successful step keeps is kept by a run. -/
theorem runAll_keeps (invariant : State → Prop)
    (keeps : ∀ state action after, invariant state → holds state action →
      step state action = .ok after → invariant after)
    (actions : List Action) (state final : State) (start : invariant state)
    (every : EveryStep step holds state actions) (run : runAll step state actions = .ok final) :
    invariant final := by
  induction actions generalizing state with
  | nil =>
      cases run
      exact start
  | cons action rest induction =>
      rcases Outcome.bind_eq_ok run with ⟨after, taken, others⟩
      exact induction after (keeps state action after start every.1 taken)
        (every.2 after taken) others

theorem runAll_congr {other : State → Action → Outcome State} {actions : List Action}
    (same : ∀ state, ∀ action ∈ actions, step state action = other state action)
    (state : State) : runAll step state actions = runAll other state actions := by
  induction actions generalizing state with
  | nil => rfl
  | cons first rest induction =>
      have rests := induction fun state action member =>
        same state action (List.mem_cons_of_mem first member)
      rw [runAll, runAll, same state first List.mem_cons_self]
      apply congrArg
      funext after
      exact rests after

/-- Every action of a run that succeeds is taken in some state. -/
theorem runAll_taken {actions : List Action} {state final : State}
    (run : runAll step state actions = .ok final) {action : Action} (member : action ∈ actions) :
    ∃ before after, step before action = .ok after := by
  induction actions generalizing state with
  | nil => cases member
  | cons first rest induction =>
      rcases Outcome.bind_eq_ok run with ⟨after, taken, others⟩
      rcases List.mem_cons.mp member with rfl | later
      · exact ⟨state, after, taken⟩
      · exact induction others later

/-- A condition that holds for the actions in every state. -/
theorem EveryStep.of_mem {actions : List Action}
    (always : ∀ action ∈ actions, ∀ state, holds state action) (state : State) :
    EveryStep step holds state actions := by
  induction actions generalizing state with
  | nil => trivial
  | cons action rest induction =>
      refine ⟨always action List.mem_cons_self state, fun after _ => ?_⟩
      exact induction (fun other member => always other (List.mem_cons_of_mem _ member)) after

theorem EveryStep.mono {other : State → Action → Prop}
    (implies : ∀ state action, holds state action → other state action) {state : State}
    {actions : List Action} (every : EveryStep step holds state actions) :
    EveryStep step other state actions := by
  induction actions generalizing state with
  | nil => trivial
  | cons action rest induction =>
      exact ⟨implies state action every.1, fun after taken => induction (every.2 after taken)⟩

/-- A run over two lists of actions, and what is known of its second part. -/
theorem EveryStep.of_append {state middle : State} {first second : List Action}
    (every : EveryStep step holds state (first ++ second))
    (run : runAll step state first = .ok middle) : EveryStep step holds middle second := by
  induction first generalizing state with
  | nil =>
      cases run
      exact every
  | cons action rest induction =>
      rcases Outcome.bind_eq_ok run with ⟨after, taken, others⟩
      exact induction (every.2 after taken) others

theorem EveryStep.left {state : State} {first second : List Action}
    (every : EveryStep step holds state (first ++ second)) : EveryStep step holds state first := by
  induction first generalizing state with
  | nil => trivial
  | cons action rest induction =>
      exact ⟨every.1, fun after taken => induction (every.2 after taken)⟩

theorem runAll_of_append {state middle : State} {first second : List Action}
    (run : runAll step state first = .ok middle) :
    runAll step state (first ++ second) = runAll step middle second := by
  induction first generalizing state with
  | nil =>
      cases run
      rfl
  | cons action rest induction =>
      rcases Outcome.bind_eq_ok run with ⟨after, taken, others⟩
      rw [List.cons_append, runAll, taken, Outcome.ok_bind]
      exact induction others

theorem runAll_split {state final : State} {first second : List Action}
    (run : runAll step state (first ++ second) = .ok final) :
    ∃ middle, runAll step state first = .ok middle ∧ runAll step middle second = .ok final := by
  induction first generalizing state with
  | nil => exact ⟨state, rfl, run⟩
  | cons action rest induction =>
      rcases Outcome.bind_eq_ok run with ⟨after, taken, others⟩
      rcases induction others with ⟨middle, left, right⟩
      refine ⟨middle, ?_, right⟩
      rw [runAll, taken, Outcome.ok_bind]
      exact left

end Faults

end DataStructAlgorithm.Foundation
