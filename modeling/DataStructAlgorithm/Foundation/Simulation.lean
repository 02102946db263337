import DataStructAlgorithm.Foundation.LinkedTree
import DataStructAlgorithm.Foundation.Transition

/-! # Computations that commute with a map

Code that does not look at a part of its data does the same when that part is changed
everywhere. -/

namespace DataStructAlgorithm.Foundation

namespace Outcome

variable {First Second Third : Type}

theorem map_bind (first : Outcome First) (next : First → Outcome Second) (change : Second → Third) :
    (first >>= next).map change = first >>= fun value => (next value).map change := by
  cases first <;> rfl

theorem bind_map (first : Outcome First) (change : First → Second)
    (next : Second → Outcome Third) :
    (first.map change >>= next) = first >>= fun value => next (change value) := by
  cases first <;> rfl

theorem map_map (first : Outcome First) (change : First → Second) (next : Second → Third) :
    (first.map change).map next = first.map fun value => next (change value) := by
  cases first <;> rfl

theorem map_eq_ok {first : Outcome First} {change : First → Second} {result : Second}
    (returned : first.map change = .ok result) :
    ∃ value, first = .ok value ∧ change value = result := by
  cases first with
  | error fault => cases returned
  | ok value =>
      cases returned
      exact ⟨value, rfl, rfl⟩

theorem map_returns (first : Outcome First) (change : First → Second) :
    (∃ result, first.map change = .ok result) ↔ ∃ value, first = .ok value := by
  constructor
  · rintro ⟨result, returned⟩
    rcases map_eq_ok returned with ⟨value, isValue, _⟩
    exact ⟨value, isValue⟩
  · rintro ⟨value, rfl⟩
    exact ⟨change value, rfl⟩

theorem map_eq_error (first : Outcome First) (change : First → Second) (fault : Fault) :
    first.map change = .error fault ↔ first = .error fault := by
  cases first with
  | error other => exact ⟨fun same => congrArg _ (Except.error.inj same), congrArg _⟩
  | ok value =>
      constructor
      · intro impossible
        cases impossible
      · intro impossible
        cases impossible

theorem error_not_returned (fault : Fault) :
    ¬∃ value : First, (.error fault : Outcome First) = .ok value := by
  rintro ⟨value, returned⟩
  cases returned

end Outcome

/-! ## Loops -/

section Loops

variable {State Other Result Ended : Type}

def Pass.map (change : State → Other) (finish : Result → Ended) :
    Pass State Result → Pass Other Ended
  | .again state => .again (change state)
  | .leave result => .leave (finish result)

theorem repeatLoop_map {body : State → Outcome (Pass State Result)}
    {other : Other → Outcome (Pass Other Ended)} {change : State → Other}
    {finish : Result → Ended}
    (step : ∀ state, other (change state) = (body state).map (Pass.map change finish))
    (fuel : Nat) (state : State) :
    repeatLoop other fuel (change state) = (repeatLoop body fuel state).map finish := by
  induction fuel generalizing state with
  | zero => rfl
  | succ fuel induction =>
      have here := step state
      cases pass : body state with
      | error fault =>
          rw [pass] at here
          simp only [repeatLoop, pass, here]
          rfl
      | ok ended =>
          rw [pass] at here
          cases ended with
          | again next =>
              rw [repeatLoop_again fuel pass, repeatLoop_again fuel here]
              exact induction next
          | leave result =>
              rw [repeatLoop_leave fuel pass, repeatLoop_leave fuel here]
              rfl

variable {Action Renamed : Type}

theorem runAll_map {step : State → Action → Outcome State}
    {other : Other → Renamed → Outcome Other} {change : State → Other} {rename : Action → Renamed}
    (each : ∀ state action,
      other (change state) (rename action) = (step state action).map change)
    (actions : List Action) (state : State) :
    runAll other (change state) (actions.map rename) = (runAll step state actions).map change := by
  induction actions generalizing state with
  | nil => rfl
  | cons action rest induction =>
      rw [List.map_cons, runAll, runAll, each, Outcome.bind_map, Outcome.map_bind]
      exact bind_congr induction

end Loops

/-! ## Stores -/

namespace Store

variable {Node Other : Type}

def map (change : Node → Other) (store : Store Node) : Store Other where
  cell := fun address => (store.cell address).map change
  next := store.next
  fresh := by
    intro address beyond
    rw [store.fresh address beyond]
    rfl

variable (change : Node → Other) (store : Store Node)

@[simp] theorem cell_map (address : Nat) :
    (store.map change).cell address = (store.cell address).map change := rfl

@[simp] theorem next_map : (store.map change).next = store.next := rfl

theorem eq_of_cells {first second : Store Node} (cells : first.cell = second.cell)
    (next : first.next = second.next) : first = second := by
  rcases first with ⟨cell, next, fresh⟩
  rcases second with ⟨otherCell, otherNext, otherFresh⟩
  cases cells
  cases next
  rfl

theorem map_alloc (node : Node) :
    (store.map change).alloc (change node) = (store.alloc node).map change := by
  apply eq_of_cells
  · funext address
    by_cases new : address = store.next <;> simp [alloc, new]
  · rfl

theorem load_map (pointer : Ptr) :
    (store.map change).load pointer = (store.load pointer).map change := by
  cases pointer with
  | none => rfl
  | some address =>
      simp only [load, cell_map]
      cases store.cell address <;> rfl

theorem assign_map {write : Node → Node} {otherWrite : Other → Other}
    (commute : ∀ node, otherWrite (change node) = change (write node)) (pointer : Ptr) :
    (store.map change).assign pointer otherWrite = (store.assign pointer write).map
      (Store.map change) := by
  cases pointer with
  | none => rfl
  | some address =>
      cases found : store.cell address with
      | none => simp [assign, found, Except.map]
      | some node =>
          have foundMapped : (store.map change).cell address = some (change node) := by
            rw [cell_map, found]
            rfl
          rw [assign_some _ found, assign_some _ foundMapped]
          apply congrArg
          apply eq_of_cells
          · funext other
            by_cases here : other = address
            · simp [here, found, commute]
            · simp [here]
          · rfl

end Store

namespace TreeNode

def map {Data Other : Type} (change : Data → Other) (node : TreeNode Data) : TreeNode Other :=
  ⟨change node.data, node.left, node.right, node.parent⟩

end TreeNode

end DataStructAlgorithm.Foundation

/-! ## Related computations

Two computations that end in the same way, with values that are related. -/

namespace DataStructAlgorithm.Foundation

namespace Outcome

variable {First Second Third Fourth : Type}

/-- Both return, and their values agree, or both stop on the same fault. -/
def Related (agree : First → Second → Prop) : Outcome First → Outcome Second → Prop
  | .ok value, .ok other => agree value other
  | .error fault, .error other => fault = other
  | _, _ => False

theorem Related.bind {agree : First → Second → Prop} {later : Third → Fourth → Prop}
    {first : Outcome First} {other : Outcome Second} {next : First → Outcome Third}
    {otherNext : Second → Outcome Fourth} (related : Related agree first other)
    (nexts : ∀ value otherValue, agree value otherValue →
      Related later (next value) (otherNext otherValue)) :
    Related later (first >>= next) (other >>= otherNext) := by
  cases first with
  | error fault =>
      cases other with
      | error otherFault => exact related
      | ok otherValue => exact related.elim
  | ok value =>
      cases other with
      | error otherFault => exact related.elim
      | ok otherValue => exact nexts value otherValue related

/-- The same computation goes first. -/
theorem Related.after {later : Third → Fourth → Prop} (first : Outcome First)
    {next : First → Outcome Third} {otherNext : First → Outcome Fourth}
    (nexts : ∀ value, Related later (next value) (otherNext value)) :
    Related later (first >>= next) (first >>= otherNext) := by
  cases first with
  | error fault => exact rfl
  | ok value => exact nexts value

theorem Related.mono {agree weaker : First → Second → Prop} {first : Outcome First}
    {other : Outcome Second} (related : Related agree first other)
    (implies : ∀ value otherValue, agree value otherValue → weaker value otherValue) :
    Related weaker first other := by
  cases first with
  | error fault =>
      cases other with
      | error otherFault => exact related
      | ok otherValue => exact related.elim
  | ok value =>
      cases other with
      | error otherFault => exact related.elim
      | ok otherValue => exact implies value otherValue related

end Outcome

section Loops

variable {State Other Result Ended : Type}

/-- Both loops go round again, or both are left. -/
def Pass.Related (agree : State → Other → Prop) (finish : Result → Ended → Prop) :
    Pass State Result → Pass Other Ended → Prop
  | .again state, .again other => agree state other
  | .leave result, .leave ended => finish result ended
  | _, _ => False

theorem repeatLoop_related {body : State → Outcome (Pass State Result)}
    {otherBody : Other → Outcome (Pass Other Ended)} {agree : State → Other → Prop}
    {finish : Result → Ended → Prop}
    (step : ∀ state other, agree state other →
      Outcome.Related (Pass.Related agree finish) (body state) (otherBody other))
    (fuel : Nat) (state : State) (other : Other) (start : agree state other) :
    Outcome.Related finish (repeatLoop body fuel state) (repeatLoop otherBody fuel other) := by
  induction fuel generalizing state other with
  | zero => exact rfl
  | succ fuel induction =>
      have pass := step state other start
      rw [repeatLoop, repeatLoop]
      cases ended : body state with
      | error fault =>
          cases otherEnded : otherBody other with
          | error otherFault =>
              rw [ended, otherEnded] at pass
              exact pass
          | ok otherPass =>
              rw [ended, otherEnded] at pass
              exact pass.elim
      | ok result =>
          cases otherEnded : otherBody other with
          | error otherFault =>
              rw [ended, otherEnded] at pass
              exact pass.elim
          | ok otherResult =>
              rw [ended, otherEnded] at pass
              cases result with
              | again next =>
                  cases otherResult with
                  | again otherNext => exact induction next otherNext pass
                  | leave otherFinal => exact pass.elim
              | leave final =>
                  cases otherResult with
                  | again otherNext => exact pass.elim
                  | leave otherFinal => exact pass

end Loops

section Runs

variable {State Other Action Event : Type}

/-- Both steps are refused, or both are taken and report the same. -/
def StepRelated (agree : State → Other → Prop) :
    Option (State × Event) → Option (Other × Event) → Prop
  | some (state, event), some (other, otherEvent) => event = otherEvent ∧ agree state other
  | none, none => True
  | _, _ => False

theorem StepRelated.events_eq {agree : State → Other → Prop} {result : Option (State × Event)}
    {otherResult : Option (Other × Event)} (related : StepRelated agree result otherResult) :
    result.map Prod.snd = otherResult.map Prod.snd := by
  cases result with
  | none =>
      cases otherResult with
      | none => rfl
      | some other => exact related.elim
  | some result =>
      cases otherResult with
      | none => exact related.elim
      | some other => exact congrArg some related.1

/-- Related runs are both refused, or they report the same and end in related states. -/
theorem runSteps_related {step : State → Action → Option (State × Event)}
    {otherStep : Other → Action → Option (Other × Event)} {agree : State → Other → Prop}
    (each : ∀ state other action, agree state other →
      StepRelated agree (step state action) (otherStep other action))
    (actions : List Action) (state : State) (other : Other) (start : agree state other) :
    StepRelated agree (runSteps step state actions) (runSteps otherStep other actions) := by
  induction actions generalizing state other with
  | nil => exact ⟨rfl, start⟩
  | cons action rest induction =>
      have here := each state other action start
      rw [runSteps, runSteps]
      cases taken : step state action with
      | none =>
          cases otherTaken : otherStep other action with
          | none => trivial
          | some otherResult =>
              rw [taken, otherTaken] at here
              exact here.elim
      | some result =>
          cases otherTaken : otherStep other action with
          | none =>
              rw [taken, otherTaken] at here
              exact here.elim
          | some otherResult =>
              rw [taken, otherTaken] at here
              have later := induction result.1 otherResult.1 here.2
              have sameEvent : result.2 = otherResult.2 := here.1
              simp only [Option.bind_eq_bind, Option.bind_some, sameEvent]
              cases ran : runSteps step result.1 rest with
              | none =>
                  rw [ran] at later
                  cases otherRan : runSteps otherStep otherResult.1 rest with
                  | none => trivial
                  | some last =>
                      rw [otherRan] at later
                      exact later.elim
              | some last =>
                  rw [ran] at later
                  cases otherRan : runSteps otherStep otherResult.1 rest with
                  | none =>
                      rw [otherRan] at later
                      exact later.elim
                  | some otherLast =>
                      rw [otherRan] at later
                      exact ⟨congrArg _ later.1, later.2⟩

end Runs

end DataStructAlgorithm.Foundation
