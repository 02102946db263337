import DataStructAlgorithm.Foundation.Simulation

/-! # Stacks, queues and objects that implement them

The stack and the queue of the standard library are lists: the top of a stack and the front of
a queue come first. An object answers requests, one after the other, and refines another one
if no list of requests tells them apart. -/

namespace DataStructAlgorithm.Foundation

variable {Item : Type}

/-- `top` of a stack and `front` of a queue, which are not defined if it is empty. -/
def firstOf : List Item → Outcome Item
  | [] => .error .outOfRange
  | item :: _ => .ok item

theorem firstOf_of_head {items : List Item} {item : Item} (first : items.head? = some item) :
    firstOf items = .ok item := by
  cases items with
  | nil => cases first
  | cons other rest => exact congrArg Except.ok (Option.some.inj first)

/-- `pop`, not defined on an empty container either. -/
def withoutFirst : List Item → Outcome (List Item)
  | [] => .error .outOfRange
  | _ :: rest => .ok rest

/-- `back` of a queue -/
def lastOf (items : List Item) : Outcome Item := firstOf items.reverse

/-- Changes of the first entry through the reference that `top` returns. -/
def changeFirst (change : Item → Outcome Item) : List Item → Outcome (List Item)
  | [] => .error .outOfRange
  | item :: rest => (change item).map (· :: rest)

/-! ## Objects -/

section Objects

variable {State Abstract Request Reply : Type}

/-- The replies to a list of requests, and the state after them. -/
def runRequests (reply : State → Request → Outcome (State × Reply)) :
    State → List Request → Outcome (State × List Reply)
  | state, [] => .ok (state, [])
  | state, request :: rest =>
      reply state request >>= fun next =>
        (runRequests reply next.1 rest).map (Prod.map id (next.2 :: ·))

/-- One object does what another one does with what a state stands for. -/
structure Refines (reply : State → Request → Outcome (State × Reply))
    (abstract : Abstract → Request → Outcome (Abstract × Reply)) (view : State → Abstract)
    (invariant : State → Prop) : Prop where
  same : ∀ state request, invariant state →
    (reply state request).map (Prod.map view id) = abstract (view state) request
  keeps : ∀ state request next, invariant state → reply state request = .ok next →
    invariant next.1

namespace Refines

variable {reply : State → Request → Outcome (State × Reply)}
  {abstract : Abstract → Request → Outcome (Abstract × Reply)} {view : State → Abstract}
  {invariant : State → Prop}

/-- No list of requests tells the objects apart, also not by a fault. -/
theorem run (refines : Refines reply abstract view invariant) (requests : List Request)
    (state : State) (start : invariant state) :
    (runRequests reply state requests).map (Prod.map view id) =
      runRequests abstract (view state) requests := by
  induction requests generalizing state with
  | nil => rfl
  | cons request rest induction =>
      have same := refines.same state request start
      rw [runRequests, runRequests, ← same, Outcome.map_bind, Outcome.bind_map]
      cases taken : reply state request with
      | error fault => rfl
      | ok next =>
          have others := induction next.1 (refines.keeps state request next start taken)
          rw [Outcome.ok_bind, Outcome.ok_bind, Prod.map_fst, ← others]
          cases runRequests reply next.1 rest <;> rfl

theorem invariant_run (refines : Refines reply abstract view invariant) (requests : List Request)
    (state : State) (final : State × List Reply) (start : invariant state)
    (ran : runRequests reply state requests = .ok final) : invariant final.1 := by
  induction requests generalizing state final with
  | nil =>
      cases ran
      exact start
  | cons request rest induction =>
      rcases Outcome.bind_eq_ok ran with ⟨next, taken, others⟩
      rcases Outcome.map_eq_ok others with ⟨last, later, rfl⟩
      exact induction next.1 last (refines.keeps state request next start taken) later

end Refines

/-- A request that has the same answer wherever it ends. -/
theorem map_answered (outcome : Outcome State) (view : State → Abstract) (answer : Reply) :
    (outcome.map fun after => (after, answer)).map (Prod.map view id) =
      (outcome.map view).map fun items => (items, answer) := by
  rw [Outcome.map_map, Outcome.map_map]
  rfl

end Objects

/-! ## The containers -/

/-- `peek` stands for `Front` and for `Top`. -/
inductive ContainerRequest (Item : Type)
  | push (item : Item)
  | pop
  | peek
  | size
  | empty

inductive ContainerReply (Item : Type)
  | done
  | item (item : Item)
  | number (number : Nat)
  | flag (flag : Bool)
  deriving DecidableEq

/-- An ordinary queue, the oldest element first. `pop` leaves an empty one as it is. -/
def fifo (items : List Item) :
    ContainerRequest Item → Outcome (List Item × ContainerReply Item)
  | .push item => .ok (items ++ [item], .done)
  | .pop => .ok (items.tail, .done)
  | .peek => (firstOf items).map fun item => (items, .item item)
  | .size => .ok (items, .number items.length)
  | .empty => .ok (items, .flag items.isEmpty)

/-- An ordinary stack, the newest element first. -/
def lifo (items : List Item) :
    ContainerRequest Item → Outcome (List Item × ContainerReply Item)
  | .push item => .ok (item :: items, .done)
  | .pop => (withoutFirst items).map fun rest => (rest, .done)
  | .peek => (firstOf items).map fun item => (items, .item item)
  | .size => .ok (items, .number items.length)
  | .empty => .ok (items, .flag items.isEmpty)

end DataStructAlgorithm.Foundation
