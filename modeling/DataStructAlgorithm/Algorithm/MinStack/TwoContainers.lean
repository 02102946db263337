import Mathlib.Data.List.Basic
import DataStructAlgorithm.Foundation.Containers

/-! # `QueueByTwoStack` and `StackByTwoQueue` of `Algorithm/MinStack/MinStack.hpp` -/

namespace DataStructAlgorithm.Algorithm.MinStack

open Foundation

variable {Item : Type}

/-! ## A queue made of two stacks -/

/-- `_in` and `_out` -/
structure QueueByTwoStack (Item : Type) where
  inStack : List Item
  outStack : List Item

namespace QueueByTwoStack

def new : QueueByTwoStack Item := ⟨[], []⟩

/-- The loop of `Pop` and `Front` that empties `_in`. -/
def moveAll : (inStack outStack : List Item) → QueueByTwoStack Item
  | [], outStack => ⟨[], outStack⟩
  | item :: rest, outStack => moveAll rest (item :: outStack)

def push (queue : QueueByTwoStack Item) (x : Item) : QueueByTwoStack Item :=
  { queue with inStack := x :: queue.inStack }

def popOut (queue : QueueByTwoStack Item) : Outcome (QueueByTwoStack Item) :=
  (withoutFirst queue.outStack).map fun rest => { queue with outStack := rest }

def pop (queue : QueueByTwoStack Item) : Outcome (QueueByTwoStack Item) :=
  if !queue.outStack.isEmpty then queue.popOut
  else if queue.inStack.isEmpty then .ok queue
  else (moveAll queue.inStack queue.outStack).popOut

def front (queue : QueueByTwoStack Item) : Outcome (QueueByTwoStack Item × Item) :=
  if !queue.outStack.isEmpty then (firstOf queue.outStack).map fun item => (queue, item)
  else
    let moved := moveAll queue.inStack queue.outStack
    (firstOf moved.outStack).map fun item => (moved, item)

def size (queue : QueueByTwoStack Item) : Nat := queue.outStack.length + queue.inStack.length

def empty (queue : QueueByTwoStack Item) : Bool :=
  queue.outStack.isEmpty && queue.inStack.isEmpty

def reply (queue : QueueByTwoStack Item) :
    ContainerRequest Item → Outcome (QueueByTwoStack Item × ContainerReply Item)
  | .push x => .ok (queue.push x, .done)
  | .pop => queue.pop.map fun queue => (queue, .done)
  | .peek => queue.front.map fun pair => (pair.1, .item pair.2)
  | .size => .ok (queue, .number queue.size)
  | .empty => .ok (queue, .flag queue.empty)

/-- The elements of the queue: `_out` from its top, then `_in` from its bottom. -/
def contents (queue : QueueByTwoStack Item) : List Item := queue.outStack ++ queue.inStack.reverse

theorem moveAll_eq (inStack outStack : List Item) :
    moveAll inStack outStack = ⟨[], inStack.reverse ++ outStack⟩ := by
  induction inStack generalizing outStack with
  | nil => rfl
  | cons item rest induction => rw [moveAll, induction, List.reverse_cons, List.append_assoc]; rfl

theorem contents_moveAll (inStack : List Item) :
    (moveAll inStack []).contents = inStack.reverse := by
  rw [moveAll_eq, contents, List.append_nil]
  exact List.append_nil _

theorem contents_push (queue : QueueByTwoStack Item) (x : Item) :
    (queue.push x).contents = queue.contents ++ [x] := by
  rw [contents, contents, push, List.reverse_cons, List.append_assoc]

theorem popOut_contents {queue : QueueByTwoStack Item} (filled : queue.outStack ≠ []) :
    queue.popOut.map contents = .ok queue.contents.tail := by
  rcases queue with ⟨inStack, outStack⟩
  cases outStack with
  | nil => exact absurd rfl filled
  | cons item rest => rfl

theorem pop_contents (queue : QueueByTwoStack Item) :
    queue.pop.map contents = .ok queue.contents.tail := by
  rcases queue with ⟨inStack, outStack⟩
  rw [pop]
  cases outStack with
  | cons item rest => rfl
  | nil =>
      cases inStack with
      | nil => rfl
      | cons item rest =>
          have moved := contents_moveAll (item :: rest)
          have filled : (moveAll (item :: rest) []).outStack ≠ [] := by
            rw [moveAll_eq]
            simp
          calc (moveAll (item :: rest) []).popOut.map contents
              = .ok (moveAll (item :: rest) []).contents.tail := popOut_contents filled
            _ = .ok (item :: rest).reverse.tail := by rw [moved]

theorem front_contents (queue : QueueByTwoStack Item) :
    queue.front.map (Prod.map contents id) =
      (firstOf queue.contents).map fun item => (queue.contents, item) := by
  rcases queue with ⟨inStack, outStack⟩
  rw [front]
  cases outStack with
  | cons item rest => rfl
  | nil =>
      have moved := contents_moveAll inStack
      have onTop : (moveAll inStack []).outStack = inStack.reverse := by
        rw [moveAll_eq, List.append_nil]
      calc ((firstOf (moveAll inStack []).outStack).map fun item =>
              (moveAll inStack [], item)).map (Prod.map contents id)
          = (firstOf inStack.reverse).map fun item => ((moveAll inStack []).contents, item) := by
            rw [onTop, Outcome.map_map]
            rfl
        _ = (firstOf inStack.reverse).map fun item => (inStack.reverse, item) := by rw [moved]

theorem size_eq (queue : QueueByTwoStack Item) : queue.size = queue.contents.length := by
  rw [size, contents, List.length_append, List.length_reverse]

theorem empty_eq (queue : QueueByTwoStack Item) : queue.empty = queue.contents.isEmpty := by
  rcases queue with ⟨inStack, outStack⟩
  cases outStack with
  | nil => exact List.isEmpty_reverse.symm
  | cons item rest => rfl

theorem reply_contents (queue : QueueByTwoStack Item) (request : ContainerRequest Item) :
    (queue.reply request).map (Prod.map contents id) = fifo queue.contents request := by
  cases request with
  | push x =>
      rw [reply, fifo, ← contents_push]
      rfl
  | pop =>
      rw [reply, fifo, map_answered, queue.pop_contents]
      rfl
  | peek =>
      calc (queue.front.map fun pair => (pair.1, ContainerReply.item pair.2)).map
            (Prod.map contents id)
          = (queue.front.map (Prod.map contents id)).map fun pair =>
              (pair.1, ContainerReply.item pair.2) := by
            rw [Outcome.map_map, Outcome.map_map]
            rfl
        _ = (firstOf queue.contents).map fun item => (queue.contents, .item item) := by
            rw [queue.front_contents, Outcome.map_map]
  | size =>
      rw [reply, fifo, size_eq]
      rfl
  | empty =>
      rw [reply, fifo, empty_eq]
      rfl

theorem refines_fifo :
    Refines (reply : QueueByTwoStack Item → _ → _) fifo contents fun _ => True where
  same queue request _ := queue.reply_contents request
  keeps _ _ _ _ _ := trivial

/-- Every list of calls gives what it gives on an ordinary queue, and leaves the elements of that
queue behind. -/
theorem queueByTwoStack_is_fifo (requests : List (ContainerRequest Item)) :
    (runRequests reply new requests).map (Prod.map contents id) =
      runRequests fifo [] requests :=
  refines_fifo.run requests new trivial

end QueueByTwoStack

/-! ## A stack made of two queues -/

/-- `_q1` and `_q2` -/
structure StackByTwoQueue (Item : Type) where
  q1 : List Item
  q2 : List Item

namespace StackByTwoQueue

def new : StackByTwoQueue Item := ⟨[], []⟩

/-- A loop of `Pop`: all elements but the last one go from one queue to the other one. -/
def moveButLast : (source target : List Item) → List Item × List Item
  | [], target => ([], target)
  | [item], target => ([item], target)
  | item :: next :: rest, target => moveButLast (next :: rest) (target ++ [item])

def push (stack : StackByTwoQueue Item) (x : Item) : StackByTwoQueue Item :=
  if stack.q1.isEmpty then { stack with q2 := stack.q2 ++ [x] }
  else { stack with q1 := stack.q1 ++ [x] }

def pop (stack : StackByTwoQueue Item) : Outcome (StackByTwoQueue Item) :=
  if stack.q1.isEmpty then
    let (q2, q1) := moveButLast stack.q2 stack.q1
    (withoutFirst q2).map fun rest => ⟨q1, rest⟩
  else
    let (q1, q2) := moveButLast stack.q1 stack.q2
    (withoutFirst q1).map fun rest => ⟨rest, q2⟩

def top (stack : StackByTwoQueue Item) : Outcome Item :=
  if stack.q1.isEmpty then lastOf stack.q2 else lastOf stack.q1

def size (stack : StackByTwoQueue Item) : Nat := stack.q1.length + stack.q2.length

def empty (stack : StackByTwoQueue Item) : Bool := stack.q1.isEmpty && stack.q2.isEmpty

def reply (stack : StackByTwoQueue Item) :
    ContainerRequest Item → Outcome (StackByTwoQueue Item × ContainerReply Item)
  | .push x => .ok (stack.push x, .done)
  | .pop => stack.pop.map fun stack => (stack, .done)
  | .peek => stack.top.map fun item => (stack, .item item)
  | .size => .ok (stack, .number stack.size)
  | .empty => .ok (stack, .flag stack.empty)

/-- The elements of the stack, the newest one first. -/
def contents (stack : StackByTwoQueue Item) : List Item := (stack.q1 ++ stack.q2).reverse

/-- At most one of the queues has elements. -/
def OneSided (stack : StackByTwoQueue Item) : Prop := stack.q1 = [] ∨ stack.q2 = []

theorem moveButLast_concat (items target : List Item) (last : Item) :
    moveButLast (items ++ [last]) target = ([last], target ++ items) := by
  induction items generalizing target with
  | nil => rw [List.append_nil]; rfl
  | cons item rest induction =>
      have unfolded : moveButLast (item :: rest ++ [last]) target =
          moveButLast (rest ++ [last]) (target ++ [item]) := by
        cases rest <;> rfl
      rw [unfolded, induction, List.append_assoc]
      rfl

theorem contents_push {stack : StackByTwoQueue Item} (oneSided : stack.OneSided) (x : Item) :
    (stack.push x).contents = x :: stack.contents ∧ (stack.push x).OneSided := by
  rcases stack with ⟨q1, q2⟩
  cases q1 with
  | nil => exact ⟨List.reverse_concat, Or.inl rfl⟩
  | cons item rest =>
      rcases oneSided with missing | missing
      · cases missing
      · cases missing
        refine ⟨?_, Or.inr rfl⟩
        rw [contents, contents, List.append_nil, ← List.reverse_concat]
        exact congrArg List.reverse (List.append_nil _)

theorem pop_left (items : List Item) (last : Item) :
    (⟨items ++ [last], []⟩ : StackByTwoQueue Item).pop = .ok ⟨[], items⟩ := by
  have filled : (items ++ [last]).isEmpty = false := by cases items <;> rfl
  simp only [pop, filled, Bool.false_eq_true, if_false, moveButLast_concat]
  rfl

theorem pop_right (items : List Item) (last : Item) :
    (⟨[], items ++ [last]⟩ : StackByTwoQueue Item).pop = .ok ⟨items, []⟩ := by
  simp only [pop, List.isEmpty_nil, if_true, moveButLast_concat]
  rfl

/-- A stack with one side empty, by what it holds. -/
theorem OneSided.cases {stack : StackByTwoQueue Item} (oneSided : stack.OneSided) :
    stack = new ∨ ∃ items last, stack = ⟨items ++ [last], []⟩ ∨ stack = ⟨[], items ++ [last]⟩ := by
  rcases stack with ⟨q1, q2⟩
  rcases oneSided with missing | missing
  · cases missing
    rcases List.eq_nil_or_concat' q2 with rfl | ⟨items, last, rfl⟩
    · exact Or.inl rfl
    · exact Or.inr ⟨items, last, Or.inr rfl⟩
  · cases missing
    rcases List.eq_nil_or_concat' q1 with rfl | ⟨items, last, rfl⟩
    · exact Or.inl rfl
    · exact Or.inr ⟨items, last, Or.inl rfl⟩

theorem pop_contents {stack : StackByTwoQueue Item} (oneSided : stack.OneSided) :
    stack.pop.map contents = withoutFirst stack.contents ∧
      ∀ after, stack.pop = .ok after → after.OneSided := by
  rcases oneSided.cases with rfl | ⟨items, last, rfl | rfl⟩
  · refine ⟨rfl, fun after popped => ?_⟩
    cases popped
  · rw [pop_left, contents, List.append_nil, List.reverse_concat]
    refine ⟨rfl, fun after popped => ?_⟩
    cases popped
    exact Or.inl rfl
  · rw [pop_right, contents, List.nil_append, List.reverse_concat]
    refine ⟨?_, fun after popped => ?_⟩
    · exact congrArg (fun whole : List Item => Except.ok whole.reverse) (List.append_nil items)
    · cases popped
      exact Or.inr rfl

theorem top_contents {stack : StackByTwoQueue Item} (oneSided : stack.OneSided) :
    stack.top = firstOf stack.contents := by
  rcases stack with ⟨q1, q2⟩
  cases q1 with
  | nil => rfl
  | cons item rest =>
      rcases oneSided with missing | missing
      · cases missing
      · cases missing
        rw [contents, List.append_nil]
        rfl

theorem size_eq (stack : StackByTwoQueue Item) : stack.size = stack.contents.length := by
  rw [size, contents, List.length_reverse, List.length_append]

theorem empty_eq (stack : StackByTwoQueue Item) : stack.empty = stack.contents.isEmpty := by
  rw [empty, contents, List.isEmpty_reverse]
  cases stack.q1 <;> rfl

theorem reply_contents {stack : StackByTwoQueue Item} (oneSided : stack.OneSided)
    (request : ContainerRequest Item) :
    (stack.reply request).map (Prod.map contents id) = lifo stack.contents request := by
  cases request with
  | push x =>
      rw [reply, lifo, ← (contents_push oneSided x).1]
      rfl
  | pop =>
      rw [reply, lifo, map_answered, (pop_contents oneSided).1]
  | peek =>
      rw [reply, lifo, top_contents oneSided, Outcome.map_map]
      rfl
  | size =>
      rw [reply, lifo, size_eq]
      rfl
  | empty =>
      rw [reply, lifo, empty_eq]
      rfl

theorem reply_oneSided {stack : StackByTwoQueue Item} (oneSided : stack.OneSided)
    (request : ContainerRequest Item) (next : StackByTwoQueue Item × ContainerReply Item)
    (taken : stack.reply request = .ok next) : next.1.OneSided := by
  cases request with
  | push x =>
      cases taken
      exact (contents_push oneSided x).2
  | pop =>
      rcases Outcome.map_eq_ok taken with ⟨after, popped, rfl⟩
      exact (pop_contents oneSided).2 after popped
  | peek =>
      rcases Outcome.map_eq_ok taken with ⟨item, _, rfl⟩
      exact oneSided
  | size =>
      cases taken
      exact oneSided
  | empty =>
      cases taken
      exact oneSided

theorem refines_lifo : Refines (reply : StackByTwoQueue Item → _ → _) lifo contents OneSided where
  same _ request oneSided := reply_contents oneSided request
  keeps _ request next oneSided taken := reply_oneSided oneSided request next taken

/-- Every list of calls gives what it gives on an ordinary stack, leaves the elements of that
stack behind, and leaves one of the queues empty. -/
theorem stackByTwoQueue_is_lifo (requests : List (ContainerRequest Item)) :
    (runRequests reply new requests).map (Prod.map contents id) =
        runRequests lifo [] requests ∧
      ∀ final, runRequests reply new requests = .ok final →
        final.1.q1 = [] ∨ final.1.q2 = [] :=
  ⟨refines_lifo.run requests new (Or.inl rfl),
    fun final ran => refines_lifo.invariant_run requests new final (Or.inl rfl) ran⟩

end StackByTwoQueue

end DataStructAlgorithm.Algorithm.MinStack
