import Mathlib.Algebra.Group.Nat.Defs
import Mathlib.Algebra.Group.Int.Defs
import Mathlib.Order.Lattice
import Mathlib.Order.Bounds.Defs
import DataStructAlgorithm.Foundation.Containers
import DataStructAlgorithm.Foundation.Conversions

/-! # The three classes `MinStack` of `Algorithm/MinStack/MinStack.hpp`

`method2::MinStack` counts the elements over a minimum in an `int`. Its function `Min` returns a
pair where an element is expected, hence it has no instance. -/

namespace DataStructAlgorithm.Algorithm.MinStack

open Foundation

variable {Item : Type} [LinearOrder Item]

inductive StackCall (Item : Type)
  | push (x : Item)
  | pop

/-- The elements that are stored, the most recent one first. -/
def stored (items : List Item) : StackCall Item → Outcome (List Item)
  | .push x => .ok (x :: items)
  | .pop => withoutFirst items

/-- `method1::MinStack` -/
structure Method1 (Item : Type) where
  s : List Item
  min : List Item

namespace Method1

def new : Method1 Item := ⟨[], []⟩

def push (stack : Method1 Item) (x : Item) : Outcome (Method1 Item) :=
  if stack.min.head?.all (decide <| · > x) then .ok ⟨x :: stack.s, x :: stack.min⟩
  else do
    let least ← firstOf stack.min
    pure ⟨x :: stack.s, least :: stack.min⟩

def pop (stack : Method1 Item) : Outcome (Method1 Item) := do
  let s ← withoutFirst stack.s
  let min ← withoutFirst stack.min
  pure ⟨s, min⟩

def top (stack : Method1 Item) : Outcome Item := firstOf stack.s

def Min (stack : Method1 Item) : Outcome Item := firstOf stack.min

def call (stack : Method1 Item) : StackCall Item → Outcome (Method1 Item)
  | .push x => push stack x
  | .pop => pop stack

end Method1

/-- `method2::MinStack` -/
structure Method2 (Item : Type) where
  s : List Item
  min : List (Item × Int)

namespace Method2

def new : Method2 Item := ⟨[], []⟩

/-- `_min.top().second += step`, where `step` is 1 or -1. -/
def addSecond (step : Int) (min : List (Item × Int)) : Outcome (List (Item × Int)) :=
  changeFirst (fun entry => (addInt entry.2 step).map (entry.1, ·)) min

def push (stack : Method2 Item) (x : Item) : Outcome (Method2 Item) :=
  if stack.min.head?.all (decide <| ·.1 > x) then .ok ⟨x :: stack.s, (x, 1) :: stack.min⟩
  else do
    let min ← addSecond 1 stack.min
    pure ⟨x :: stack.s, min⟩

def pop (stack : Method2 Item) : Outcome (Method2 Item) := do
  let s ← withoutFirst stack.s
  let min ← addSecond (-1) stack.min
  let entry ← firstOf min
  if entry.2 = 0 then do
    let min ← withoutFirst min
    pure ⟨s, min⟩
  else pure ⟨s, min⟩

def top (stack : Method2 Item) : Outcome Item := firstOf stack.s

/-- `_min.top()` -/
def minTop (stack : Method2 Item) : Outcome (Item × Int) := firstOf stack.min

def call (stack : Method2 Item) : StackCall Item → Outcome (Method2 Item)
  | .push x => push stack x
  | .pop => pop stack

end Method2

/-- `method3::MinStack`. Over every element stands the minimum of the elements up to it. -/
structure Method3 (Item : Type) where
  s : List Item

namespace Method3

def new : Method3 Item := ⟨[]⟩

def push (stack : Method3 Item) (x : Item) : Outcome (Method3 Item) :=
  if stack.s.head?.all (decide <| · > x) then .ok ⟨x :: x :: stack.s⟩
  else do
    let tamp ← firstOf stack.s
    pure ⟨tamp :: x :: stack.s⟩

def pop (stack : Method3 Item) : Outcome (Method3 Item) := do
  let s ← withoutFirst stack.s
  let s ← withoutFirst s
  pure ⟨s⟩

def Min (stack : Method3 Item) : Outcome Item := firstOf stack.s

/-- The top element is the one below the minimum. -/
def top (stack : Method3 Item) : Outcome Item := withoutFirst stack.s >>= firstOf

def call (stack : Method3 Item) : StackCall Item → Outcome (Method3 Item)
  | .push x => push stack x
  | .pop => pop stack

end Method3

/-! ## The minimum of the elements up to each one -/

/-- The least of a new element and of the least one so far. -/
def leastWith (x : Item) : Option Item → Item
  | none => x
  | some least => if least > x then x else least

def minima : List Item → List Item
  | [] => []
  | x :: rest => leastWith x (minima rest).head? :: minima rest

theorem leastWith_cases (x : Item) (least : Option Item) :
    least.all (decide <| · > x) = true ∧ leastWith x least = x ∨
      least.all (decide <| · > x) = false ∧ least = some (leastWith x least) := by
  cases least with
  | none => exact Or.inl ⟨rfl, rfl⟩
  | some least =>
      rw [leastWith]
      by_cases greater : least > x
      · rw [if_pos greater]
        exact Or.inl ⟨decide_eq_true greater, rfl⟩
      · rw [if_neg greater]
        exact Or.inr ⟨decide_eq_false greater, rfl⟩

theorem minima_isLeast (x : Item) (rest : List Item) :
    IsLeast {item | item ∈ x :: rest} (leastWith x (minima rest).head?) := by
  induction rest generalizing x with
  | nil =>
      refine ⟨List.mem_cons_self, fun item member => ?_⟩
      rw [List.mem_singleton.mp member]
      exact le_refl x
  | cons next rest induction =>
      have below := induction next
      rw [minima, List.head?_cons, leastWith]
      split
      · rename_i greater
        refine ⟨List.mem_cons_self, fun item member => ?_⟩
        rcases List.mem_cons.mp member with rfl | member
        · exact le_refl _
        · exact le_trans (le_of_lt greater) (below.2 member)
      · rename_i notGreater
        refine ⟨List.mem_cons_of_mem _ below.1, fun item member => ?_⟩
        rcases List.mem_cons.mp member with rfl | member
        · exact not_lt.mp notGreater
        · exact below.2 member

omit [LinearOrder Item] in
/-- What a stack is that has been used only through its functions. -/
theorem runAll_of_stored {State : Type} {call : State → StackCall Item → Outcome State}
    (holding : List Item → State)
    (pushes : ∀ items x, call (holding items) (.push x) = .ok (holding (x :: items)))
    (pops : ∀ x rest, call (holding (x :: rest)) .pop = .ok (holding rest))
    {calls : List (StackCall Item)} {items final : List Item}
    (legal : runAll stored items calls = .ok final) :
    runAll call (holding items) calls = .ok (holding final) := by
  induction calls generalizing items with
  | nil =>
      cases legal
      rfl
  | cons request rest induction =>
      rcases Outcome.bind_eq_ok legal with ⟨after, taken, others⟩
      cases request with
      | push x =>
          cases taken
          rw [runAll, pushes]
          exact induction others
      | pop =>
          cases items with
          | nil => cases taken
          | cons x items =>
              cases taken
              rw [runAll, pops]
              exact induction others

/-! ## The parallel stack -/

namespace Method1

/-- The stack that holds the elements. -/
def holding (items : List Item) : Method1 Item := ⟨items, minima items⟩

theorem push_holding (items : List Item) (x : Item) :
    push (holding items) x = .ok (holding (x :: items)) := by
  rcases leastWith_cases x (minima items).head? with ⟨taken, least⟩ | ⟨kept, least⟩
  · rw [push, holding, if_pos taken, holding, minima, least]
  · rw [push, holding, kept, if_neg (by decide), firstOf_of_head least]
    rfl

end Method1

/-! ## The interleaved stack -/

namespace Method3

def layers : List Item → List Item
  | [] => []
  | x :: rest => leastWith x (minima rest).head? :: x :: layers rest

def holding (items : List Item) : Method3 Item := ⟨layers items⟩

theorem head_layers (items : List Item) : (layers items).head? = (minima items).head? := by
  cases items <;> rfl

theorem push_holding (items : List Item) (x : Item) :
    push (holding items) x = .ok (holding (x :: items)) := by
  rcases leastWith_cases x (minima items).head? with ⟨taken, least⟩ | ⟨kept, least⟩
  · rw [push, holding, head_layers, if_pos taken, holding, layers, least]
  · have onTop := firstOf_of_head ((head_layers items).trans least)
    rw [push, holding, head_layers, kept, if_neg (by decide), onTop]
    rfl

end Method3

/-! ## The run lengths -/

/-- The topmost elements, so many of them, of which the lowest is the least. -/
def RunOver (least : Item) (length : Nat) (items : List Item) : Prop :=
  ∃ block below, items = block ++ least :: below ∧ block.length + 1 = length ∧
    ∀ item ∈ block, least ≤ item

theorem RunOver.one (x : Item) (rest : List Item) : RunOver x 1 (x :: rest) :=
  ⟨[], rest, rfl, rfl, fun _ member => by cases member⟩

theorem RunOver.cons {least x : Item} {length : Nat} {items : List Item}
    (run : RunOver least length items) (above : least ≤ x) :
    RunOver least (length + 1) (x :: items) := by
  rcases run with ⟨block, below, rfl, rfl, others⟩
  refine ⟨x :: block, below, rfl, rfl, fun item member => ?_⟩
  rcases List.mem_cons.mp member with rfl | member
  · exact above
  · exact others item member

/-- The runs that start with a new minimum, the most recent one first. -/
def runs : List Item → List (Item × Nat)
  | [] => []
  | x :: rest =>
      match runs rest with
      | [] => [(x, 1)]
      | (least, count) :: others =>
          if least > x then (x, 1) :: (least, count) :: others else (least, count + 1) :: others

/-- A new element starts a run or belongs to the last one. -/
theorem runs_cases (x : Item) (rest : List Item) :
    (runs rest).head?.all (decide <| ·.1 > x) = true ∧ runs (x :: rest) = (x, 1) :: runs rest ∨
      ∃ first others, runs rest = first :: others ∧ first.1 ≤ x ∧
        runs (x :: rest) = (first.1, first.2 + 1) :: others := by
  cases before : runs rest with
  | nil =>
      refine Or.inl ⟨rfl, ?_⟩
      rw [runs, before]
  | cons first others =>
      by_cases greater : first.1 > x
      · refine Or.inl ⟨decide_eq_true greater, ?_⟩
        rw [runs, before]
        exact if_pos greater
      · refine Or.inr ⟨first, others, rfl, not_lt.mp greater, ?_⟩
        rw [runs, before]
        exact if_neg greater

theorem head_runs (items : List Item) :
    (runs items).head?.map Prod.fst = (minima items).head? := by
  induction items with
  | nil => rfl
  | cons x rest induction =>
      rw [minima, List.head?_cons, ← induction]
      rcases runs_cases x rest with ⟨new, listed⟩ | ⟨first, others, before, above, listed⟩
      · rw [listed]
        cases before : runs rest with
        | nil => rfl
        | cons first others =>
            rw [before] at new
            exact congrArg some (if_pos (of_decide_eq_true new)).symm
      · rw [listed, before]
        exact congrArg some (if_neg (not_lt.mpr above)).symm

/-- The last run consists of the elements from the minimum on. -/
theorem runOver_of_runs {items : List Item} {first : Item × Nat} {others : List (Item × Nat)}
    (listed : runs items = first :: others) : RunOver first.1 first.2 items := by
  induction items generalizing first others with
  | nil => cases listed
  | cons x rest induction =>
      rcases runs_cases x rest with ⟨_, now⟩ | ⟨last, more, before, above, now⟩
      · rw [now] at listed
        cases listed
        exact RunOver.one x rest
      · rw [now] at listed
        cases listed
        exact (induction before).cons above

/-- Elements over one that is not greater have been counted. -/
theorem RunOver.counted {lowest : Item} {block below : List Item}
    (above : ∀ item ∈ block, lowest ≤ item) :
    ∃ first others, runs (block ++ lowest :: below) = first :: others ∧
      block.length < first.2 ∧ first.1 ≤ lowest := by
  induction block with
  | nil =>
      rw [List.nil_append]
      rcases runs_cases lowest below with ⟨_, now⟩ | ⟨last, more, _, lower, now⟩
      · exact ⟨_, _, now, Nat.one_pos, le_refl lowest⟩
      · exact ⟨_, _, now, Nat.succ_pos last.2, lower⟩
  | cons x rest induction =>
      rcases induction fun item member => above item (List.mem_cons_of_mem x member) with
        ⟨first, others, before, longer, lower⟩
      rw [List.cons_append]
      rcases runs_cases x (rest ++ lowest :: below) with ⟨new, _⟩ | ⟨last, more, same, _, now⟩
      · rw [before] at new
        have greater : first.1 > x := of_decide_eq_true new
        exact absurd (le_trans lower (above x List.mem_cons_self)) (not_le.mpr greater)
      · rw [before] at same
        cases same
        exact ⟨_, _, now, Nat.succ_lt_succ longer, lower⟩

theorem runs_positive {items : List Item} {entry : Item × Nat} (member : entry ∈ runs items) :
    0 < entry.2 := by
  induction items generalizing entry with
  | nil => cases member
  | cons x rest induction =>
      rcases runs_cases x rest with ⟨_, now⟩ | ⟨first, others, before, _, now⟩
      · rw [now] at member
        rcases List.mem_cons.mp member with rfl | member
        · exact Nat.one_pos
        · exact induction member
      · rw [now] at member
        rcases List.mem_cons.mp member with rfl | member
        · exact Nat.succ_pos first.2
        · exact induction (before ▸ List.mem_cons_of_mem first member)

/-- No run reaches a length. -/
def Small (limit : Nat) (items : List Item) : Prop := ∀ entry ∈ runs items, entry.2 < limit

theorem Small.nil (limit : Nat) : Small limit ([] : List Item) := fun _ member => by cases member

theorem Small.tail {limit : Nat} {x : Item} {rest : List Item} (small : Small limit (x :: rest)) :
    Small limit rest := by
  intro entry member
  rcases runs_cases x rest with ⟨_, now⟩ | ⟨first, others, before, _, now⟩
  · exact small entry (now ▸ List.mem_cons_of_mem _ member)
  · rw [before] at member
    rcases List.mem_cons.mp member with rfl | member
    · have longer := small (entry.1, entry.2 + 1) (now ▸ List.mem_cons_self)
      exact Nat.lt_of_succ_lt longer
    · exact small entry (now ▸ List.mem_cons_of_mem _ member)

theorem Small.shorter {limit : Nat} {items : List Item} (small : Small limit items) :
    ¬∃ least, RunOver least limit items := by
  rintro ⟨lowest, block, below, rfl, rfl, above⟩
  rcases RunOver.counted above with ⟨first, others, listed, longer, _⟩
  have short := small first (listed ▸ List.mem_cons_self)
  omega

/-- A new element makes a run of the length only if that many elements end in the least. -/
theorem Small.cons {limit : Nat} (several : 1 < limit) {x : Item} {rest : List Item}
    (small : Small limit rest) (none : ¬∃ least, RunOver least limit (x :: rest)) :
    Small limit (x :: rest) := by
  intro entry member
  rcases runs_cases x rest with ⟨_, now⟩ | ⟨first, others, before, _, now⟩
  · rw [now] at member
    rcases List.mem_cons.mp member with rfl | member
    · exact several
    · exact small entry member
  · rw [now] at member
    rcases List.mem_cons.mp member with rfl | member
    · have short := small first (before ▸ List.mem_cons_self)
      have different : first.2 + 1 ≠ limit := by
        rintro rfl
        exact none ⟨first.1, runOver_of_runs now⟩
      exact Nat.lt_of_le_of_ne short different
    · exact small entry (before ▸ List.mem_cons_of_mem first member)

namespace Method2

def holding (items : List Item) : Method2 Item :=
  ⟨items, (runs items).map fun entry => (entry.1, (entry.2 : Int))⟩

theorem head_holding (items : List Item) (x : Item) :
    (holding items).min.head?.all (decide <| ·.1 > x) =
      (runs items).head?.all (decide <| ·.1 > x) := by
  rw [holding]
  cases runs items <;> rfl

omit [LinearOrder Item] in
theorem addSecond_holding {step count : Int} {first : Item × Nat} {others : List (Item × Int)}
    (added : addInt first.2 step = .ok count) :
    addSecond step ((first.1, (first.2 : Int)) :: others) = .ok ((first.1, count) :: others) := by
  rw [addSecond, changeFirst, added]
  rfl

theorem push_holding {items : List Item} {x : Item} (small : Small (2 ^ 31) (x :: items)) :
    push (holding items) x = .ok (holding (x :: items)) := by
  rw [push, head_holding]
  rcases runs_cases x items with ⟨new, now⟩ | ⟨first, others, before, above, now⟩
  · rw [if_pos new, holding, holding, now]
    rfl
  · have short : first.2 + 1 < 2 ^ 31 := small (first.1, first.2 + 1) (now ▸ List.mem_cons_self)
    have added : addInt first.2 1 = .ok ((first.2 + 1 : Nat) : Int) := addInt_natCast short
    have kept : ¬decide (first.1 > x) = true :=
      fun greater => absurd (of_decide_eq_true greater) (not_lt.mpr above)
    rw [before, List.head?_cons, Option.all_some, if_neg kept, holding, before, List.map_cons,
      addSecond_holding added, holding, now]
    rfl

theorem push_overflow {items : List Item} {x : Item} (small : Small (2 ^ 31) items)
    (long : ¬Small (2 ^ 31) (x :: items)) : push (holding items) x = .error .outOfRange := by
  rcases runs_cases x items with ⟨_, now⟩ | ⟨first, others, before, above, now⟩
  · refine absurd (fun entry member => ?_) long
    rw [now] at member
    rcases List.mem_cons.mp member with rfl | member
    · exact (by decide : 1 < 2 ^ 31)
    · exact small entry member
  · have kept : ¬decide (first.1 > x) = true :=
      fun greater => absurd (of_decide_eq_true greater) (not_lt.mpr above)
    have tooLarge : ¬first.2 + 1 < 2 ^ 31 := by
      refine fun short => long fun entry member => ?_
      rw [now] at member
      rcases List.mem_cons.mp member with rfl | member
      · exact short
      · exact small entry (before ▸ List.mem_cons_of_mem first member)
    have added : addInt first.2 1 = .error .outOfRange := if_neg (by omega)
    rw [push, head_holding, before, List.head?_cons, Option.all_some, if_neg kept, holding, before,
      List.map_cons, addSecond, changeFirst, added]
    rfl

theorem pop_holding {x : Item} {rest : List Item} (small : Small (2 ^ 31) (x :: rest)) :
    pop (holding (x :: rest)) = .ok (holding rest) := by
  rcases runs_cases x rest with ⟨_, now⟩ | ⟨first, others, before, _, now⟩
  · have taken : addInt ((1 : Nat) : Int) (-1) = .ok 0 := addInt_eq (by omega) (by omega)
    rw [pop, holding, now, List.map_cons, addSecond_holding taken, holding]
    simp only [withoutFirst, firstOf, Outcome.ok_bind, if_pos]
    rfl
  · have short : first.2 + 1 < 2 ^ 31 := small (first.1, first.2 + 1) (now ▸ List.mem_cons_self)
    have positive : 0 < first.2 := runs_positive (before ▸ List.mem_cons_self)
    have taken : addInt ((first.2 + 1 : Nat) : Int) (-1) = .ok (first.2 : Int) := by
      rw [addInt_eq (by omega) (by omega)]
      exact congrArg Except.ok (by omega)
    have different : ¬(first.2 : Int) = 0 := by omega
    rw [pop, holding, now, List.map_cons, addSecond_holding taken, holding, before]
    simp only [withoutFirst, firstOf, Outcome.ok_bind, if_neg different]
    rfl

end Method2

/-! ## Runs -/

/-- The most recent elements, `2 ^ 31` of them, end in the least one. -/
def LongRun (items : List Item) : Prop := ∃ least, RunOver least (2 ^ 31) items

/-- No call leaves the stack with a run that is too long for an `int`. -/
def NeverLong (items : List Item) (calls : List (StackCall Item)) : Prop :=
  EveryStep stored (fun items request => ∀ after, stored items request = .ok after →
    ¬LongRun after) items calls

theorem Small.pop {items after : List Item} (small : Small (2 ^ 31) items)
    (taken : stored items .pop = .ok after) : Small (2 ^ 31) after := by
  cases items with
  | nil => cases taken
  | cons x rest =>
      cases taken
      exact small.tail

namespace Method2

theorem runAll_holding {calls : List (StackCall Item)} {items final : List Item}
    (small : Small (2 ^ 31) items) (legal : runAll stored items calls = .ok final)
    (never : NeverLong items calls) :
    runAll call (holding items) calls = .ok (holding final) := by
  induction calls generalizing items with
  | nil =>
      cases legal
      rfl
  | cons request rest induction =>
      rcases Outcome.bind_eq_ok legal with ⟨after, taken, others⟩
      have notLong := never.1 after taken
      have later := never.2 after taken
      cases request with
      | push x =>
          cases taken
          have next := small.cons (by decide) notLong
          rw [runAll, call, push_holding next]
          exact induction next others later
      | pop =>
          have next := small.pop taken
          have popped : pop (holding items) = .ok (holding after) := by
            cases items with
            | nil => cases taken
            | cons x rest =>
                cases taken
                exact pop_holding small
          rw [runAll, call, popped]
          exact induction next others later

/-- A run that does not fail has not counted too far. -/
theorem neverLong_of_runAll {calls : List (StackCall Item)} {items : List Item}
    {stack : Method2 Item} (small : Small (2 ^ 31) items)
    (ran : runAll call (holding items) calls = .ok stack) : NeverLong items calls := by
  induction calls generalizing items with
  | nil => trivial
  | cons request rest induction =>
      rcases Outcome.bind_eq_ok ran with ⟨next, called, others⟩
      cases request with
      | push x =>
          have after : Small (2 ^ 31) (x :: items) := by
            refine Classical.byContradiction fun long => ?_
            rw [call, push_overflow small long] at called
            cases called
          rw [call, push_holding after] at called
          cases called
          refine EveryStep.cons rfl (fun other taken => ?_) (induction after others)
          cases taken
          exact after.shorter
      | pop =>
          cases items with
          | nil => cases called
          | cons x items =>
              rw [call, pop_holding small] at called
              cases called
              have later : NeverLong items rest := induction small.tail others
              refine EveryStep.cons rfl (fun other taken => ?_) later
              cases taken
              exact small.tail.shorter

end Method2

/-- The three stacks give the minimum and the most recent one of the elements. -/
def MinStacksAgree (calls : List (StackCall Item)) (items : List Item) : Prop :=
  ∃ first second third, runAll Method1.call Method1.new calls = .ok first ∧
    runAll Method2.call Method2.new calls = .ok second ∧
    runAll Method3.call Method3.new calls = .ok third ∧
    ∀ x rest, items = x :: rest → ∃ least count, IsLeast {item | item ∈ items} least ∧
      first.Min = .ok least ∧ second.minTop = .ok (least, count) ∧ third.Min = .ok least ∧
      first.top = .ok x ∧ second.top = .ok x ∧ third.top = .ok x

/-- What `method2::MinStack` has on top of `_min`. -/
theorem minTop_holding (x : Item) (rest : List Item) :
    ∃ count, (Method2.holding (x :: rest)).minTop =
      .ok (leastWith x (minima rest).head?, count) := by
  have onTop := head_runs (x :: rest)
  rw [minima, List.head?_cons] at onTop
  cases listed : runs (x :: rest) with
  | nil => rw [listed] at onTop; cases onTop
  | cons first others =>
      rw [listed] at onTop
      refine ⟨(first.2 : Int), ?_⟩
      rw [Method2.minTop, Method2.holding, listed, ← Option.some.inj onTop]
      rfl

theorem agree_of_neverLong {calls : List (StackCall Item)} {items : List Item}
    (legal : runAll stored [] calls = .ok items) (never : NeverLong [] calls) :
    MinStacksAgree calls items := by
  refine ⟨_, _, _, runAll_of_stored Method1.holding Method1.push_holding (fun _ _ => rfl) legal,
    Method2.runAll_holding (Small.nil _) legal never,
    runAll_of_stored Method3.holding Method3.push_holding (fun _ _ => rfl) legal, ?_⟩
  rintro x rest rfl
  rcases minTop_holding x rest with ⟨count, onTop⟩
  exact ⟨_, count, minima_isLeast x rest, rfl, onTop, rfl, rfl, rfl, rfl⟩

theorem neverLong_of_agree {calls : List (StackCall Item)} {items : List Item}
    (agree : MinStacksAgree calls items) : NeverLong [] calls := by
  rcases agree with ⟨_, second, _, _, ran, _⟩
  exact Method2.neverLong_of_runAll (Small.nil _) ran

/-- Fewer than `2 ^ 31` calls cannot make a run that is too long. -/
theorem neverLong_of_few {calls : List (StackCall Item)} {items : List Item}
    (few : items.length + calls.length < 2 ^ 31) : NeverLong items calls := by
  induction calls generalizing items with
  | nil => trivial
  | cons request rest induction =>
      rw [List.length_cons] at few
      have grown : ∀ after, stored items request = .ok after →
          after.length ≤ items.length + 1 := by
        intro after taken
        cases request with
        | push x =>
            cases taken
            exact Nat.le_refl _
        | pop =>
            cases items with
            | nil => cases taken
            | cons x others =>
                cases taken
                exact Nat.le_add_right _ 2
      refine ⟨fun after taken long => ?_, fun after taken => ?_⟩
      · rcases long with ⟨least, block, below, rfl, length, _⟩
        have bound := grown _ taken
        rw [List.length_append, List.length_cons] at bound
        omega
      · have bound := grown after taken
        exact induction (by omega)

/-- The three stacks agree after legal calls, exactly when no call has left `2 ^ 31` elements on
top of which the lowest is the least. -/
theorem minStacks_agree_iff {calls : List (StackCall Item)} {items : List Item}
    (legal : runAll stored [] calls = .ok items) :
    MinStacksAgree calls items ↔ NeverLong [] calls :=
  ⟨neverLong_of_agree, agree_of_neverLong legal⟩

theorem minStacks_agree_iff_four :
    runAll stored [] [.push (5 : Nat), .push 4, .push 4, .pop] = .ok [4, 5] ∧
      MinStacksAgree [.push 5, .push 4, .push 4, .pop] [4, 5] :=
  ⟨rfl, (minStacks_agree_iff rfl).mpr (neverLong_of_few (by decide))⟩

omit [LinearOrder Item] in
theorem runAll_pushes (x : Item) (count : Nat) (items : List Item) :
    runAll stored items (List.replicate count (.push x)) =
      .ok (List.replicate count x ++ items) := by
  induction count generalizing items with
  | zero => rfl
  | succ count induction =>
      rw [List.replicate_succ, runAll, stored, Outcome.ok_bind, induction, List.replicate_succ',
        List.append_assoc]
      rfl

/-- After so many calls that push one element the run is too long. -/
theorem not_neverLong_pushes (x : Item) : ¬NeverLong [] (List.replicate (2 ^ 31) (.push x)) := by
  have split : 2 ^ 31 = (2 ^ 31 - 1) + 1 := by decide
  generalize 2 ^ 31 - 1 = before at split
  intro never
  rw [split, List.replicate_succ'] at never
  have last := EveryStep.of_append never (runAll_pushes x before [])
  refine last.1 _ rfl ⟨x, List.replicate before x, [], ?_, ?_, ?_⟩
  · rw [List.append_nil, ← List.replicate_succ, ← List.replicate_succ']
  · rw [List.length_replicate, split]
  · intro item member
    rw [List.eq_of_mem_replicate member]

/-- The count of `method2::MinStack` overflows. -/
theorem minStacks_disagree :
    runAll stored [] (List.replicate (2 ^ 31) (.push (0 : Nat))) = .ok (List.replicate (2 ^ 31) 0) ∧
      ¬MinStacksAgree (List.replicate (2 ^ 31) (.push 0)) (List.replicate (2 ^ 31) 0) := by
  constructor
  · rw [runAll_pushes, List.append_nil]
  · exact fun agree => not_neverLong_pushes 0 (neverLong_of_agree agree)

end DataStructAlgorithm.Algorithm.MinStack
