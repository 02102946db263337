import Mathlib.Data.List.Basic
import DataStructAlgorithm.Foundation.Text
import DataStructAlgorithm.Foundation.Outcome

/-! # `StackPopOderIsLegal` of `Algorithm/MinStack/MinStack.hpp`

The function pops as soon as the top of its stack is the next character of the popping order. A
string is given by the characters in front of its zero byte. -/

namespace DataStructAlgorithm.Algorithm.MinStack

open Foundation

/-- `while (!tamp.empty() && *out == tamp.top())`. At the end of `out` stands a zero byte. -/
def popMatching : (tamp out : List Byte) → List Byte × List Byte
  | [], out => ([], out)
  | top :: tamp, out =>
      if out.headD 0 = top then popMatching tamp out.tail else (top :: tamp, out)

/-- `for (; *in != '\0'; in++)`, and the stack that it leaves. -/
def pushEach : (input tamp out : List Byte) → List Byte
  | [], tamp, _ => tamp
  | char :: input, tamp, out =>
      pushEach input (popMatching (char :: tamp) out).1 (popMatching (char :: tamp) out).2

def stackPopOderIsLegal (input out : Option (List Byte)) : Outcome Bool :=
  match input, out with
  | some input, some out =>
      if input.length = out.length then .ok (pushEach input [] out).isEmpty
      else .error .assertion
  | _, _ => .error .assertion

/-! ## Orders that a stack can produce -/

/-- From a stack and the elements that are still to be pushed an order of pops can be produced. -/
inductive Produces {Item : Type} : (stack input out : List Item) → Prop
  | done : Produces [] [] []
  | push {item : Item} {stack input out : List Item} :
      Produces (item :: stack) input out → Produces stack (item :: input) out
  | pop {item : Item} {stack input out : List Item} :
      Produces stack input out → Produces (item :: stack) input (item :: out)

namespace Produces

variable {Item : Type} {stack input out : List Item} {item : Item}

theorem length_eq (produces : Produces stack input out) :
    stack.length + input.length = out.length := by
  induction produces with
  | done => rfl
  | push _ induction =>
      rw [List.length_cons] at induction ⊢
      omega
  | pop _ induction =>
      rw [List.length_cons, List.length_cons]
      omega

/-- A top that is not the next one in the order has to wait. -/
theorem of_different {top : Item} (produces : Produces (top :: stack) input out)
    (different : out.head? ≠ some top) :
    ∃ next rest, input = next :: rest ∧ Produces (next :: top :: stack) rest out := by
  cases produces with
  | push later => exact ⟨_, _, rfl, later⟩
  | pop later => exact absurd rfl different

/-- What is popped first while the top waits is pushed later. -/
theorem first_pushed {stack input out : List Item} {top first : Item}
    (produces : Produces (top :: stack) input (first :: out)) : first = top ∨ first ∈ input := by
  generalize whole : top :: stack = started at produces
  generalize order : first :: out = popped at produces
  induction produces generalizing top stack with
  | done => cases whole
  | push later induction =>
      subst whole
      rcases induction rfl order with rfl | member
      · exact Or.inr List.mem_cons_self
      · exact Or.inr (List.mem_cons_of_mem _ member)
  | pop _ =>
      cases whole
      cases order
      exact Or.inl rfl

end Produces

/-! ## The pops of a run -/

/-- A condition on each pop of the inner loop: on the popped character, and on the stack and the
order behind it. -/
def EveryMatch (holds : Byte → List Byte → List Byte → Prop) : (tamp out : List Byte) → Prop
  | [], _ => True
  | top :: tamp, out => out.headD 0 = top → holds top tamp out.tail ∧ EveryMatch holds tamp out.tail

/-- A condition on each pop of the function. It may also speak about the characters that have not
been pushed. -/
def EveryPop (holds : Byte → (tamp input out : List Byte) → Prop) :
    (input tamp out : List Byte) → Prop
  | [], _, _ => True
  | char :: input, tamp, out =>
      EveryMatch (fun top tamp out => holds top tamp input out) (char :: tamp) out ∧
        EveryPop holds input (popMatching (char :: tamp) out).1 (popMatching (char :: tamp) out).2

/-- The rest of an order that can be produced by another push first can be produced after the pop,
too. -/
def LosesNothing (top : Byte) (tamp input out : List Byte) : Prop :=
  ∀ next rest, input = next :: rest → Produces (next :: top :: tamp) rest (top :: out) →
    Produces tamp input out

theorem headD_eq {top : Byte} {out : List Byte} (plain : top ≠ 0) (same : out.headD 0 = top) :
    out = top :: out.tail := by
  cases out with
  | nil => exact absurd same.symm plain
  | cons first rest => exact congrArg (· :: rest) same

theorem popMatching_same {top : Byte} {tamp out : List Byte} (same : out.headD 0 = top) :
    popMatching (top :: tamp) out = popMatching tamp out.tail := by
  rw [popMatching, if_pos same]

theorem popMatching_different {top : Byte} {tamp out : List Byte} (different : ¬out.headD 0 = top) :
    popMatching (top :: tamp) out = (top :: tamp, out) := by
  rw [popMatching, if_neg different]

section Matching

variable {tamp out input : List Byte}

theorem popMatching_subset (tamp out : List Byte) : (popMatching tamp out).1 ⊆ tamp := by
  induction tamp generalizing out with
  | nil => exact List.Subset.refl _
  | cons top tamp induction =>
      by_cases same : out.headD 0 = top
      · rw [popMatching_same same]
        exact List.Subset.trans (induction out.tail) (List.subset_cons_self top tamp)
      · rw [popMatching_different same]
        exact List.Subset.refl _

/-- The loop ends at a top that is not the next character. -/
theorem popMatching_stuck {top : Byte} {rest : List Byte} (plain : 0 ∉ tamp)
    (left : (popMatching tamp out).1 = top :: rest) :
    (popMatching tamp out).2.head? ≠ some top := by
  induction tamp generalizing out with
  | nil => cases left
  | cons first tamp induction =>
      by_cases same : out.headD 0 = first
      · rw [popMatching_same same] at left ⊢
        exact induction (fun member => plain (List.mem_cons_of_mem first member)) left
      · rw [popMatching_different same] at left ⊢
        cases left
        intro next
        refine same ?_
        rw [List.headD_eq_head?_getD, next]
        rfl

theorem popMatching_length (plain : 0 ∉ tamp) (out : List Byte) :
    (popMatching tamp out).1.length + out.length =
      tamp.length + (popMatching tamp out).2.length := by
  induction tamp generalizing out with
  | nil => rfl
  | cons top tamp induction =>
      rw [List.mem_cons, not_or] at plain
      by_cases same : out.headD 0 = top
      · have lengths := induction plain.2 out.tail
        have split := congrArg List.length (headD_eq (Ne.symm plain.1) same)
        rw [List.length_cons] at split
        rw [popMatching_same same, List.length_cons]
        omega
      · rw [popMatching_different same]

/-- What can be produced after the loop can be produced before it. -/
theorem produces_of_popMatching (plain : 0 ∉ tamp)
    (after : Produces (popMatching tamp out).1 input (popMatching tamp out).2) :
    Produces tamp input out := by
  induction tamp generalizing out with
  | nil => exact after
  | cons top tamp induction =>
      rw [List.mem_cons, not_or] at plain
      by_cases same : out.headD 0 = top
      · rw [popMatching_same same] at after
        rw [headD_eq (Ne.symm plain.1) same]
        exact (induction plain.2 after).pop
      · rw [popMatching_different same] at after
        exact after

/-- The inner loop keeps the order possible exactly when none of its pops loses it. -/
theorem everyMatch_iff (plain : 0 ∉ tamp) :
    EveryMatch (fun top tamp out => LosesNothing top tamp input out) tamp out ↔
      (Produces tamp input out →
        Produces (popMatching tamp out).1 input (popMatching tamp out).2) := by
  induction tamp generalizing out with
  | nil => exact ⟨fun _ produces => produces, fun _ => trivial⟩
  | cons top tamp induction =>
      rw [List.mem_cons, not_or] at plain
      by_cases same : out.headD 0 = top
      · have split := headD_eq (Ne.symm plain.1) same
        rw [popMatching_same same]
        constructor
        · intro every produces
          rcases every same with ⟨loses, others⟩
          refine (induction plain.2).mp others ?_
          rw [split] at produces
          cases produces with
          | push later => exact loses _ _ rfl later
          | pop later => exact later
        · intro keeps _
          constructor
          · rintro next rest rfl later
            rw [← split] at later
            exact produces_of_popMatching plain.2 (keeps later.push)
          · refine (induction plain.2).mpr fun produces => keeps ?_
            rw [split]
            exact produces.pop
      · rw [popMatching_different same]
        exact ⟨fun _ produces => produces, fun _ matched => absurd matched same⟩

end Matching

/-! ## The whole function -/

section Function

variable {input tamp out : List Byte}

theorem plain_next {char : Byte} (out : List Byte) (inputPlain : 0 ∉ char :: input)
    (tampPlain : 0 ∉ tamp) :
    0 ∉ char :: tamp ∧ 0 ∉ input ∧ 0 ∉ (popMatching (char :: tamp) out).1 := by
  rw [List.mem_cons, not_or] at inputPlain
  have whole : 0 ∉ char :: tamp := by
    rw [List.mem_cons, not_or]
    exact ⟨inputPlain.1, tampPlain⟩
  exact ⟨whole, inputPlain.2, fun member => whole (popMatching_subset _ _ member)⟩

/-- An emptied stack shows how the order is produced. -/
theorem produces_of_pushEach (inputPlain : 0 ∉ input) (tampPlain : 0 ∉ tamp)
    (lengths : tamp.length + input.length = out.length) (emptied : pushEach input tamp out = []) :
    Produces tamp input out := by
  induction input generalizing tamp out with
  | nil =>
      rw [pushEach] at emptied
      subst emptied
      cases out with
      | nil => exact Produces.done
      | cons first rest => cases lengths
  | cons char input induction =>
      rcases plain_next out inputPlain tampPlain with ⟨whole, rest, left⟩
      have popped := popMatching_length whole out
      rw [List.length_cons] at lengths popped
      have later := induction rest left (by omega) emptied
      exact (produces_of_popMatching whole later).push

/-- The function empties its stack for an order that can be produced, exactly when none of its
pops loses the order. -/
theorem everyPop_iff (inputPlain : 0 ∉ input) (tampPlain : 0 ∉ tamp)
    (lengths : tamp.length + input.length = out.length)
    (stuck : ∀ top rest, tamp = top :: rest → out.head? ≠ some top) :
    EveryPop LosesNothing input tamp out ↔
      (Produces tamp input out → pushEach input tamp out = []) := by
  induction input generalizing tamp out with
  | nil =>
      refine ⟨fun _ produces => ?_, fun _ => trivial⟩
      cases tamp with
      | nil => rfl
      | cons top rest =>
          rcases produces.of_different (stuck top rest rfl) with ⟨_, _, missing, _⟩
          cases missing
  | cons char input induction =>
      rcases plain_next out inputPlain tampPlain with ⟨whole, rest, left⟩
      have popped := popMatching_length whole out
      rw [List.length_cons] at lengths popped
      have later := induction rest left (by omega) fun top tail => popMatching_stuck whole
      have pushed : Produces tamp (char :: input) out → Produces (char :: tamp) input out := by
        intro produces
        cases produces with
        | push next => exact next
        | pop next => exact absurd rfl (stuck _ _ rfl)
      rw [EveryPop, everyMatch_iff whole, later, pushEach]
      constructor
      · rintro ⟨inner, outer⟩ produces
        exact outer (inner (pushed produces))
      · intro empties
        constructor
        · intro produces
          exact produces_of_pushEach rest left (by omega) (empties produces.push)
        · intro produces
          exact empties (produces_of_popMatching whole produces).push

/-- What the function should decide. -/
def DecidesOrder (input out : List Byte) : Prop :=
  ∃ legal, stackPopOderIsLegal (some input) (some out) = .ok legal ∧
    (legal = true ↔ Produces [] input out)

theorem decidesOrder_iff (plain : 0 ∉ input) (lengths : input.length = out.length) :
    DecidesOrder input out ↔ (Produces [] input out → pushEach input [] out = []) := by
  have returned : stackPopOderIsLegal (some input) (some out) =
      .ok (pushEach input [] out).isEmpty := if_pos lengths
  have sound : pushEach input [] out = [] → Produces [] input out :=
    produces_of_pushEach plain List.not_mem_nil (by rw [List.length_nil, Nat.zero_add, lengths])
  constructor
  · rintro ⟨legal, same, decides⟩ produces
    rw [returned] at same
    cases same
    exact List.isEmpty_iff.mp (decides.mpr produces)
  · intro complete
    refine ⟨_, returned, ?_⟩
    rw [List.isEmpty_iff]
    exact ⟨sound, complete⟩

/-- For the whole run, which starts with an empty stack. -/
theorem everyPop_start_iff (plain : 0 ∉ input) (lengths : input.length = out.length) :
    EveryPop LosesNothing input [] out ↔ (Produces [] input out → pushEach input [] out = []) := by
  apply everyPop_iff plain List.not_mem_nil
  · rw [List.length_nil, Nat.zero_add, lengths]
  · intro top rest missing
    cases missing

/-! ## Strings without repeated characters -/

theorem losesNothing_of_absent {top : Byte} (absent : top ∉ input) :
    LosesNothing top tamp input out := by
  rintro next rest rfl later
  rcases later.first_pushed with rfl | member
  · exact absurd List.mem_cons_self absent
  · exact absurd (List.mem_cons_of_mem next member) absent

theorem everyMatch_of_absent (absent : ∀ top ∈ tamp, top ∉ input) :
    EveryMatch (fun top tamp out => LosesNothing top tamp input out) tamp out := by
  induction tamp generalizing out with
  | nil => trivial
  | cons top tamp induction =>
      refine fun _ => ⟨losesNothing_of_absent (absent top List.mem_cons_self), ?_⟩
      exact induction fun other member => absent other (List.mem_cons_of_mem top member)

theorem everyPop_of_nodup (different : input.Nodup) (absent : ∀ top ∈ tamp, top ∉ input) :
    EveryPop LosesNothing input tamp out := by
  induction input generalizing tamp out with
  | nil => trivial
  | cons char input induction =>
      rw [List.nodup_cons] at different
      have next : ∀ top ∈ char :: tamp, top ∉ input := by
        intro top member
        rcases List.mem_cons.mp member with rfl | member
        · exact different.1
        · exact fun later => absent top member (List.mem_cons_of_mem char later)
      refine ⟨everyMatch_of_absent next, induction different.2 fun top member => ?_⟩
      exact next top (popMatching_subset _ _ member)

/-- Without repeated characters the function always decides. -/
theorem decidesOrder_of_nodup (plain : 0 ∉ input) (lengths : input.length = out.length)
    (different : input.Nodup) : DecidesOrder input out := by
  rw [decidesOrder_iff plain lengths, ← everyPop_start_iff plain lengths]
  exact everyPop_of_nodup different fun top member => by cases member

/-- The function decides whether the order can be produced, exactly when it never pops a character
that has to stay because one after it is popped in its place. -/
theorem stackPopOderIsLegal_iff (plain : 0 ∉ input) (lengths : input.length = out.length) :
    DecidesOrder input out ↔ EveryPop LosesNothing input [] out :=
  (decidesOrder_iff plain lengths).trans (everyPop_start_iff plain lengths).symm

theorem stackPopOderIsLegal_iff_three : DecidesOrder (ascii "abc") (ascii "bac") :=
  (stackPopOderIsLegal_iff (by decide) (by decide)).mpr
    (everyPop_of_nodup (by decide) fun top member => by cases member)

/-- The first `c` is popped at once, but has to stay below the `a`. -/
theorem stackPopOderIsLegal_refuses :
    stackPopOderIsLegal (some (ascii "cacb")) (some (ascii "cbac")) = .ok false ∧
      ¬DecidesOrder (ascii "cacb") (ascii "cbac") := by
  have returned : stackPopOderIsLegal (some (ascii "cacb")) (some (ascii "cbac")) = .ok false := by
    decide
  have input : ascii "cacb" = [99, 97, 99, 98] := by decide
  have order : ascii "cbac" = [99, 98, 97, 99] := by decide
  have produced : Produces [] (ascii "cacb") (ascii "cbac") := by
    rw [input, order]
    exact .push (.push (.push (.pop (.push (.pop (.pop (.pop .done)))))))
  refine ⟨returned, ?_⟩
  rintro ⟨legal, same, decides⟩
  rw [returned] at same
  cases same
  exact absurd (decides.mpr produced) (by decide)

end Function

end DataStructAlgorithm.Algorithm.MinStack
