import Mathlib.Algebra.Group.Nat.Defs
import Mathlib.Order.RelClasses
import DataStructAlgorithm.Foundation.Conversions
import DataStructAlgorithm.Foundation.Transition
import DataStructAlgorithm.Foundation.Ordering
import DataStructAlgorithm.FileComPress.Heap

/-! # Runs on a heap of any size

`Pop` keeps the size in an `int`, and `_AdjustUp` the index of the parent. The versions here
convert as the source does; up to a certain size they are the ones without. -/

namespace DataStructAlgorithm.FileComPress.Heap

open Foundation

variable {T : Type}

section Operations

variable (cmp : T → T → Outcome Bool)

/-- One pass of the loop of `_AdjustUp`, with `int parent`. -/
def upPassInt (state : Heap T × Nat) : Outcome (Pass (Heap T × Nat) (Heap T)) :=
  match state with
  | (heap, child) =>
      if child > 0 then do
        let parent := toInt ((child - 1) / 2 : Nat)
        let childValue ← readAt heap child
        let parentValue ← readAt heap (toSize parent)
        if ← cmp childValue parentValue then do
          let heap ← swap heap child (toSize parent)
          pure (.again (heap, toSize parent))
        else pure (.leave heap)
      else .ok (.leave heap)

/-- `_AdjustUp`, with `int parent`. -/
def adjustUpInt (fuel : Nat) (heap : Heap T) (child : Nat) : Outcome (Heap T) :=
  if child < heap.length then repeatLoop (upPassInt cmp) fuel (heap, child) else .error .assertion

/-- `Push`, with the `int` of `_AdjustUp`. -/
def pushInt (fuel : Nat) (heap : Heap T) (d : T) : Outcome (Heap T) :=
  let heap := heap ++ [d]
  adjustUpInt cmp fuel heap (heap.length - 1)

/-- `Pop`, with `int sz`. -/
def popInt (fuel : Nat) (heap : Heap T) : Outcome (Heap T) :=
  let sz := toInt heap.length
  if sz > 1 then do
    let heap ← swap heap 0 (toSize (sz - 1))
    adjustDown cmp fuel heap.dropLast 0
  else if heap = [] then .error .outOfRange
  else .ok heap.dropLast

/-- One pass of the `for` loop of the constructor. -/
def buildPass (fuel : Nat) (state : Heap T × Int) : Outcome (Pass (Heap T × Int) (Heap T)) :=
  match state with
  | (heap, i) =>
      if i ≥ 0 then do
        let heap ← adjustDown cmp fuel heap (toSize i)
        pure (.again (heap, i - 1))
      else .ok (.leave heap)

/-- The constructor from an array. -/
def ofArray (fuel : Nat) (arr : List T) (size : Int) : Outcome (Heap T) :=
  if size > 0 then
    if size ≤ arr.length then
      repeatLoop (buildPass cmp fuel) fuel (arr.take size.toNat, (size - 2).tdiv 2)
    else .error .outOfRange
  else .error .assertion

end Operations

variable {cmp : T → T → Outcome Bool} {heap : Heap T}

/-! ## Sizes in the range of `int` -/

theorem upPassInt_eq {child : Nat} (small : child ≤ 2 ^ 32) :
    upPassInt cmp (heap, child) = upPass cmp (heap, child) := by
  have parent : toInt ((child - 1) / 2 : Nat) = ((child - 1) / 2 : Nat) :=
    toInt_eq (by omega) (by omega)
  have index : toSize ((child - 1) / 2 : Nat) = (child - 1) / 2 := toSize_natCast (by omega)
  simp only [upPassInt, upPass, parent, index]

theorem upPass_smaller {child : Nat} {next : Heap T × Nat}
    (pass : upPass cmp (heap, child) = .ok (.again next)) : next.2 ≤ child := by
  rw [upPass] at pass
  split at pass
  next =>
    rcases Outcome.bind_eq_ok pass with ⟨childValue, _, rest⟩
    rcases Outcome.bind_eq_ok rest with ⟨parentValue, _, rest⟩
    rcases Outcome.bind_eq_ok rest with ⟨smaller, _, rest⟩
    split at rest
    next =>
      rcases Outcome.bind_eq_ok rest with ⟨after, _, done⟩
      cases done
      simp only
      omega
    next => cases rest
  next => cases pass

theorem pushInt_eq (small : heap.length ≤ 2 ^ 32) (fuel : Nat) (d : T) :
    pushInt cmp fuel heap d = push cmp fuel heap d := by
  have last : (heap ++ [d]).length - 1 = heap.length := by simp
  rw [pushInt, push, adjustUpInt, adjustUp, last]
  split
  · refine repeatLoop_congr (fun state : Heap T × Nat => state.2 ≤ 2 ^ 32) ?_ ?_ fuel _ small
    · rintro ⟨now, child⟩ within
      exact upPassInt_eq within
    · rintro ⟨now, child⟩ next within pass
      exact (upPass_smaller pass).trans within
  · rfl

theorem popInt_eq (small : heap.length < 2 ^ 31) (fuel : Nat) :
    popInt cmp fuel heap = pop cmp fuel heap := by
  have size : toInt heap.length = heap.length := toInt_eq (by omega) (by omega)
  rw [popInt, pop, size]
  by_cases several : heap.length > 1
  · have index : toSize (heap.length - 1) = heap.length - 1 :=
      toSize_sub (show 1 ≤ heap.length by omega) (by omega)
    rw [if_pos (by omega), if_pos several, index]
  · rw [if_neg (by omega), if_neg several]
    by_cases empty : heap = []
    · rw [if_pos empty, empty]
      rfl
    · have positive := List.length_pos_iff.mpr empty
      rw [if_neg empty, if_pos (by omega)]

/-! ## The constructor -/

variable {Key : Type} [LinearOrder Key] {key : T → Key}

theorem ofArray_spec {arr : List T} (compares : Compares cmp key arr) (nonempty : arr ≠ [])
    (isInt : arr.length < 2 ^ 31) (fuel : Nat) (enough : arr.length < fuel) :
    ∃ heap, ofArray cmp fuel arr arr.length = .ok heap ∧ heap.Perm arr ∧ Ordered key heap := by
  have positive := List.length_pos_iff.mpr nonempty
  have start : ((arr.length : Int) - 2).tdiv 2 = ((arr.length - 2) / 2 : Nat) := by
    by_cases single : arr.length = 1
    · rw [single]
      rfl
    · rw [Int.tdiv_eq_ediv_of_nonneg (by omega)]
      omega
  rw [ofArray, if_pos (by omega), if_pos (le_refl _), start, Int.toNat_natCast, List.take_length]
  have untouched : HeapFrom key (arr[·]?) (((arr.length - 2) / 2 : Nat) + 1 : Int).toNat := by
    intro child childPositive inside upper lower _ lowerFound
    have within : child < arr.length := (List.getElem?_eq_some_iff.mp lowerFound).1
    omega
  have leave : ∀ now : Heap T, buildPass cmp fuel (now, -1) = .ok (.leave now) := fun _ => rfl
  simp only [ordered_iff]
  refine build_heap (fun now index => now[index]?) (fun now => now.Perm arr) ?_ leave
    (.refl arr) (by omega) untouched fuel (by omega)
  intro now parent below same sinking
  have index : toSize parent = parent := toSize_natCast (by omega)
  rcases adjustDown_from (compares.perm same) sinking fuel (by rwa [same.length_eq]) with
    ⟨after, ran, moved, done⟩
  refine ⟨after, ?_, moved.trans same, done⟩
  rw [buildPass, if_pos (Int.natCast_nonneg parent), index, ran, Outcome.ok_bind]
  rfl

/-! ## Runs -/

inductive Call (T : Type)
  | push (d : T)
  | pop
  deriving Repr

/-- The elements that are pushed. -/
def pushes (calls : List (Call T)) : List T :=
  calls.filterMap fun
    | .push d => some d
    | .pop => none

variable (cmp) in
/-- A call by a user who reads `Top` before each `Pop` and keeps what has been on top. -/
def step (fuel : Nat) (state : Heap T × List T) (call : Call T) : Outcome (Heap T × List T) :=
  match state, call with
  | (heap, popped), .push d => do
      let heap ← pushInt cmp fuel heap d
      pure (heap, popped)
  | (heap, popped), .pop => do
      let first ← top heap
      let heap ← popInt cmp fuel heap
      pure (heap, popped ++ [first])

variable (cmp) in
/-- A new heap, from an array unless there are no elements. -/
def made (fuel : Nat) (arr : List T) : Outcome (Heap T) :=
  match arr with
  | [] => .ok []
  | first :: rest => ofArray cmp fuel (first :: rest) (first :: rest).length

/-- `Pop` is called on a heap that is not empty, and the sizes fit the variables of type
`int`. -/
def Fits (state : Heap T × List T) (call : Call T) : Prop :=
  match call with
  | .push _ => state.1.length ≤ 2 ^ 32
  | .pop => state.1 ≠ [] ∧ state.1.length < 2 ^ 31

instance (state : Heap T × List T) (call : Call T) [DecidableEq T] : Decidable (Fits state call) :=
  match call with
  | .push _ => inferInstanceAs (Decidable (_ ≤ _))
  | .pop => inferInstanceAs (Decidable (_ ∧ _))

/-- The comparison by a functor that does not fail. -/
def compare (less : T → T → Prop) [DecidableRel less] (left right : T) : Outcome Bool :=
  .ok (decide (less left right))

variable {less : T → T → Prop} [DecidableRel less] [IsStrictWeakOrder T less]

theorem compare_compares (less : T → T → Prop) [DecidableRel less] [IsStrictWeakOrder T less]
    (heap : Heap T) : Compares (compare less) (rank less) heap :=
  fun left _ right _ => by
    rw [compare]
    congr

theorem made_spec (less : T → T → Prop) [DecidableRel less] [IsStrictWeakOrder T less]
    {arr : List T} (isInt : arr.length < 2 ^ 31) (fuel : Nat)
    (enough : arr.length < fuel) :
    ∃ heap, made (compare less) fuel arr = .ok heap ∧ heap.Perm arr ∧ Ordered (rank less) heap := by
  cases arr with
  | nil =>
      refine ⟨[], rfl, .refl _, ?_⟩
      intro child _ upper lower upperFound _
      simp at upperFound
  | cons first rest => exact ofArray_spec (compare_compares less _) (by simp) isInt fuel enough

/-- One call keeps the order and adds or removes the right element. -/
theorem step_spec {heap : Heap T} {popped : List T} {call : Call T}
    (ordered : Ordered (rank less) heap) (fits : Fits (heap, popped) call) (fuel : Nat)
    (enough : heap.length < fuel) :
    ∃ after taken, step (compare less) fuel (heap, popped) call = .ok (after, popped ++ taken) ∧
      (taken ++ after).Perm (heap ++ pushes [call]) ∧ Ordered (rank less) after := by
  cases call with
  | push d =>
      rcases push_spec d (compare_compares less (d :: heap)) ordered fuel enough with
        ⟨after, ran, same, done⟩
      refine ⟨after, [], ?_, same.trans (List.perm_append_singleton d heap).symm, done⟩
      rw [step, pushInt_eq fits, ran, Outcome.ok_bind, List.append_nil]
      rfl
  | pop =>
      rcases pop_spec (compare_compares less heap) ordered fits.1 fuel enough with
        ⟨first, after, onTop, ran, same, done, _⟩
      refine ⟨after, [first], ?_, ?_, done⟩
      · rw [step, onTop, Outcome.ok_bind, popInt_eq fits.2, ran, Outcome.ok_bind]
        rfl
      · simpa [pushes] using same

theorem pushes_cons (call : Call T) (calls : List (Call T)) :
    pushes (call :: calls) = pushes [call] ++ pushes calls := by
  cases call with
  | push d => rfl
  | pop => rfl

theorem run_spec (fuel : Nat) (calls : List (Call T)) : ∀ (heap : Heap T) (popped : List T),
    Ordered (rank less) heap → heap.length + calls.length < fuel →
    EveryStep (step (compare less) fuel) Fits (heap, popped) calls →
    ∃ final taken, runAll (step (compare less) fuel) (heap, popped) calls =
        .ok (final, popped ++ taken) ∧
      (taken ++ final).Perm (heap ++ pushes calls) ∧ Ordered (rank less) final := by
  induction calls with
  | nil =>
      intro heap popped ordered _ _
      refine ⟨heap, [], ?_, ?_, ordered⟩
      · rw [List.append_nil]
        rfl
      · rw [pushes, List.filterMap_nil, List.append_nil]
        exact .refl heap
  | cons call calls induction =>
      intro heap popped ordered enough every
      rw [List.length_cons] at enough
      rcases step_spec ordered every.1 fuel (by omega) with
        ⟨after, first, taken, same, afterOrdered⟩
      have grows : (pushes [call]).length ≤ 1 := List.length_filterMap_le _ _
      have sizes := same.length_eq
      rw [List.length_append, List.length_append] at sizes
      rcases induction after (popped ++ first) afterOrdered (by omega) (every.2 _ taken) with
        ⟨final, rest, run, laterSame, done⟩
      refine ⟨final, first ++ rest, ?_, ?_, done⟩
      · rw [runAll, taken, Outcome.ok_bind, run, List.append_assoc]
      · rw [pushes_cons, List.append_assoc, ← List.append_assoc heap]
        exact (laterSame.append_left first).trans
          (List.append_assoc first after _ ▸ same.append_right (pushes calls))

/-- Popping until the heap is empty yields the elements in order. -/
theorem drain_spec (fuel count : Nat) : ∀ (heap : Heap T) (popped : List T), heap.length = count →
    Ordered (rank less) heap → count < 2 ^ 31 → count < fuel →
    ∃ sorted, runAll (step (compare less) fuel) (heap, popped) (List.replicate count .pop) =
        .ok ([], popped ++ sorted) ∧
      sorted.Perm heap ∧ sorted.Pairwise fun earlier later => ¬less later earlier := by
  induction count with
  | zero =>
      intro heap popped empty _ _ _
      rw [List.length_eq_zero_iff] at empty
      subst empty
      refine ⟨[], ?_, .refl _, .nil⟩
      rw [List.append_nil]
      rfl
  | succ count induction =>
      intro heap popped length ordered isInt enough
      have nonempty : heap ≠ [] := by
        rintro rfl
        cases length
      rcases pop_spec (compare_compares less heap) ordered nonempty fuel (by omega) with
        ⟨first, after, onTop, ran, same, afterOrdered, lowest⟩
      have sizes := same.length_eq
      rw [List.length_cons] at sizes
      rcases induction after (popped ++ [first]) (by omega) afterOrdered (by omega) (by omega) with
        ⟨sorted, run, sortedSame, pairwise⟩
      have taken : step (compare less) fuel (heap, popped) .pop =
          .ok (after, popped ++ [first]) := by
        rw [step, onTop, Outcome.ok_bind, popInt_eq (by omega), ran, Outcome.ok_bind]
        rfl
      refine ⟨first :: sorted, ?_, (sortedSame.cons first).trans same, pairwise.cons ?_⟩
      · rw [List.replicate_succ, runAll, taken, Outcome.ok_bind, run, List.append_assoc]
        rfl
      · intro later member
        have inside := same.mem_iff.mp (List.mem_cons_of_mem first (sortedSame.mem_iff.mp member))
        exact rank_le_iff.mp (lowest later inside)

/-- In every run whose calls fit the variables of type `int`, the heap holds what has been pushed
and not been on top of a `Pop`, no element precedes its parent, and none precedes `Top`; popping
until the heap is empty sorts. -/
theorem run_keeps {arr : List T} (isInt : arr.length < 2 ^ 31) (calls : List (Call T)) (fuel : Nat)
    (enough : arr.length + calls.length < fuel) :
    ∃ start, made (compare less) fuel arr = .ok start ∧
      (EveryStep (step (compare less) fuel) Fits (start, []) calls →
        ∃ heap popped, runAll (step (compare less) fuel) (start, []) calls = .ok (heap, popped) ∧
          (popped ++ heap).Perm (arr ++ pushes calls) ∧
          (∀ child > 0, ∀ upper lower, heap[(child - 1) / 2]? = some upper →
            heap[child]? = some lower → ¬less lower upper) ∧
          (∀ first, top heap = .ok first → ∀ value ∈ heap, ¬less value first) ∧
          (heap.length < 2 ^ 31 → ∃ sorted,
            runAll (step (compare less) fuel) (heap, popped) (List.replicate heap.length .pop) =
              .ok ([], popped ++ sorted) ∧
            sorted.Perm heap ∧ sorted.Pairwise fun earlier later => ¬less later earlier)) := by
  rcases made_spec less isInt fuel (by omega) with ⟨start, making, same, ordered⟩
  have size := same.length_eq
  refine ⟨start, making, fun every => ?_⟩
  rcases run_spec fuel calls start [] ordered (by omega) every with
    ⟨heap, popped, run, elements, done⟩
  have grows : (pushes calls).length ≤ calls.length := List.length_filterMap_le _ _
  have sizes := elements.length_eq
  rw [List.length_append, List.length_append] at sizes
  refine ⟨heap, popped, run, elements.trans (same.append_right _), ?_, ?_, ?_⟩
  · intro child positive upper lower upperFound lowerFound
    exact rank_le_iff.mp (done child positive upper lower upperFound lowerFound)
  · intro first onTop value member
    cases heap with
    | nil => cases onTop
    | cons head tail =>
        cases onTop
        rcases List.mem_iff_getElem?.mp member with ⟨index, found⟩
        exact rank_le_iff.mp (done.first_le rfl index found)
  · intro small
    exact drain_spec fuel heap.length heap popped rfl done small (by omega)

theorem run_keeps_three :
    ∃ heap popped, runAll (step (compare (· < · : Nat → Nat → Prop)) 10) ([1, 3, 2], [])
        [.push 0, .pop] = .ok (heap, popped) ∧ (popped ++ heap).Perm [3, 1, 2, 0] := by
  have weak : IsStrictWeakOrder Nat (· < ·) := isStrictWeakOrder_of_isOrderConnected
  rcases @run_keeps Nat (· < ·) _ weak [3, 1, 2] (by decide) [.push 0, .pop] 10 (by decide) with
    ⟨start, making, keeps⟩
  have isStart : made (compare (· < · : Nat → Nat → Prop)) 10 [3, 1, 2] = .ok [1, 3, 2] := by decide
  cases making.symm.trans isStart
  rcases keeps (by decide) with ⟨heap, popped, run, same, _⟩
  exact ⟨heap, popped, run, same⟩

/-! ## A size beyond the range of `int` -/

/-- Pushing an element that is not less than any other. -/
theorem push_one {count fuel : Nat} (small : count + 1 ≤ 2 ^ 32) (positive : 0 < fuel) :
    pushInt (compare (· < · : Nat → Nat → Prop)) fuel (0 :: List.replicate count 1) 1 =
      .ok (0 :: List.replicate (count + 1) 1) := by
  have length : (0 :: List.replicate count 1).length = count + 1 := by simp
  have appended : 0 :: List.replicate count 1 ++ [1] = 0 :: List.replicate (count + 1) 1 := by
    rw [List.replicate_succ', List.cons_append]
  have within : count + 1 < (0 :: List.replicate (count + 1) 1).length := by simp
  have atEnd : (0 :: List.replicate (count + 1) 1)[count + 1]? = some 1 := by simp
  have parent := List.getElem?_eq_getElem (l := 0 :: List.replicate (count + 1) 1)
    (i := (count + 1 - 1) / 2) (by omega)
  generalize (0 :: List.replicate (count + 1) 1)[(count + 1 - 1) / 2] = value at parent
  have atMost : value ≤ 1 := by
    have member := List.mem_of_getElem? parent
    rw [List.mem_cons, List.mem_replicate] at member
    omega
  have compared : compare (· < · : Nat → Nat → Prop) 1 value = .ok false := by
    rw [compare, decide_eq_false (not_lt.mpr atMost)]
  have pass : upPass (compare (· < · : Nat → Nat → Prop))
      (0 :: List.replicate (count + 1) 1, count + 1) =
      .ok (.leave (0 :: List.replicate (count + 1) 1)) := by
    simp only [upPass, if_pos (Nat.succ_pos count), readAt_of_getElem? atEnd,
      readAt_of_getElem? parent, Outcome.ok_bind, compared]
    rfl
  have more : ∃ rest, fuel = rest + 1 := ⟨fuel - 1, by omega⟩
  rcases more with ⟨rest, rfl⟩
  rw [pushInt_eq (by omega), push, appended, adjustUp, List.length_cons, List.length_replicate,
    Nat.add_sub_cancel, if_pos (by omega)]
  exact repeatLoop_leave rest pass

theorem push_ones {fuel : Nat} (positive : 0 < fuel) (more count : Nat)
    (small : count + more ≤ 2 ^ 32) :
    runAll (step (compare (· < · : Nat → Nat → Prop)) fuel) (0 :: List.replicate count 1, [])
        (List.replicate more (.push 1)) = .ok (0 :: List.replicate (count + more) 1, []) := by
  induction more generalizing count with
  | zero => rfl
  | succ more induction =>
      rw [List.replicate_succ, runAll, step, push_one (by omega) positive, Outcome.ok_bind]
      show runAll _ (0 :: List.replicate (count + 1) 1, []) _ = _
      rw [induction (count + 1) (by omega), Nat.add_assoc, Nat.add_comm 1 more]

/-- When the number of the elements does not fit, `Pop` removes the last element in place of the
one that `Top` returned. -/
theorem pop_last {count fuel : Nat} (positive : 0 < fuel) (more : 0 < count)
    (small : count ≤ 2 ^ 32) (wraps : toInt (count + 1 : Nat) ≤ 1) :
    ∃ heap popped, runAll (step (compare (· < · : Nat → Nat → Prop)) fuel) ([], [])
        (.push 0 :: List.replicate count (.push 1) ++ [.pop]) = .ok (heap, popped) ∧
      popped = [0] ∧
      ¬(popped ++ heap).Perm (pushes (.push 0 :: List.replicate count (.push 1) ++ [.pop])) := by
  refine ⟨0 :: List.replicate (count - 1) 1, [0], ?_, rfl, ?_⟩
  · have pushed : runAll (step (compare (· < · : Nat → Nat → Prop)) fuel) ([], [])
        (.push 0 :: List.replicate count (.push 1)) = .ok (0 :: List.replicate count 1, []) := by
      have first : step (compare (· < · : Nat → Nat → Prop)) fuel ([], []) (.push 0) =
          .ok ([0], []) := by
        rcases (⟨fuel - 1, by omega⟩ : ∃ rest, fuel = rest + 1) with ⟨rest, rfl⟩
        rfl
      have others := push_ones positive count 0 (by omega)
      rw [Nat.zero_add] at others
      rw [runAll, first, Outcome.ok_bind]
      exact others
    have popped : step (compare (· < · : Nat → Nat → Prop)) fuel (0 :: List.replicate count 1, [])
        .pop = .ok (0 :: List.replicate (count - 1) 1, [0]) := by
      have cut : (0 :: List.replicate count 1).dropLast = 0 :: List.replicate (count - 1) 1 := by
        rw [List.dropLast_cons_of_ne_nil (by simp; omega), List.dropLast_replicate]
      have removed : popInt (compare (· < · : Nat → Nat → Prop)) fuel
          (0 :: List.replicate count 1) =
          .ok (0 :: List.replicate (count - 1) 1) := by
        rw [popInt, List.length_cons, List.length_replicate, if_neg (not_lt.mpr wraps),
          if_neg (List.cons_ne_nil _ _), cut]
      rw [step, top, Outcome.ok_bind, removed]
      rfl
    rw [runAll_of_append pushed, runAll, popped]
    rfl
  · intro same
    have zeros := same.count_eq 0
    have all : pushes (.push 0 :: List.replicate count (.push 1) ++ [.pop]) =
        0 :: List.replicate count 1 := by
      simp [pushes]
    rw [all] at zeros
    simp [List.count_replicate] at zeros

/-- After one push of 0 and `2 ^ 31 - 1` pushes of 1, `Pop` does not remove the 0 that `Top`
returned. -/
theorem pop_of_large_heap :
    ∃ heap popped, runAll (step (compare (· < · : Nat → Nat → Prop)) (2 ^ 31 + 2)) ([], [])
        (.push 0 :: List.replicate (2 ^ 31 - 1) (.push 1) ++ [.pop]) = .ok (heap, popped) ∧
      popped = [0] ∧
      ¬(popped ++ heap).Perm
        (pushes (.push 0 :: List.replicate (2 ^ 31 - 1) (.push 1) ++ [.pop])) :=
  pop_last (by decide) (by decide) (by decide) (by decide)

end DataStructAlgorithm.FileComPress.Heap
