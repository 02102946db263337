import Mathlib.Data.List.Perm.Basic
import DataStructAlgorithm.Foundation.HeapOrder
import DataStructAlgorithm.Foundation.Slots

/-! # The binary heap of `FileComPress/heap.h`

The comparison is an argument. It can fail, because a functor of pointers reads what they
point to. -/

namespace DataStructAlgorithm.FileComPress

open Foundation

/-- The member `_heap`. -/
abbrev Heap (T : Type) := List T

namespace Heap

variable {T : Type}

/-- `std::swap` of two slots. -/
def swap (heap : Heap T) (i j : Nat) : Outcome (Heap T) := do
  let first ← readAt heap i
  let second ← readAt heap j
  let heap ← writeAt heap i second
  writeAt heap j first

variable (cmp : T → T → Outcome Bool)

/-- One pass of the loop of `_AdjustUp`. -/
def upPass (state : Heap T × Nat) : Outcome (Pass (Heap T × Nat) (Heap T)) :=
  match state with
  | (heap, child) =>
      if child > 0 then do
        let parent := (child - 1) / 2
        let childValue ← readAt heap child
        let parentValue ← readAt heap parent
        if ← cmp childValue parentValue then do
          let heap ← swap heap child parent
          pure (.again (heap, parent))
        else pure (.leave heap)
      else .ok (.leave heap)

/-- `_AdjustUp` -/
def adjustUp (fuel : Nat) (heap : Heap T) (child : Nat) : Outcome (Heap T) :=
  if child < heap.length then repeatLoop (upPass cmp) fuel (heap, child) else .error .assertion

/-- The child that `_AdjustDown` compares with its parent. -/
def smallerChild (heap : Heap T) (child : Nat) : Outcome Nat :=
  if child + 1 < heap.length then do
    let right ← readAt heap (child + 1)
    let left ← readAt heap child
    if ← cmp right left then pure (child + 1) else pure child
  else .ok child

/-- One pass of the loop of `_AdjustDown`. -/
def downPass (state : Heap T × Nat) : Outcome (Pass (Heap T × Nat) (Heap T)) :=
  match state with
  | (heap, parent) =>
      if parent * 2 + 1 < heap.length then do
        let child ← smallerChild cmp heap (parent * 2 + 1)
        let childValue ← readAt heap child
        let parentValue ← readAt heap parent
        if ← cmp childValue parentValue then do
          let heap ← swap heap child parent
          pure (.again (heap, child))
        else pure (.leave heap)
      else .ok (.leave heap)

/-- `_AdjustDown` -/
def adjustDown (fuel : Nat) (heap : Heap T) (parent : Nat) : Outcome (Heap T) :=
  repeatLoop (downPass cmp) fuel (heap, parent)

/-- `Top` -/
def top (heap : Heap T) : Outcome T :=
  match heap with
  | [] => .error .assertion
  | first :: _ => .ok first

/-- `Push` -/
def push (fuel : Nat) (heap : Heap T) (d : T) : Outcome (Heap T) :=
  let heap := heap ++ [d]
  adjustUp cmp fuel heap (heap.length - 1)

/-- `Pop` -/
def pop (fuel : Nat) (heap : Heap T) : Outcome (Heap T) :=
  let sz := heap.length
  if sz > 1 then do
    let heap ← swap heap 0 (sz - 1)
    adjustDown cmp fuel heap.dropLast 0
  else if sz = 1 then .ok heap.dropLast
  else .error .outOfRange

end Heap

end DataStructAlgorithm.FileComPress

/-! ## The order of the binary heap

The elements are compared by a key. While an element moves up or down, every pair of a
parent and a child that it does not belong to is in order. -/

namespace DataStructAlgorithm.FileComPress.Heap

open Foundation

variable {T Key : Type} [LinearOrder Key]

/-- A parent is not greater than its child. -/
def InOrder (key : T → Key) (heap : Heap T) (child : Nat) : Prop :=
  ∀ parentValue childValue, heap[(child - 1) / 2]? = some parentValue →
    heap[child]? = some childValue → key parentValue ≤ key childValue

/-- Every parent is not greater than its children. -/
def Ordered (key : T → Key) (heap : Heap T) : Prop :=
  ∀ child > 0, InOrder key heap child

/-- What `_AdjustUp` starts from: the element at `hole` can be smaller than its parent. -/
structure UpOrdered (key : T → Key) (heap : Heap T) (hole : Nat) : Prop where
  others : ∀ child > 0, child ≠ hole → InOrder key heap child
  across : hole > 0 → ∀ child > 0, (child - 1) / 2 = hole → ∀ upper lower,
    heap[(hole - 1) / 2]? = some upper → heap[child]? = some lower → key upper ≤ key lower

/-- The comparison is that of the keys, for the elements of a heap. -/
def Compares (cmp : T → T → Outcome Bool) (key : T → Key) (heap : Heap T) : Prop :=
  ∀ left ∈ heap, ∀ right ∈ heap, cmp left right = .ok (decide (key left < key right))

variable {cmp : T → T → Outcome Bool} {key : T → Key} {heap : Heap T}

theorem Compares.perm {other : Heap T} (compares : Compares cmp key heap)
    (same : other.Perm heap) : Compares cmp key other := fun left leftMem right rightMem =>
  compares left (same.mem_iff.mp leftMem) right (same.mem_iff.mp rightMem)

theorem Ordered.congr {other : T → Key} (ordered : Ordered key heap)
    (same : ∀ value ∈ heap, other value = key value) :
    Ordered other heap := by
  intro child positive upper lower upperFound lowerFound
  rw [same upper (List.mem_of_getElem? upperFound), same lower (List.mem_of_getElem? lowerFound)]
  exact ordered child positive upper lower upperFound lowerFound

theorem ordered_iff : Ordered key heap ↔ HeapFrom key (heap[·]?) 0 :=
  ⟨fun ordered child positive _ => ordered child positive,
    fun heapFrom child positive => heapFrom child positive (Nat.zero_le _)⟩

/-- Only the cells before the end are filled. -/
theorem filled (heap : Heap T) (index : Nat) (value : T) (found : heap[index]? = some value) :
    ∃ upper, heap[(index - 1) / 2]? = some upper := by
  have within := (List.getElem?_eq_some_iff.mp found).1
  exact ⟨_, List.getElem?_eq_getElem (by omega)⟩

/-- The first element of an ordered heap has the smallest key. -/
theorem Ordered.first_le (ordered : Ordered key heap) {first : T} (isFirst : heap[0]? = some first)
    (index : Nat) {value : T} (found : heap[index]? = some value) : key first ≤ key value :=
  (ordered_iff.mp ordered).first_le heap.filled isFirst index found

/-! ## Swapping -/

theorem swap_spec {i j : Nat} {first second : T} (foundFirst : heap[i]? = some first)
    (foundSecond : heap[j]? = some second) :
    ∃ after, swap heap i j = .ok after ∧ after.Perm heap ∧
      ∀ index, after[index]? =
        if index = j then some first else if index = i then some second else heap[index]? := by
  rcases List.getElem?_eq_some_iff.mp foundFirst with ⟨firstWithin, isFirst⟩
  rcases List.getElem?_eq_some_iff.mp foundSecond with ⟨secondWithin, isSecond⟩
  refine ⟨(heap.set i second).set j first, ?_, ?_, ?_⟩
  · rw [swap, readAt_of_getElem? foundFirst, Outcome.ok_bind, readAt_of_getElem? foundSecond,
      Outcome.ok_bind, writeAt_of_lt _ firstWithin, Outcome.ok_bind, writeAt_of_lt]
    rw [List.length_set]
    exact secondWithin
  · rw [← isFirst, ← isSecond]
    exact List.set_set_perm firstWithin secondWithin
  · intro index
    rw [List.getElem?_set, List.length_set, List.getElem?_set]
    by_cases atSecond : j = index
    · rw [if_pos atSecond, if_pos secondWithin, if_pos atSecond.symm]
    · rw [if_neg atSecond, if_neg (Ne.symm atSecond)]
      by_cases atFirst : i = index
      · rw [if_pos atFirst, if_pos firstWithin, if_pos atFirst.symm]
      · rw [if_neg atFirst, if_neg (Ne.symm atFirst)]

/-! ## Moving up -/

/-- One step up. -/
theorem UpOrdered.move {after : Heap T} {hole : Nat} (ordered : UpOrdered key heap hole)
    (positive : 0 < hole) {moved parentValue : T}
    (foundParent : heap[(hole - 1) / 2]? = some parentValue) (smaller : key moved < key parentValue)
    (cells : ∀ index, after[index]? = if index = (hole - 1) / 2 then some moved
      else if index = hole then some parentValue else heap[index]?) :
    UpOrdered key after ((hole - 1) / 2) := by
  constructor
  · intro child childPositive childNe upper lower upperFound lowerFound
    rw [cells, if_neg childNe] at lowerFound
    rw [cells] at upperFound
    by_cases isHole : child = hole
    · rw [if_pos (by rw [isHole])] at upperFound
      rw [if_pos isHole] at lowerFound
      cases upperFound
      cases lowerFound
      exact le_of_lt smaller
    · rw [if_neg isHole] at lowerFound
      by_cases isSibling : (child - 1) / 2 = (hole - 1) / 2
      · rw [if_pos isSibling] at upperFound
        cases upperFound
        have below := ordered.others child childPositive isHole parentValue lower
          (isSibling ▸ foundParent) lowerFound
        exact le_trans (le_of_lt smaller) below
      · rw [if_neg isSibling] at upperFound
        by_cases isChild : (child - 1) / 2 = hole
        · rw [if_pos isChild] at upperFound
          cases upperFound
          exact ordered.across positive child childPositive isChild _ _ foundParent lowerFound
        · rw [if_neg isChild] at upperFound
          exact ordered.others child childPositive isHole upper lower upperFound lowerFound
  · intro parentPositive child childPositive isChild upper lower upperFound lowerFound
    have above : ((hole - 1) / 2 - 1) / 2 ≠ (hole - 1) / 2 := by omega
    have notHole : ((hole - 1) / 2 - 1) / 2 ≠ hole := by omega
    have childNe : child ≠ (hole - 1) / 2 := by omega
    rw [cells, if_neg above, if_neg notHole] at upperFound
    rw [cells, if_neg childNe] at lowerFound
    have parentNe : (hole - 1) / 2 ≠ hole := by omega
    have high := ordered.others _ parentPositive parentNe upper parentValue upperFound foundParent
    by_cases isHole : child = hole
    · rw [if_pos isHole] at lowerFound
      cases lowerFound
      exact high
    · rw [if_neg isHole] at lowerFound
      have low := ordered.others child childPositive isHole parentValue lower
        (isChild ▸ foundParent) lowerFound
      exact le_trans high low

/-- The end of the way up. -/
theorem UpOrdered.finish {hole : Nat} (ordered : UpOrdered key heap hole)
    (settled : hole > 0 → InOrder key heap hole) : Ordered key heap := by
  intro child positive
  by_cases isHole : child = hole
  · subst isHole
    exact settled positive
  · exact ordered.others child positive isHole

/-- `_AdjustUp` orders a heap whose element at `child` can be too small. -/
theorem adjustUp_spec (compares : Compares cmp key heap) {child : Nat}
    (within : child < heap.length) (ordered : UpOrdered key heap child) (fuel : Nat)
    (enough : child < fuel) :
    ∃ after, adjustUp cmp fuel heap child = .ok after ∧ after.Perm heap ∧ Ordered key after := by
  rw [adjustUp, if_pos within]
  refine repeatLoop_total
    (fun bound (state : Heap T × Nat) => state.1.Perm heap ∧ state.2 = bound ∧
      state.2 < heap.length ∧ UpOrdered key state.1 state.2)
    (fun after => after.Perm heap ∧ Ordered key after) ?_ fuel child (heap, child)
    ⟨List.Perm.refl _, rfl, within, ordered⟩ enough
  rintro bound ⟨now, hole⟩ ⟨same, isBound, holeWithin, nowOrdered⟩
  dsimp only at same isBound holeWithin nowOrdered
  subst isBound
  rw [← same.length_eq] at holeWithin
  by_cases positive : hole > 0
  · have foundMoved := List.getElem?_eq_getElem holeWithin
    have foundParent := List.getElem?_eq_getElem (l := now) (i := (hole - 1) / 2) (by omega)
    have compared := compares.perm same _ (List.mem_of_getElem? foundMoved) _
      (List.mem_of_getElem? foundParent)
    simp only [upPass, if_pos positive, readAt_of_getElem? foundMoved,
      readAt_of_getElem? foundParent, Outcome.ok_bind, compared]
    by_cases smaller : key now[hole] < key now[(hole - 1) / 2]
    · rcases swap_spec foundMoved foundParent with ⟨after, swapped, moved, cells⟩
      left
      rw [decide_eq_true smaller, if_pos rfl, swapped]
      have upWithin : (hole - 1) / 2 < heap.length := by
        rw [← same.length_eq]
        omega
      exact ⟨_, _, rfl, show (hole - 1) / 2 < hole by omega, moved.trans same, rfl, upWithin,
        nowOrdered.move positive foundParent smaller cells⟩
    · right
      rw [decide_eq_false smaller, if_neg Bool.false_ne_true]
      refine ⟨now, rfl, same, nowOrdered.finish fun _ => ?_⟩
      intro upper lower upperFound lowerFound
      rw [foundMoved] at lowerFound
      rw [foundParent] at upperFound
      cases lowerFound
      cases upperFound
      exact not_lt.mp smaller
  · right
    simp only [upPass, if_neg positive]
    exact ⟨now, rfl, same, nowOrdered.finish fun impossible => absurd impossible positive⟩

/-- `Push` -/
theorem push_spec (d : T) (compares : Compares cmp key (d :: heap)) (ordered : Ordered key heap)
    (fuel : Nat) (enough : heap.length < fuel) :
    ∃ after, push cmp fuel heap d = .ok after ∧ after.Perm (d :: heap) ∧ Ordered key after := by
  have appended : (heap ++ [d]).Perm (d :: heap) := List.perm_append_singleton d heap
  have start : UpOrdered key (heap ++ [d]) heap.length := by
    constructor
    · intro child positive childNe upper lower upperFound lowerFound
      have childWithin := (List.getElem?_eq_some_iff.mp lowerFound).1
      rw [List.length_append, List.length_singleton] at childWithin
      rw [List.getElem?_append_left (by omega)] at upperFound lowerFound
      exact ordered child positive upper lower upperFound lowerFound
    · intro positive child childPositive isChild upper lower upperFound lowerFound
      have childWithin := (List.getElem?_eq_some_iff.mp lowerFound).1
      rw [List.length_append, List.length_singleton] at childWithin
      omega
  have last : (heap ++ [d]).length - 1 = heap.length := by simp
  rw [push, last]
  rcases adjustUp_spec (compares.perm appended) (by simp) start fuel enough with
    ⟨after, ran, same, done⟩
  exact ⟨after, ran, same.trans appended, done⟩

/-! ## Moving down -/

theorem smallerChild_spec (compares : Compares cmp key heap) {hole : Nat}
    (within : hole * 2 + 1 < heap.length) :
    ∃ child value, smallerChild cmp heap (hole * 2 + 1) = .ok child ∧ 0 < child ∧
      (child - 1) / 2 = hole ∧ heap[child]? = some value ∧
      ∀ sibling > 0, (sibling - 1) / 2 = hole → ∀ other, heap[sibling]? = some other →
        key value ≤ key other := by
  have foundLeft := List.getElem?_eq_getElem within
  have siblings : ∀ sibling > 0, (sibling - 1) / 2 = hole →
      sibling = hole * 2 + 1 ∨ sibling = hole * 2 + 2 := by
    intro sibling positive isChild
    omega
  by_cases two : hole * 2 + 1 + 1 < heap.length
  · have foundRight := List.getElem?_eq_getElem two
    have compared := compares _ (List.mem_of_getElem? foundRight) _ (List.mem_of_getElem? foundLeft)
    simp only [smallerChild, if_pos two, readAt_of_getElem? foundLeft,
      readAt_of_getElem? foundRight, Outcome.ok_bind, compared]
    by_cases smaller : key heap[hole * 2 + 1 + 1] < key heap[hole * 2 + 1]
    · rw [decide_eq_true smaller, if_pos rfl]
      refine ⟨hole * 2 + 1 + 1, _, rfl, by omega, by omega, foundRight, ?_⟩
      intro sibling positive isChild other found
      rcases siblings sibling positive isChild with rfl | rfl
      · rw [foundLeft] at found
        cases found
        exact le_of_lt smaller
      · rw [foundRight] at found
        cases found
        exact le_refl _
    · rw [decide_eq_false smaller, if_neg Bool.false_ne_true]
      refine ⟨hole * 2 + 1, _, rfl, by omega, by omega, foundLeft, ?_⟩
      intro sibling positive isChild other found
      rcases siblings sibling positive isChild with rfl | rfl
      · rw [foundLeft] at found
        cases found
        exact le_refl _
      · rw [foundRight] at found
        cases found
        exact not_lt.mp smaller
  · refine ⟨hole * 2 + 1, _, if_neg two, by omega, by omega, foundLeft, ?_⟩
    intro sibling positive isChild other found
    have siblingWithin := (List.getElem?_eq_some_iff.mp found).1
    have same : sibling = hole * 2 + 1 := by omega
    subst same
    rw [foundLeft] at found
    cases found
    exact le_refl _

/-- `_AdjustDown` puts the element at `parent` in order, when all parents behind it are. -/
theorem adjustDown_from (compares : Compares cmp key heap) {floor parent : Nat}
    (sinking : SinkingFrom key (heap[·]?) floor parent) (fuel : Nat) (enough : heap.length < fuel) :
    ∃ after, adjustDown cmp fuel heap parent = .ok after ∧ after.Perm heap ∧
      HeapFrom key (after[·]?) floor := by
  refine repeatLoop_total
    (fun bound (state : Heap T × Nat) => state.1.Perm heap ∧ heap.length - state.2 = bound ∧
      SinkingFrom key (state.1[·]?) floor state.2)
    (fun after : Heap T => after.Perm heap ∧ HeapFrom key (after[·]?) floor) ?_ fuel
    (heap.length - parent) (heap, parent) ⟨List.Perm.refl _, rfl, sinking⟩ (by omega)
  rintro bound ⟨now, hole⟩ ⟨same, isBound, nowSinking⟩
  dsimp only at same isBound nowSinking
  subst isBound
  rw [← same.length_eq]
  by_cases within : hole * 2 + 1 < now.length
  · have foundHole := List.getElem?_eq_getElem (l := now) (i := hole) (by omega)
    rcases smallerChild_spec (compares.perm same) within with
      ⟨child, value, chosen, positive, isChild, foundChild, least⟩
    have compared := compares.perm same _ (List.mem_of_getElem? foundChild) _
      (List.mem_of_getElem? foundHole)
    simp only [downPass, if_pos within, chosen, readAt_of_getElem? foundChild,
      readAt_of_getElem? foundHole, Outcome.ok_bind, compared]
    by_cases smaller : key value < key now[hole]
    · rcases swap_spec foundChild foundHole with ⟨after, swapped, moved, cells⟩
      left
      rw [decide_eq_true smaller, if_pos rfl, swapped]
      exact ⟨(after, child), now.length - child, rfl, by omega, moved.trans same, rfl,
        nowSinking.move positive isChild foundChild smaller least cells⟩
    · right
      rw [decide_eq_false smaller, if_neg Bool.false_ne_true]
      refine ⟨now, rfl, same, nowSinking.finish ?_⟩
      intro other otherPositive otherChild upper lower upperFound lowerFound
      rw [otherChild] at upperFound
      cases foundHole.symm.trans upperFound
      exact le_trans (not_lt.mp smaller) (least other otherPositive otherChild lower lowerFound)
  · right
    simp only [downPass, if_neg within]
    refine ⟨now, rfl, same, nowSinking.finish ?_⟩
    intro other otherPositive otherChild upper lower _ lowerFound
    have otherWithin := (List.getElem?_eq_some_iff.mp lowerFound).1
    omega

/-- `Top` and `Pop` take an element with the smallest key away. -/
theorem pop_spec (compares : Compares cmp key heap) (ordered : Ordered key heap)
    (nonempty : heap ≠ []) (fuel : Nat) (enough : heap.length < fuel) :
    ∃ first after, top heap = .ok first ∧ pop cmp fuel heap = .ok after ∧
      (first :: after).Perm heap ∧ Ordered key after ∧ ∀ value ∈ heap, key first ≤ key value := by
  rcases heap with _ | ⟨first, rest⟩
  · exact absurd rfl nonempty
  have lowest : ∀ value ∈ first :: rest, key first ≤ key value := by
    intro value member
    rcases List.mem_iff_getElem?.mp member with ⟨index, found⟩
    exact ordered.first_le rfl index found
  rcases List.eq_nil_or_concat rest with rfl | ⟨front, last, rfl⟩
  · exact ⟨first, [], rfl, rfl, List.Perm.refl _, fun child _ upper lower upperFound _ => by
      simp at upperFound, lowest⟩
  · rw [List.concat_eq_append] at *
    have size : (first :: (front ++ [last])).length - 1 = front.length + 1 := by simp
    have foundLast : (first :: (front ++ [last]))[front.length + 1]? = some last := by simp
    rcases swap_spec (i := 0) rfl foundLast with
      ⟨swapped, ran, _, cells⟩
    have isSwapped : swapped = last :: (front ++ [first]) := by
      apply List.ext_getElem?
      intro index
      rw [cells]
      rcases index with _ | index
      · rfl
      · by_cases atEnd : index = front.length
        · subst atEnd
          simp
        · rw [if_neg (by omega), if_neg (by omega), List.getElem?_cons_succ,
            List.getElem?_cons_succ]
          rcases Nat.lt_or_ge index front.length with before | beyond
          · rw [List.getElem?_append_left before, List.getElem?_append_left before]
          · rw [List.getElem?_eq_none (by simp; omega), List.getElem?_eq_none (by simp; omega)]
    have cut : swapped.dropLast = last :: front := by
      rw [isSwapped, ← List.cons_append, List.dropLast_concat]
    have kept : (last :: front).Perm (front ++ [last]) := (List.perm_append_singleton last front).symm
    have start : SinkingFrom key ((last :: front)[·]?) 0 0 := by
      apply (ordered_iff.mp ordered).replace_first
      intro index positive
      rcases index with _ | index
      · exact absurd positive (Nat.lt_irrefl 0)
      · rcases Nat.lt_or_ge index front.length with before | beyond
        · left
          rw [List.getElem?_cons_succ, List.getElem?_cons_succ, List.getElem?_append_left before]
        · right
          rw [List.getElem?_cons_succ, List.getElem?_eq_none beyond]
    have comparesRest : Compares cmp key (last :: front) := fun left leftMem right rightMem =>
      compares left (List.mem_cons_of_mem _ (kept.mem_iff.mp leftMem)) right
        (List.mem_cons_of_mem _ (kept.mem_iff.mp rightMem))
    rcases adjustDown_from comparesRest start fuel (by simp at enough ⊢; omega) with
      ⟨after, adjusted, same, done⟩
    refine ⟨first, after, rfl, ?_, (same.trans kept).cons first, ordered_iff.mpr done, lowest⟩
    have several : (first :: (front ++ [last])).length > 1 := by simp
    simp only [pop, if_pos several, size, ran, Outcome.ok_bind, cut]
    exact adjusted

end DataStructAlgorithm.FileComPress.Heap
