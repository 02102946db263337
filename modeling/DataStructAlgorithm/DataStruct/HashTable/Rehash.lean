import DataStructAlgorithm.DataStruct.HashTable.Buck

/-! # Growing the table

Each pass takes the first node out of an old bucket and puts it in front of the
new bucket that its hash names. What the two tables store together stays the
same. -/

namespace DataStructAlgorithm.DataStruct.Buck

open Foundation

variable {K V : Type}

abbrev Entry (K V : Type) := Nat × (K × V)

/-- Each entry is in the bucket that its hash names. -/
def Placed (hash : K → Nat) (buckets : List (List (Entry K V))) : Prop :=
  ∀ (index : Nat) (bucket : List (Entry K V)), buckets[index]? = some bucket →
    ∀ entry ∈ bucket, hashFunc hash entry.2.1 buckets.length = index

theorem placed_empty (hash : K → Nat) (count : Nat) :
    Placed hash (List.replicate count ([] : List (Entry K V))) := by
  intro index bucket bucketEq entry member
  rw [List.eq_of_mem_replicate (List.mem_of_getElem? bucketEq)] at member
  cases member

theorem Placed.push {hash : K → Nat} {buckets : List (List (Entry K V))}
    (placed : Placed hash buckets) {index : Nat} {bucket : List (Entry K V)} {entry : Entry K V}
    (bucketEq : buckets[index]? = some bucket)
    (named : hashFunc hash entry.2.1 buckets.length = index) :
    Placed hash (buckets.set index (entry :: bucket)) := by
  intro queried stored storedEq other member
  rw [List.length_set]
  rw [List.getElem?_set] at storedEq
  by_cases same : index = queried
  · subst same
    rw [if_pos rfl] at storedEq
    split at storedEq
    · cases storedEq
      rcases List.mem_cons.mp member with equal | member
      · rw [equal]
        exact named
      · exact placed _ bucket bucketEq other member
    · cases storedEq
  · rw [if_neg same] at storedEq
    exact placed queried stored storedEq other member

/-- An entry is found in the bucket that its hash names. -/
theorem Placed.mem_bucket {hash : K → Nat} {buckets : List (List (Entry K V))}
    (placed : Placed hash buckets) {entry : Entry K V} (member : entry ∈ buckets.flatten)
    {bucket : List (Entry K V)}
    (bucketEq : buckets[hashFunc hash entry.2.1 buckets.length]? = some bucket) :
    entry ∈ bucket := by
  rcases List.mem_flatten.mp member with ⟨stored, storedMem, within⟩
  rcases List.getElem?_of_mem storedMem with ⟨index, storedEq⟩
  rw [placed index stored storedEq entry within, storedEq] at bucketEq
  cases bucketEq
  exact within

/-- The state of the growth loops: `whole` is what the two tables store. -/
structure Moving (hash : K → Nat) (state : Rehash K V) (old new : List (List (Entry K V)))
    (whole : List (Entry K V)) : Prop where
  oldChains : Buckets state.heap state.tables old
  newChains : Buckets state.heap state.newTables new
  nonempty : 0 < new.length
  placed : Placed hash new
  same : (old.flatten ++ new.flatten).Perm whole
  addresses : (whole.map Prod.fst).Nodup

section Move

variable {hash : K → Nat} {state : Rehash K V} {old new : List (List (Entry K V))}
  {whole : List (Entry K V)} {i : Nat}

/-- A pass over an empty bucket leaves the loop. -/
theorem Moving.leave (moving : Moving hash state old new whole) (emptied : old[i]? = some []) :
    movePass hash i state = .ok (.leave state) := by
  have within : i < state.tables.length := by
    rw [moving.oldChains.length_eq]
    exact (List.getElem?_eq_some_iff.mp emptied).1
  have headEq := List.getElem?_eq_getElem within
  have chain := moving.oldChains.chain i _ [] headEq emptied
  rw [show state.tables[i] = none from chain] at headEq
  simp [movePass, readAt_of_getElem? headEq]

/-- A pass over a bucket that is not empty moves its first node. -/
theorem Moving.again (moving : Moving hash state old new whole) {entry : Entry K V}
    {rest : List (Entry K V)} (first : old[i]? = some (entry :: rest)) :
    ∃ next moved, movePass hash i state = .ok (.again next) ∧
      Moving hash next (old.set i rest) moved whole ∧ moved.length = new.length := by
  have within : i < state.tables.length := by
    rw [moving.oldChains.length_eq]
    exact (List.getElem?_eq_some_iff.mp first).1
  have headEq := List.getElem?_eq_getElem within
  rcases moving.oldChains.chain i _ _ headEq first with ⟨headIs, next, found, tail⟩
  rw [headIs] at headEq
  have indexLt : hashFunc hash entry.2.1 new.length < new.length :=
    Nat.mod_lt _ moving.nonempty
  have newLength := moving.newChains.length_eq
  have newWithin : hashFunc hash entry.2.1 new.length < state.newTables.length := by omega
  have newHeadEq := List.getElem?_eq_getElem newWithin
  have bucketEq := List.getElem?_eq_getElem indexLt
  let index := hashFunc hash entry.2.1 new.length
  let heap := state.heap.modify entry.1 (.setNext state.newTables[index])
  have foundAfter : heap.cell entry.1 = some ⟨entry.2, state.newTables[index]⟩ := by
    simp [heap, found, ListNode.setNext]
  -- the moved node is in no other place
  have popped := flatten_set_tail old first
  have apart : ∀ other ∈ (old.set i rest).flatten ++ new.flatten, other.1 ≠ entry.1 := by
    have arranged : (entry :: ((old.set i rest).flatten ++ new.flatten)).Perm whole :=
      (popped.append_right new.flatten).trans moving.same
    have nodup := (arranged.map Prod.fst).nodup_iff.mpr moving.addresses
    rw [List.map_cons, List.nodup_cons] at nodup
    intro other member equal
    exact nodup.1 (List.mem_map.mpr ⟨other, member, equal⟩)
  have oldAfter : Buckets heap (state.tables.set i next) (old.set i rest) :=
    (moving.oldChains.set i tail).modify_of_not_mem _ fun other member =>
      apart other (List.mem_append_left _ member)
  have newSame : Buckets heap state.newTables new :=
    moving.newChains.modify_of_not_mem _ fun other member =>
      apart other (List.mem_append_right _ member)
  have newAfter := newSame.push newHeadEq bucketEq foundAfter
  refine ⟨⟨heap, state.tables.set i next, state.newTables.set index (some entry.1)⟩,
    new.set index (entry :: new[index]), ?_, ⟨oldAfter, newAfter, ?_, ?_, ?_, moving.addresses⟩,
    by simp⟩
  · simp only [movePass, readAt_of_getElem? headEq, Outcome.ok_bind, Store.load_some found,
      newLength, readAt_of_getElem? newHeadEq, writeAt_of_lt _ newWithin,
      Store.assign_some _ found, writeAt_of_lt _ within]
    rfl
  · rw [List.length_set]
    exact moving.nonempty
  · exact moving.placed.push bucketEq rfl
  · have pushed := flatten_set_cons new entry bucketEq
    have arranged := (pushed.append_left (old.set i rest).flatten).trans List.perm_middle
    exact arranged.trans ((popped.append_right new.flatten).trans moving.same)

/-- The inner loop empties one old bucket. -/
theorem Moving.bucket (moving : Moving hash state old new whole) {bucket : List (Entry K V)}
    (bucketEq : old[i]? = some bucket) (fuel : Nat) (enough : bucket.length < fuel) :
    ∃ after moved, repeatLoop (movePass hash i) fuel state = .ok after ∧
      Moving hash after (old.set i []) moved whole ∧ moved.length = new.length := by
  induction bucket generalizing state old new fuel with
  | nil =>
      rcases fuel with _ | fuel
      · simp at enough
      · have unchanged : old.set i [] = old := by
          rcases List.getElem?_eq_some_iff.mp bucketEq with ⟨within, stored⟩
          rw [← stored, List.set_getElem_self]
        rw [unchanged]
        exact ⟨state, new, repeatLoop_leave _ (moving.leave bucketEq), moving, rfl⟩
  | cons entry rest induction =>
      rcases fuel with _ | fuel
      · simp at enough
      · rcases moving.again bucketEq with ⟨next, moved, pass, nextMoving, lengthEq⟩
        have restEq : (old.set i rest)[i]? = some rest := by
          rw [List.getElem?_set_self (List.getElem?_eq_some_iff.mp bucketEq).1]
        rcases induction nextMoving restEq fuel (by simpa using enough) with
          ⟨after, final, looped, afterMoving, finalLength⟩
        refine ⟨after, final, ?_, by simpa using afterMoving, finalLength.trans lengthEq⟩
        rw [repeatLoop_again _ pass, looped]

/-- The outer loop empties all of them. -/
theorem Moving.all (moving : Moving hash state old new whole) (fuel : Nat)
    (enough : ∀ bucket ∈ old, bucket.length < fuel) (count : Nat) (within : count ≤ old.length) :
    ∃ after moved, (List.range count).foldlM
        (fun state i => repeatLoop (movePass hash i) fuel state) state = .ok after ∧
      Moving hash after (List.replicate count [] ++ old.drop count) moved whole ∧
      moved.length = new.length := by
  induction count with
  | zero => exact ⟨state, new, rfl, moving, rfl⟩
  | succ count induction =>
      rcases induction (by omega) with ⟨middle, half, folded, middleMoving, halfLength⟩
      have bucketEq : (List.replicate count [] ++ old.drop count)[count]? = some old[count] := by
        rw [List.getElem?_append_right (by simp)]
        simp
      rcases middleMoving.bucket bucketEq fuel (enough _ (List.getElem_mem _)) with
        ⟨after, moved, looped, afterMoving, movedLength⟩
      have emptied : (List.replicate count [] ++ old.drop count).set count [] =
          List.replicate (count + 1) [] ++ old.drop (count + 1) := by
        rw [List.drop_eq_getElem_cons (by omega), List.replicate_succ', List.append_assoc,
          List.set_append, List.length_replicate, if_neg (by omega), Nat.sub_self,
          List.set_cons_zero]
        rfl
      rw [emptied] at afterMoving
      refine ⟨after, moved, ?_, afterMoving, movedLength.trans halfLength⟩
      rw [List.range_succ, List.foldlM_append, folded]
      simp [looped]

end Move

end DataStructAlgorithm.DataStruct.Buck
