import DataStructAlgorithm.Foundation.Counting
import DataStructAlgorithm.Algorithm.Sort.Insertion

/-! # `CountSort`

The table has an entry for every value from the least to the greatest one. Its size is an `int`,
and so are the counts and the index at which the array is filled again. -/

namespace DataStructAlgorithm.Algorithm.Sort

open Foundation

variable {span table : Span} {a : Contents Int} {n : Nat}

/-! ## The bounds -/

/-- The least and the greatest of the first `n` entries. -/
structure Bounds (a : Contents Int) (n : Nat) (min max : Int) : Prop where
  least : ∀ place : Nat, place < n → min ≤ a place
  greatest : ∀ place : Nat, place < n → a place ≤ max
  minFound : ∃ place : Nat, place < n ∧ a place = min
  maxFound : ∃ place : Nat, place < n ∧ a place = max

/-- The loop has looked at the entries before `i`; the first one counts as seen. -/
structure Bounded (a : Contents Int) (n i : Nat) (min max : Int) : Prop where
  index : i ≤ n
  least : ∀ place : Nat, place < i → min ≤ a place
  greatest : ∀ place : Nat, place < i → a place ≤ max
  minFound : ∃ place : Nat, place < n ∧ a place = min
  maxFound : ∃ place : Nat, place < n ∧ a place = max

theorem Bounded.next {i : Nat} {min max : Int} (bounded : Bounded a n i min max) (more : i < n) :
    Bounded a n (i + 1) (if a i < min then a i else min) (if a i > max then a i else max) := by
  refine ⟨more, ?_, ?_, ?_, ?_⟩
  · intro place seen
    rcases eq_or_lt_of_le (Nat.le_of_lt_succ seen) with rfl | before
    · split <;> omega
    · have known := bounded.least place before
      split <;> omega
  · intro place seen
    rcases eq_or_lt_of_le (Nat.le_of_lt_succ seen) with rfl | before
    · split <;> omega
    · have known := bounded.greatest place before
      split <;> omega
  · split
    · exact ⟨i, more, rfl⟩
    · exact bounded.minFound
  · split
    · exact ⟨i, more, rfl⟩
    · exact bounded.maxFound

theorem bounds_spec (covers : span.Covers 0 (n - 1)) (positive : 1 ≤ n) (fuel : Nat)
    (enough : n < fuel) :
    ∃ min max, repeatLoop (boundsPass span a n) fuel (0, a 0, a 0) = .ok (min, max) ∧
      Bounds a n min max := by
  have looped : ∃ result : Int × Int,
      repeatLoop (boundsPass span a n) fuel (0, a 0, a 0) = .ok result ∧
        Bounds a n result.1 result.2 := by
    refine repeatLoop_total
      (fun bound (state : Nat × Int × Int) => n - state.1 = bound ∧
        Bounded a n state.1 state.2.1 state.2.2)
      (fun result : Int × Int => Bounds a n result.1 result.2) ?_ fuel n (0, a 0, a 0)
      ⟨rfl, Nat.zero_le n, nofun, nofun, ⟨0, positive, rfl⟩, ⟨0, positive, rfl⟩⟩ enough
    rintro bound ⟨i, min, max⟩ ⟨rfl, bounded⟩
    simp only at bounded
    have index := bounded.index
    by_cases more : i < n
    · left
      have loaded := covers.load_eq a i (Int.natCast_nonneg i) (by omega)
      simp only [boundsPass, if_pos more, loaded, Outcome.ok_bind]
      exact ⟨_, _, rfl, by omega, rfl, bounded.next more⟩
    · right
      have atEnd : i = n := by omega
      subst atEnd
      exact ⟨(min, max), if_neg more, bounded.least, bounded.greatest, bounded.minFound,
        bounded.maxFound⟩
  rcases looped with ⟨⟨min, max⟩, ran, bounds⟩
  exact ⟨min, max, ran, bounds⟩

/-! ## The table -/

/-- The table has counted the first `i` entries. -/
def Counted (a : Contents Int) (i : Nat) (min : Int) (tamp : Contents Int) : Prop :=
  ∀ place, tamp place = occurrences a i (min + place)

theorem Counted.next {i : Nat} {min : Int} {tamp : Contents Int} (counted : Counted a i min tamp) :
    Counted a (i + 1) min (Function.update tamp (a i + -min) (tamp (a i + -min) + 1)) := by
  intro place
  rw [occurrences_succ]
  by_cases here : place = a i + -min
  · rw [here, Function.update_self, counted, if_pos (by omega)]
    rfl
  · rw [Function.update_of_ne here, counted, if_neg (by omega)]
    rfl

theorem countPass_again {min : Int} {tamp : Contents Int} {i : Nat} {next : Contents Int × Nat}
    (pass : countPass span table a n min (tamp, i) = .ok (.again next)) :
    i < n ∧ next = (Function.update tamp (a i + -min) (tamp (a i + -min) + 1), i + 1) := by
  rw [countPass] at pass
  split at pass
  next more =>
    rcases Outcome.bind_eq_ok pass with ⟨entry, loaded, rest⟩
    rcases Outcome.bind_eq_ok rest with ⟨place, subtracted, rest⟩
    rcases Outcome.bind_eq_ok rest with ⟨count, counted, rest⟩
    rcases Outcome.bind_eq_ok rest with ⟨more, added, rest⟩
    rcases Outcome.bind_eq_ok rest with ⟨stored, storing, done⟩
    cases (load_eq_ok loaded).2
    cases (addInt_eq_ok subtracted).1
    cases (load_eq_ok counted).2
    cases (addInt_eq_ok added).1
    cases store_eq_ok storing
    cases done
    exact ⟨‹_›, rfl⟩
  next => cases pass

theorem countPass_leave {min : Int} {tamp result : Contents Int} {i : Nat}
    (pass : countPass span table a n min (tamp, i) = .ok (.leave result)) :
    n ≤ i ∧ result = tamp := by
  rw [countPass] at pass
  split at pass
  next =>
    rcases Outcome.bind_eq_ok pass with ⟨entry, _, rest⟩
    rcases Outcome.bind_eq_ok rest with ⟨place, _, rest⟩
    rcases Outcome.bind_eq_ok rest with ⟨count, _, rest⟩
    rcases Outcome.bind_eq_ok rest with ⟨more, _, rest⟩
    rcases Outcome.bind_eq_ok rest with ⟨stored, _, done⟩
    cases done
  next all =>
    cases pass
    exact ⟨not_lt.mp all, rfl⟩

/-- What the loop returns, if it returns. -/
theorem counts_ran {min : Int} {fuel : Nat} {tamp : Contents Int}
    (returned : repeatLoop (countPass span table a n min) fuel (fun _ => 0, 0) = .ok tamp) :
    Counted a n min tamp := by
  refine repeatLoop_partial
    (fun state : Contents Int × Nat => state.2 ≤ n ∧ Counted a state.2 min state.1)
    (fun tamp => Counted a n min tamp) ?_ ?_ fuel (fun _ => 0, 0) tamp
    ⟨Nat.zero_le n, fun _ => rfl⟩ returned
  · rintro ⟨now, i⟩ next ⟨_, counted⟩ pass
    rcases countPass_again pass with ⟨more, rfl⟩
    exact ⟨more, counted.next⟩
  · rintro ⟨now, i⟩ result ⟨index, counted⟩ pass
    rcases countPass_leave pass with ⟨all, rfl⟩
    have atEnd : i = n := Nat.le_antisymm index all
    exact atEnd ▸ counted

theorem counts_spec {min max : Int} (covers : span.Covers 0 (n - 1)) (bounds : Bounds a n min max)
    (small : n < 2 ^ 31) (narrow : max - min < 2 ^ 31 - 1)
    (tableCovers : table.Covers 0 (max - min)) (fuel : Nat) (enough : n < fuel) :
    ∃ tamp, repeatLoop (countPass span table a n min) fuel (fun _ => 0, 0) = .ok tamp ∧
      Counted a n min tamp := by
  refine repeatLoop_total
    (fun bound (state : Contents Int × Nat) => n - state.2 = bound ∧ state.2 ≤ n ∧
      Counted a state.2 min state.1)
    (fun tamp => Counted a n min tamp) ?_ fuel n (fun _ => 0, 0)
    ⟨rfl, Nat.zero_le n, fun _ => rfl⟩ enough
  rintro bound ⟨tamp, i⟩ ⟨rfl, index, counted⟩
  simp only at index counted
  by_cases more : i < n
  · left
    have least := bounds.least i more
    have greatest := bounds.greatest i more
    have loaded := covers.load_eq a i (Int.natCast_nonneg i) (by omega)
    have subtracted : addInt (a i) (-min) = .ok (a i + -min) := addInt_eq (by omega) (by omega)
    have found := tableCovers.load_eq tamp (a i + -min) (by omega) (by omega)
    have few := occurrences_le a i (min + (a i + -min))
    have value := counted (a i + -min)
    have added : addInt (tamp (a i + -min)) 1 = .ok (tamp (a i + -min) + 1) :=
      addInt_eq (by omega) (by omega)
    have stored := tableCovers.store_eq tamp (a i + -min) (tamp (a i + -min) + 1) (by omega)
      (by omega)
    simp only [countPass, if_pos more, loaded, subtracted, found, added, stored, Outcome.ok_bind]
    exact ⟨_, _, rfl, by omega, rfl, more, counted.next⟩
  · right
    have atEnd : i = n := by omega
    exact ⟨tamp, if_neg more, atEnd ▸ counted⟩

/-! ## The counts and the index -/

/-- The smaller values have been written, and the table still has the counts from `i` on. -/
structure Reached (a : Contents Int) (n : Nat) (min : Int) (i : Nat) (tamp : Contents Int)
    (index : Int) : Prop where
  index : index = smaller a n (min + i)
  counts : ∀ place : Nat, i ≤ place → tamp place = occurrences a n (min + place)

/-- The value at `i` is being written, and the table has what is left of its count. -/
structure Writing (a : Contents Int) (n : Nat) (min : Int) (i : Nat) (tamp : Contents Int)
    (index : Int) : Prop where
  begun : smaller a n (min + i) ≤ index
  within : index ≤ smaller a n (min + i + 1)
  count : index + tamp i = smaller a n (min + i + 1)
  counts : ∀ place : Nat, i < place → tamp place = occurrences a n (min + place)

section Filling

variable {min range index : Int} {tamp now : Contents Int} {i : Nat}

theorem Reached.start (least : ∀ place : Nat, place < n → min ≤ a place)
    (counted : Counted a n min tamp) : Reached a n min 0 tamp 0 := by
  constructor
  · rw [smaller_of_least (by simpa using least)]
    rfl
  · intro place _
    exact counted place

theorem Reached.write (reached : Reached a n min i tamp index) : Writing a n min i tamp index := by
  have next := smaller_next a n (min + i)
  have count := reached.counts i (le_refl i)
  have atIndex := reached.index
  exact ⟨by omega, by omega, by omega, fun place above => reached.counts place (le_of_lt above)⟩

theorem Writing.next (writing : Writing a n min i tamp index) (notZero : tamp i ≠ 0) :
    Writing a n min i (Function.update tamp i (tamp i + -1)) (index + 1) := by
  have begun := writing.begun
  have within := writing.within
  have count := writing.count
  refine ⟨by omega, by omega, ?_, ?_⟩
  · rw [Function.update_self]
    omega
  · intro place above
    rw [Function.update_of_ne (by omega), writing.counts place above]

theorem Writing.finish (writing : Writing a n min i tamp index) (zero : tamp i = 0) :
    Reached a n min (i + 1) (Function.update tamp i (tamp i + -1)) index := by
  have count := writing.count
  have same : min + ((i + 1 : Nat) : Int) = min + i + 1 := by omega
  constructor
  · rw [same]
    omega
  · intro place above
    rw [Function.update_of_ne (by omega), writing.counts place above]

theorem refillPass_eq_ok {ended : Pass (Contents Int × Contents Int × Int)
      (Contents Int × Contents Int × Int)}
    (pass : refillPass span table min i (now, tamp, index) = .ok ended) :
    (tamp i ≠ 0 ∧ index + 1 < 2 ^ 31 ∧
      ended = .again (Function.update now index (refillValue i min),
        Function.update tamp i (tamp i + -1), index + 1)) ∨
    (tamp i = 0 ∧ ended = .leave (now, Function.update tamp i (tamp i + -1), index)) := by
  rcases Outcome.bind_eq_ok pass with ⟨count, counted, rest⟩
  rcases Outcome.bind_eq_ok rest with ⟨less, subtracted, rest⟩
  rcases Outcome.bind_eq_ok rest with ⟨stored, storing, rest⟩
  cases (load_eq_ok counted).2
  cases (addInt_eq_ok subtracted).1
  cases store_eq_ok storing
  by_cases notZero : tamp i ≠ 0
  · rw [if_pos notZero] at rest
    rcases Outcome.bind_eq_ok rest with ⟨written, writing, rest⟩
    rcases Outcome.bind_eq_ok rest with ⟨next, added, done⟩
    have range := addInt_eq_ok added
    cases range.1
    cases store_eq_ok writing
    cases done
    exact Or.inl ⟨notZero, range.2.2, rfl⟩
  · rw [if_neg notZero] at rest
    cases rest
    exact Or.inr ⟨not_not.mp notZero, rfl⟩

/-- What the index is when the loops over the counts return. -/
theorem values_ran {fuel : Nat} {after : Contents Int} (positive : 0 ≤ range)
    (small : range < 2 ^ 31) (greatest : ∀ place : Nat, place < n → a place < min + range)
    (reached : Reached a n min 0 tamp 0)
    (returned : repeatLoop (valuePass span table fuel range min) fuel ((now, tamp, 0), 0) =
      .ok after) : n < 2 ^ 31 := by
  have size := toSize_eq positive (show range < 2 ^ 64 by omega)
  refine repeatLoop_partial
    (fun state : (Contents Int × Contents Int × Int) × Nat => state.2 ≤ toSize range ∧
      Reached a n min state.2 state.1.2.1 state.1.2.2 ∧ state.1.2.2 < 2 ^ 31)
    (fun _ => n < 2 ^ 31) ?_ ?_ fuel ((now, tamp, 0), 0) after ⟨Nat.zero_le _, reached, by simp⟩
    returned
  · rintro ⟨⟨now, tamp, index⟩, i⟩ next ⟨_, reached, bound⟩ pass
    rw [valuePass] at pass
    split at pass
    next more =>
      rcases Outcome.bind_eq_ok pass with ⟨filled, ran, again⟩
      cases again
      refine ⟨more, repeatLoop_partial
        (fun state : Contents Int × Contents Int × Int =>
          Writing a n min i state.2.1 state.2.2 ∧ state.2.2 < 2 ^ 31)
        (fun filled => Reached a n min (i + 1) filled.2.1 filled.2.2 ∧ filled.2.2 < 2 ^ 31) ?_ ?_
        fuel (now, tamp, index) filled ⟨reached.write, bound⟩ ran⟩
      · rintro ⟨now, tamp, index⟩ next ⟨writing, _⟩ pass
        rcases refillPass_eq_ok pass with ⟨notZero, below, again⟩ | ⟨_, leave⟩
        · cases again
          exact ⟨writing.next notZero, below⟩
        · cases leave
      · rintro ⟨now, tamp, index⟩ filled ⟨writing, bound⟩ pass
        rcases refillPass_eq_ok pass with ⟨_, _, again⟩ | ⟨zero, leave⟩
        · cases again
        · cases leave
          exact ⟨writing.finish zero, bound⟩
    next => cases pass
  · rintro ⟨⟨now, tamp, index⟩, i⟩ result ⟨atMost, reached, bound⟩ pass
    rw [valuePass] at pass
    split at pass
    next =>
      rcases Outcome.bind_eq_ok pass with ⟨filled, _, again⟩
      cases again
    next all =>
      have atEnd : (i : Int) = range := by omega
      have everything : smaller a n (min + i) = n := by
        rw [atEnd]
        exact smaller_of_greatest greatest
      have atIndex := reached.index
      simp only at atIndex bound
      omega

end Filling

/-! ## The refilled array -/

/-- The places before the index have the entries of the sorted array, and what is outside the
array is as it was. -/
structure Refilled (a sorted now : Contents Int) (n : Nat) (index : Int) : Prop where
  before : ∀ place : Nat, (place : Int) < index → now place = sorted place
  outside : ∀ place : Int, place < 0 ∨ n - 1 < place → now place = a place

section Sorting

variable {sorted now tamp : Contents Int} {min range index : Int} {i : Nat}

theorem Refilled.start (a sorted : Contents Int) (n : Nat) : Refilled a sorted a n 0 :=
  ⟨fun _ below => by omega, fun _ _ => rfl⟩

theorem Refilled.next (refilled : Refilled a sorted now n index) (above : 0 ≤ index)
    (below : index < n) :
    Refilled a sorted (Function.update now index (sorted index)) n (index + 1) := by
  constructor
  · intro place before
    by_cases here : (place : Int) = index
    · rw [here, Function.update_self]
    · rw [Function.update_of_ne here, refilled.before place (by omega)]
  · intro place outside
    rw [Function.update_of_ne (by omega), refilled.outside place outside]

theorem Refilled.finish (refilled : Refilled a sorted now n n)
    (rearranges : Rearranges 0 (n - 1) a sorted) : now = sorted := by
  funext place
  by_cases inside : 0 ≤ place ∧ place < n
  · have before := refilled.before place.toNat (by omega)
    rw [Int.toNat_of_nonneg inside.1] at before
    exact before
  · rw [refilled.outside place (by omega), rearranges.unchanged (by omega)]

/-- The sorted array has the value at the index that is being written. -/
theorem Writing.value (writing : Writing a n min i tamp index) (notZero : tamp i ≠ 0)
    (sorts : SortedFrom 0 (n - 1) a sorted) (above : 0 ≤ index) (below : index < n) :
    sorted index = min + i := by
  have begun := writing.begun
  have within := writing.within
  have count := writing.count
  have position : (index.toNat : Int) = index := Int.toNat_of_nonneg above
  have ended := lt_smaller_iff sorts.monotone (min + i + 1) (show index.toNat < n by omega)
  have started := lt_smaller_iff sorts.monotone (min + i) (show index.toNat < n by omega)
  rw [sorts.rearranges.smaller_eq, position] at ended started
  omega

theorem refill_spec (covers : span.Covers 0 (n - 1)) (tableCovers : table.Covers 0 (range - 1))
    (small : n < 2 ^ 31) (sorts : SortedFrom 0 (n - 1) a sorted)
    (ints : -2 ^ 31 ≤ min ∧ min + range ≤ 2 ^ 31) (more : i < range)
    (reached : Reached a n min i tamp index) (refilled : Refilled a sorted now n index)
    (fuel : Nat) (enough : n + 1 < fuel) :
    ∃ filled, repeatLoop (refillPass span table min i) fuel (now, tamp, index) = .ok filled ∧
      Reached a n min (i + 1) filled.2.1 filled.2.2 ∧ Refilled a sorted filled.1 n filled.2.2 := by
  have few : smaller a n (min + i + 1) ≤ n := Nat.count_le _
  have value : refillValue i min = min + i := by
    rw [refillValue, toInt_toSize (by omega) (by omega)]
    omega
  refine repeatLoop_total
    (fun bound (state : Contents Int × Contents Int × Int) => (n + 1 - state.2.2).toNat = bound ∧
      0 ≤ state.2.2 ∧ Writing a n min i state.2.1 state.2.2 ∧
      Refilled a sorted state.1 n state.2.2)
    (fun filled : Contents Int × Contents Int × Int =>
      Reached a n min (i + 1) filled.2.1 filled.2.2 ∧ Refilled a sorted filled.1 n filled.2.2)
    ?_ fuel _ (now, tamp, index)
    ⟨rfl, ?_, reached.write, refilled⟩ ?_
  · rintro bound ⟨now, tamp, index⟩ ⟨rfl, above, writing, refilled⟩
    simp only at above writing refilled
    have begun := writing.begun
    have within := writing.within
    have count := writing.count
    have counted := tableCovers.load_eq tamp i (Int.natCast_nonneg i) (by omega)
    have subtracted : addInt (tamp i) (-1) = .ok (tamp i + -1) := addInt_eq (by omega) (by omega)
    have stored := tableCovers.store_eq tamp i (tamp i + -1) (Int.natCast_nonneg i) (by omega)
    by_cases notZero : tamp i ≠ 0
    · left
      have below : index < n := by omega
      have atIndex := writing.value notZero sorts above below
      have written := covers.store_eq now index (sorted index) above (by omega)
      have added : addInt index 1 = .ok (index + 1) := addInt_eq (by omega) (by omega)
      simp only [refillPass, counted, subtracted, stored, if_pos notZero, value, ← atIndex, written,
        added, Outcome.ok_bind]
      exact ⟨_, (n + 1 - (index + 1)).toNat, rfl, by omega, rfl, by simp only; omega,
        writing.next notZero, refilled.next above below⟩
    · right
      simp only [refillPass, counted, subtracted, stored, if_neg notZero, Outcome.ok_bind]
      exact ⟨_, rfl, writing.finish (not_not.mp notZero), refilled⟩
  · have atIndex := reached.index
    simp only
    omega
  · have atIndex := reached.index
    simp only
    omega

theorem values_spec (covers : span.Covers 0 (n - 1)) (tableCovers : table.Covers 0 (range - 1))
    (small : n < 2 ^ 31) (sorts : SortedFrom 0 (n - 1) a sorted)
    (ints : -2 ^ 31 ≤ min ∧ min + range ≤ 2 ^ 31) (positive : 0 ≤ range) (narrow : range < 2 ^ 31)
    (greatest : ∀ place : Nat, place < n → a place < min + range)
    (reached : Reached a n min 0 tamp 0) (fuel : Nat) (enough : n + 1 < fuel)
    (wide : range < fuel) :
    repeatLoop (valuePass span table fuel range min) fuel ((a, tamp, 0), 0) = .ok sorted := by
  have size := toSize_eq positive (show range < 2 ^ 64 by omega)
  have looped : ∃ after,
      repeatLoop (valuePass span table fuel range min) fuel ((a, tamp, 0), 0) = .ok after ∧
        after = sorted := by
    refine repeatLoop_total
      (fun bound (state : (Contents Int × Contents Int × Int) × Nat) =>
        toSize range - state.2 = bound ∧ state.2 ≤ toSize range ∧
        Reached a n min state.2 state.1.2.1 state.1.2.2 ∧
        Refilled a sorted state.1.1 n state.1.2.2)
      (fun after => after = sorted) ?_ fuel _ ((a, tamp, 0), 0)
      ⟨rfl, Nat.zero_le _, reached, .start a sorted n⟩ (by simp only; omega)
    rintro bound ⟨⟨now, tamp, index⟩, i⟩ ⟨rfl, atMost, reached, refilled⟩
    simp only at atMost reached refilled
    by_cases more : i < toSize range
    · rcases refill_spec covers tableCovers small sorts ints (show (i : Int) < range by omega)
        reached refilled fuel enough with ⟨filled, ran, nextReached, nextRefilled⟩
      simp only [valuePass, if_pos more, ran, Outcome.ok_bind]
      exact Or.inl ⟨_, toSize range - (i + 1), rfl, by omega, rfl, more, nextReached, nextRefilled⟩
    · right
      have atEnd : (i : Int) = range := by omega
      have everything : smaller a n (min + i) = n := by
        rw [atEnd]
        exact smaller_of_greatest greatest
      have atIndex := reached.index
      rw [everything] at atIndex
      subst atIndex
      exact ⟨now, if_neg more, refilled.finish sorts.rearranges⟩
  rcases looped with ⟨after, ran, rfl⟩
  exact ran

end Sorting

/-! ## The contract -/

theorem Bounds.unique {min max otherMin otherMax : Int} (bounds : Bounds a n min max)
    (again : Bounds a n otherMin otherMax) : otherMin = min ∧ otherMax = max := by
  rcases bounds.minFound with ⟨minPlace, minWithin, rfl⟩
  rcases bounds.maxFound with ⟨maxPlace, maxWithin, rfl⟩
  rcases again.minFound with ⟨otherMinPlace, otherMinWithin, rfl⟩
  rcases again.maxFound with ⟨otherMaxPlace, otherMaxWithin, rfl⟩
  constructor
  · exact le_antisymm (again.least minPlace minWithin) (bounds.least otherMinPlace otherMinWithin)
  · exact le_antisymm (bounds.greatest otherMaxPlace otherMaxWithin)
      (again.greatest maxPlace maxWithin)

theorem countSort_ran {fuel : Nat} {after : Contents Int} (positive : 1 ≤ n) (enough : n < fuel)
    (returned : countSort (.ofLength n) fuel a n = .ok after) :
    n < 2 ^ 31 ∧ ∀ x y : Nat, x < n → y < n → a y - a x < 2 ^ 31 - 1 := by
  have covers : (Span.ofLength n).Covers 0 (n - 1) := ⟨le_refl _, le_refl _⟩
  have loaded := covers.load_eq a 0 (le_refl 0) (by omega)
  rcases bounds_spec (a := a) covers positive fuel enough with ⟨min, max, found, bounds⟩
  simp only [countSort, loaded, found, Outcome.ok_bind] at returned
  rcases Outcome.bind_eq_ok returned with ⟨spread, subtracted, rest⟩
  rcases Outcome.bind_eq_ok rest with ⟨range, added, rest⟩
  rcases Outcome.bind_eq_ok rest with ⟨tamp, counting, filling⟩
  have sum := addInt_eq_ok added
  cases (addInt_eq_ok subtracted).1
  have least : min ≤ max := (bounds.least 0 positive).trans (bounds.greatest 0 positive)
  have inside : ∀ place : Nat, place < n → a place < min + range := by
    intro place within
    have atMost := bounds.greatest place within
    omega
  refine ⟨values_ran (by omega) sum.2.2 inside (.start bounds.least (counts_ran counting))
    filling, ?_⟩
  intro x y xWithin yWithin
  have low := bounds.least x xWithin
  have high := bounds.greatest y yWithin
  omega

theorem countSort_spec {min max : Int} {sorted : Contents Int} (positive : 1 ≤ n)
    (small : n < 2 ^ 31) (bounds : Bounds a n min max) (narrow : max - min < 2 ^ 31 - 1)
    (ints : -2 ^ 31 ≤ min ∧ max < 2 ^ 31) (sorts : SortedFrom 0 (n - 1) a sorted) (fuel : Nat)
    (enough : n + (max - min + 1).toNat + 1 < fuel) :
    countSort (.ofLength n) fuel a n = .ok sorted := by
  have covers : (Span.ofLength n).Covers 0 (n - 1) := ⟨le_refl _, le_refl _⟩
  have loaded := covers.load_eq a 0 (le_refl 0) (by omega)
  have ordered : min ≤ max := (bounds.least 0 positive).trans (bounds.greatest 0 positive)
  have found : repeatLoop (boundsPass (.ofLength n) a n) fuel (0, a 0, a 0) = .ok (min, max) := by
    rcases bounds_spec (a := a) covers positive fuel (by omega) with
      ⟨otherMin, otherMax, found, again⟩
    rw [found, (bounds.unique again).1, (bounds.unique again).2]
  have subtracted : addInt max (-min) = .ok (max + -min) := addInt_eq (by omega) (by omega)
  have added : addInt (max + -min) 1 = .ok (max + -min + 1) := addInt_eq (by omega) (by omega)
  have tableCovers : (Span.mk 0 (max + -min + 1 - 1)).Covers 0 (max + -min + 1 - 1) :=
    ⟨le_refl _, le_refl _⟩
  have countCovers : (Span.mk 0 (max + -min + 1 - 1)).Covers 0 (max - min) :=
    ⟨le_refl _, show _ ≤ max + -min + 1 - 1 by omega⟩
  rcases counts_spec covers bounds small narrow countCovers fuel (by omega) with
    ⟨tamp, counting, counted⟩
  simp only [countSort, loaded, found, subtracted, added, counting, Outcome.ok_bind]
  refine values_spec covers tableCovers small sorts ⟨by omega, by omega⟩ (by omega)
    (by omega) ?_ (.start bounds.least counted) fuel (by omega) (by omega)
  intro place within
  have atMost := bounds.greatest place within
  omega

/-- `CountSort` sorts exactly the arrays whose length and whose range of values both are an `int`:
`max - min + 1` must not overflow. -/
theorem countSort_iff (a : Contents Int) (n : Nat) (positive : 1 ≤ n)
    (ints : ∀ place : Nat, place < n → -2 ^ 31 ≤ a place ∧ a place < 2 ^ 31) :
    Sorts (fun fuel a => countSort (.ofLength n) fuel a n) 0 (n - 1) a ↔
      n < 2 ^ 31 ∧ ∀ x y : Nat, x < n → y < n → a y - a x < 2 ^ 31 - 1 := by
  constructor
  · rintro ⟨enough, sorts⟩
    rcases sorts (enough + n + 1) (by omega) with ⟨after, returned, _⟩
    exact countSort_ran positive (by omega) returned
  · rintro ⟨small, narrow⟩
    have covers : (Span.ofLength n).Covers 0 (n - 1) := ⟨le_refl _, le_refl _⟩
    rcases bounds_spec (a := a) covers positive (n + 1) (by omega) with ⟨min, max, _, bounds⟩
    rcases bounds.minFound with ⟨minPlace, minWithin, minEq⟩
    rcases bounds.maxFound with ⟨maxPlace, maxWithin, maxEq⟩
    have spread := narrow minPlace maxPlace minWithin maxWithin
    have minRange := ints minPlace minWithin
    have maxRange := ints maxPlace maxWithin
    rw [minEq, maxEq] at spread
    rw [minEq] at minRange
    rw [maxEq] at maxRange
    -- a sorting that is known to work says which array is the sorted one
    rcases insertSort_spec (a := a) covers positive small (n + 2) (by omega) with
      ⟨sorted, _, sortedFrom⟩
    exact ⟨n + (max - min + 1).toNat + 2, fun fuel enough => ⟨sorted,
      countSort_spec positive small bounds spread ⟨minRange.1, maxRange.2⟩ sortedFrom fuel
        (by omega), sortedFrom⟩⟩

theorem countSort_iff_three :
    Sorts (fun fuel a => countSort (.ofLength 3) fuel a 3) 0 ((3 : Nat) - 1)
      (fun place => -place) := by
  refine (countSort_iff (fun place => -place) 3 (by decide) ?_).mpr ⟨by decide, ?_⟩
  · intro place within
    omega
  · intro x y xWithin yWithin
    omega

/-- Zero and the greatest `int`. -/
def zeroAndGreatest : Contents Int := fun place => if place = 0 then 0 else 2 ^ 31 - 1

theorem countSort_overflows (fuel : Nat) (enough : 2 < fuel) :
    countSort (.ofLength 2) fuel zeroAndGreatest 2 = .error .outOfRange := by
  obtain ⟨more, rfl⟩ : ∃ more, fuel = more + 3 := ⟨fuel - 3, by omega⟩
  rfl

theorem countSort_not_sorts :
    ¬Sorts (fun fuel a => countSort (.ofLength 2) fuel a 2) 0 ((2 : Nat) - 1) zeroAndGreatest := by
  rintro ⟨enough, sorts⟩
  rcases sorts (enough + 3) (by omega) with ⟨after, returned, _⟩
  cases (countSort_overflows (enough + 3) (by omega)).symm.trans returned

end DataStructAlgorithm.Algorithm.Sort
