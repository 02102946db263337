import DataStructAlgorithm.Algorithm.Sort.Insertion
import DataStructAlgorithm.Algorithm.Sort.Partition

/-! # `QuickSortNonR`

The pivot is chosen by `GetMiddleIndex`, which in one of its branches returns an entry in place of
the index of this entry. -/

namespace DataStructAlgorithm.Algorithm.Sort

open Foundation

variable {span : Span} {a : Contents Int}

/-! ## The index of the pivot -/

def middle (left right : Int) : Int := left + (right - left) / 2

/-- The entries that lead `GetMiddleIndex` to the branch with the mistake. -/
def Mistaken (a : Contents Int) (left right : Int) : Prop :=
  a right < a (middle left right) ∧ a (middle left right) ≤ a left

/-- The entry that is returned there, as it is read by the functions that call
`GetMiddleIndex`. -/
def taken (a : Contents Int) (left right : Int) : Int := toInt (toSize (a (middle left right)))

theorem getMiddleIndex_spec {left right : Nat} (covers : span.Covers left right)
    (proper : left ≤ right) (small : right < 2 ^ 31) :
    ∃ mid, getMiddleIndex span a left right = .ok mid ∧
      (Mistaken a left right ∧ toInt mid = taken a left right ∨
        ¬Mistaken a left right ∧ left ≤ mid ∧ mid ≤ right) := by
  have width : (toSize (right - left) : Int) = right - left := toSize_eq (by omega) (by omega)
  have index : toInt (toSize (left + toSize (right - left) / 2)) = middle left right := by
    rw [width]
    exact toInt_toSize (by omega) (by omega)
  have between : left ≤ middle left right ∧ middle left right ≤ right := by
    rw [middle]
    omega
  have midCast : (toSize (middle left right) : Int) = middle left right :=
    toSize_eq (by omega) (by omega)
  simp only [getMiddleIndex, index, covers.load_eq a (middle left right) between.1 between.2,
    covers.load_eq a right (by omega) (le_refl _), covers.load_eq a left (le_refl _) (by omega),
    Outcome.ok_bind]
  rw [Mistaken, taken]
  by_cases first : a (middle left right) ≤ a right
  · rw [if_pos first]
    have correct : ¬(a right < a (middle left right) ∧ a (middle left right) ≤ a left) := by
      omega
    by_cases second : a (middle left right) ≥ a left
    · rw [if_pos second]
      exact ⟨_, rfl, Or.inr ⟨correct, by omega, by omega⟩⟩
    · rw [if_neg second]
      by_cases third : a left ≤ a right
      · rw [if_pos third]
        exact ⟨_, rfl, Or.inr ⟨correct, by omega, by omega⟩⟩
      · rw [if_neg third]
        exact ⟨_, rfl, Or.inr ⟨correct, by omega, by omega⟩⟩
  · rw [if_neg first]
    by_cases second : a right ≥ a left
    · rw [if_pos second]
      exact ⟨_, rfl, Or.inr ⟨by omega, by omega, by omega⟩⟩
    · rw [if_neg second]
      by_cases third : a left ≥ a (middle left right)
      · rw [if_pos third]
        exact ⟨_, rfl, Or.inl ⟨⟨by omega, third⟩, rfl⟩⟩
      · rw [if_neg third]
        exact ⟨_, rfl, Or.inr ⟨by omega, by omega, by omega⟩⟩

/-- An entry that is taken for an index leads into the part, or to an entry equal to the last
one. -/
def Harmless (span : Span) (a : Contents Int) (left right : Int) : Prop :=
  Mistaken a left right →
    left ≤ taken a left right ∧ taken a left right ≤ right ∨
      (span.first ≤ taken a left right ∧ taken a left right ≤ span.last) ∧
        a (taken a left right) = a right

theorem Harmless.index {left right : Nat} (harmless : Harmless span a left right)
    (covers : span.Covers left right) (proper : left ≤ right) (small : right < 2 ^ 31) :
    ∃ mid, getMiddleIndex span a left right = .ok mid ∧
      (span.first ≤ toInt mid ∧ toInt mid ≤ span.last) ∧
      Rearranges left right a (exchangeAt a (toInt mid) right) := by
  rcases getMiddleIndex_spec (a := a) covers proper small with ⟨mid, found, index⟩
  have first := covers.1
  have last := covers.2
  have within : left ≤ toInt mid ∧ toInt mid ≤ right →
      (span.first ≤ toInt mid ∧ toInt mid ≤ span.last) ∧
        Rearranges left right a (exchangeAt a (toInt mid) right) := fun inside =>
    ⟨by omega, .exchange inside.1 inside.2 (by omega) (le_refl _) a⟩
  refine ⟨mid, found, ?_⟩
  rcases index with ⟨mistaken, same⟩ | ⟨_, inside⟩
  · have chosen := harmless mistaken
    rw [← same] at chosen
    rcases chosen with inside | ⟨accessed, equal⟩
    · exact within inside
    · rw [exchangeAt_of_same equal]
      exact ⟨accessed, .refl _ _ a⟩
  · have midInt : toInt mid = mid := toInt_eq (by omega) (by omega)
    exact within (by omega)

/-! ## The loop with a stack -/

/-- What a part must be like for `PartSort3` to divide it. Where no `int` follows the last index,
the pivot must not end up there. -/
structure Sound (span : Span) (a : Contents Int) (left right : Int) : Prop where
  harmless : Harmless span a left right
  rivalled : right = 2 ^ 31 - 1 → ∀ mid,
    getMiddleIndex span a (toSize left) (toSize right) = .ok mid →
    ∃ place, left ≤ place ∧ place < right ∧ a (toInt mid) ≤ exchangeAt a (toInt mid) right place

theorem Trailing.pivot_before {before now : Contents Int} {left right : Nat} {prev : Int}
    (trailing : Trailing before left right (before right) now prev right)
    (rivalled : ∃ place : Int, left ≤ place ∧ place < right ∧ before right ≤ before place) :
    prev + 1 < right := by
  rcases rivalled with ⟨place, above, below, notLess⟩
  by_contra atLast
  rcases trailing.rearranges.symm with ⟨moves, fixed, rfl⟩
  -- only the last entry of `now` is not less than the pivot
  have last : ∀ other : Int, left ≤ other → other ≤ right → now (moves right) ≤ now (moves other) →
      moves other = right := by
    intro other otherAbove otherBelow otherNotLess
    have inside := Rearranges.moves_inside fixed otherAbove otherBelow
    by_contra notLast
    have less := trailing.lower (moves other) inside.1 (by omega)
    exact absurd less (not_lt.mpr otherNotLess)
  have first := last place above (le_of_lt below) notLess
  have second := last right (by omega) (le_refl _) (le_refl _)
  have same := moves.injective (first.trans second.symm)
  omega

theorem partSort3_spec {left right : Nat} (covers : span.Covers left right) (proper : left ≤ right)
    (small : right < 2 ^ 31) (sound : Sound span a left right) (fuel : Nat)
    (enough : right - left + 1 < fuel) :
    ∃ after pivot, partSort3 span fuel a left right = .ok (after, pivot) ∧
      Rearranges left right a after ∧ Partitioned left right after pivot ∧
      addInt pivot 1 = .ok (pivot + 1 : Int) := by
  rcases sound.harmless.index covers proper small with ⟨mid, found, accessed, exchanged⟩
  rcases partSort3From_ran (a := a) covers proper accessed small fuel enough with
    ⟨now, prev, ran, trailing⟩
  rcases trailing.partitioned small with ⟨rearranges, partitioned⟩
  rcases trailing.indices with ⟨above, below, _⟩
  have pivotCast : (toSize (prev + 1) : Int) = prev + 1 := toSize_eq (by omega) (by omega)
  refine ⟨_, _, ?_, exchanged.trans rearranges, partitioned, ?_⟩
  · rw [partSort3, found, Outcome.ok_bind]
    exact ran
  · rw [pivotCast]
    have before : prev + 1 < right ∨ (right : Int) < 2 ^ 31 - 1 := by
      by_cases atEnd : (right : Int) = 2 ^ 31 - 1
      · have size : ∀ index : Nat, index ≤ right → toSize index = index := fun index below =>
          toSize_natCast (by omega)
        have rivalled := sound.rivalled atEnd mid
        rw [size left proper, size right (le_refl _)] at rivalled
        have pivot := trailing.pivot_before
        rw [exchangeAt_right] at pivot
        exact Or.inl (pivot (rivalled found))
      · right
        omega
    exact addInt_eq (by omega) (by omega)

/-- What is on the stack for the parts that are still to be sorted. -/
def pushed (parts : List (Int × Int)) : List Int := parts.flatMap fun part => [part.1, part.2]

theorem pushed_unsorted_append (left right : Int) (parts : List (Int × Int)) :
    pushed (unsorted left right ++ parts) =
      if left < right then left :: right :: pushed parts else pushed parts := by
  rw [unsorted]
  split
  · rfl
  · rfl

theorem nonRPass_again {left right : Nat} (covers : span.Covers left right) (proper : left < right)
    (small : right < 2 ^ 31) (sound : Sound span a left right) (parts : List (Int × Int))
    (fuel : Nat) (enough : right - left + 1 < fuel) :
    ∃ after pivot, nonRPass span fuel (a, pushed ((↑left, ↑right) :: parts)) =
        .ok (.again (after, pushed (halves left pivot right ++ parts))) ∧
      Rearranges left right a after ∧ Partitioned left right after pivot := by
  rcases partSort3_spec covers (le_of_lt proper) small sound fuel enough with
    ⟨after, pivot, ran, rearranges, partitioned, stepped⟩
  have inside := partitioned.inside
  have leftSize : toSize left = left := toSize_natCast (by omega)
  have rightSize : toSize right = right := toSize_natCast (by omega)
  have pivotInt : toInt pivot = pivot := toInt_eq (by omega) (by omega)
  refine ⟨after, pivot, ?_, rearranges, partitioned⟩
  rw [halves, List.append_assoc, pushed_unsorted_append, pushed_unsorted_append]
  show nonRPass span fuel (a, (left : Int) :: (right : Int) :: pushed parts) = _
  rw [nonRPass, leftSize, rightSize, ran, Outcome.ok_bind]
  simp only [pivotInt]
  rw [stepped]
  rfl

/-- What is known of the array while parts of it are on the stack. -/
structure Waiting (before : Contents Int) (left right : Nat) (now : Contents Int)
    (parts : List (Int × Int)) : Prop where
  rearranges : Rearranges left right before now
  pending : Pending left right now parts

/-- A condition on the part on top of the stack. -/
def onTop (holds : Contents Int → Int → Int → Prop) : Contents Int × List Int → Prop
  | (a, begin :: last :: _) => holds a begin last
  | _ => True

theorem Waiting.pass {before now : Contents Int} {left right : Nat} {first last : Int}
    {parts : List (Int × Int)} (waiting : Waiting before left right now ((first, last) :: parts))
    (covers : span.Covers left right) (small : right < 2 ^ 31) (sound : Sound span now first last)
    (fuel : Nat) (enough : right - left + 1 < fuel) :
    ∃ after pivot, nonRPass span fuel (now, pushed ((first, last) :: parts)) =
        .ok (.again (after, pushed (halves first pivot last ++ parts))) ∧
      work (halves first pivot last ++ parts) < work ((first, last) :: parts) ∧
      Waiting before left right after (halves first pivot last ++ parts) := by
  rcases waiting.pending.inside _ List.mem_cons_self with ⟨above, proper, below⟩
  simp only at above proper below
  rcases Int.eq_ofNat_of_zero_le (show 0 ≤ first by omega) with ⟨begin, rfl⟩
  rcases Int.eq_ofNat_of_zero_le (show 0 ≤ last by omega) with ⟨last, rfl⟩
  have inner : span.Covers begin last := ⟨covers.1.trans above, below.trans covers.2⟩
  rcases nonRPass_again inner (by omega) (by omega) sound parts fuel (by omega) with
    ⟨after, pivot, pass, rearranges, partitioned⟩
  exact ⟨after, pivot, pass, work_halves_append partitioned.inside proper parts,
    waiting.rearranges.trans (rearranges.mono above below),
    waiting.pending.divide rearranges partitioned⟩

theorem nonRLoop_sorts {left right : Nat} (covers : span.Covers left right)
    (small : right < 2 ^ 31) (fuel : Nat) (enough : right - left + 1 < fuel)
    (every : EveryPass (nonRPass span fuel) (onTop (Sound span)) fuel
      (a, pushed (unsorted left right))) :
    ∃ after, repeatLoop (nonRPass span fuel) fuel (a, pushed (unsorted left right)) = .ok after ∧
      SortedFrom left right a after := by
  refine repeatLoop_total_every (onTop (Sound span))
    (fun bound (state : Contents Int × List Int) => ∃ parts, state.2 = pushed parts ∧
      work parts = bound ∧ Waiting a left right state.1 parts)
    (fun after => SortedFrom left right a after) ?_ fuel (right - left)
    (a, pushed (unsorted left right))
    ⟨unsorted left right, rfl, ?_, .refl _ _ a, .whole _ _ a⟩ (by omega) every
  · rintro bound ⟨now, stack⟩ ⟨parts, stacked, rfl, waiting⟩ sound
    simp only at stacked waiting
    subst stacked
    cases parts with
    | nil => exact Or.inr ⟨now, rfl, waiting.rearranges, waiting.pending.monotone⟩
    | cons part parts =>
        rcases waiting.pass covers small sound fuel enough with ⟨after, pivot, pass, less, kept⟩
        exact Or.inl ⟨_, _, pass, less, _, rfl, rfl, kept⟩
  · have total := work_unsorted_append left right []
    rw [List.append_nil] at total
    rw [total]
    show ((right : Int) - left).toNat + 0 = right - left
    omega

/-- In every pass that the function makes, the part on top of the stack meets the condition. -/
def EveryRound (left right : Nat) (holds : Contents Int → Int → Int → Prop) (a : Contents Int) :
    Prop :=
  ∃ enough, ∀ fuel, enough ≤ fuel → EveryPass (nonRPass ⟨left, right⟩ fuel) (onTop holds) fuel
    (a, if left < right then [toInt left, toInt right] else [])

theorem onStack_eq {left right : Nat} (ordered : left ≤ right)
    (small : left = right ∨ right < 2 ^ 31) :
    (if left < right then [toInt left, toInt right] else []) = pushed (unsorted left right) := by
  rw [unsorted]
  by_cases proper : left < right
  · have leftInt : toInt left = left := toInt_eq (by omega) (by omega)
    have rightInt : toInt right = right := toInt_eq (by omega) (by omega)
    rw [if_pos proper, if_pos (by omega), leftInt, rightInt]
    rfl
  · rw [if_neg proper, if_neg (by omega)]
    rfl

/-! ## What every run that returns has accessed -/

/-- The parts on the stack are not empty, and given by two `int`. -/
def Proper (stack : List Int) : Prop :=
  ∃ parts, stack = pushed parts ∧ ∀ part ∈ parts,
    (-2 ^ 31 : Int) ≤ part.1 ∧ part.1 < part.2 ∧ part.2 < (2 ^ 31 : Int)

theorem proper_pushed {left right : Nat} (small : right < 2 ^ 31) :
    Proper (pushed (unsorted left right)) := by
  have high : (right : Int) < 2 ^ 31 := by omega
  have low : (-2 ^ 31 : Int) ≤ left := by omega
  refine ⟨_, rfl, ?_⟩
  intro part member
  rcases mem_unsorted.mp member with ⟨rfl, proper⟩
  exact ⟨low, proper, high⟩

theorem nonRPass_proper (fuel : Nat) (state next : Contents Int × List Int)
    (proper : Proper state.2) (pass : nonRPass span fuel state = .ok (.again next)) :
    Proper next.2 := by
  rcases state with ⟨now, stack⟩
  rcases proper with ⟨parts, rfl, inRange⟩
  cases parts with
  | nil => cases pass
  | cons part parts =>
      rcases part with ⟨begin, last⟩
      rcases inRange _ List.mem_cons_self with ⟨low, _, high⟩
      simp only at low high
      rcases Outcome.bind_eq_ok pass with ⟨⟨after, div⟩, _, rest⟩
      rcases Outcome.bind_eq_ok rest with ⟨stepped, added, done⟩
      have sum := (addInt_eq_ok added).1
      rw [sum] at done
      have same := Pass.again.inj (Except.ok.inj done)
      rw [← same]
      refine ⟨halves begin (toInt div) last ++ parts, ?_, ?_⟩
      · rw [halves, List.append_assoc, pushed_unsorted_append, pushed_unsorted_append]
        rfl
      · have range := toInt_range div
        intro part member
        rcases List.mem_append.mp member with half | other
        · rcases mem_halves.mp half with ⟨rfl, smaller⟩ | ⟨rfl, smaller⟩
          · simp only
            omega
          · simp only
            omega
        · exact inRange part (List.mem_cons_of_mem _ other)

theorem getMiddleIndex_loads {left right mid : Nat}
    (found : getMiddleIndex span a left right = .ok mid) :
    (span.first ≤ left ∧ left ≤ span.last) ∧ (span.first ≤ right ∧ right ≤ span.last) := by
  rcases Outcome.bind_eq_ok found with ⟨atMid, _, rest⟩
  rcases Outcome.bind_eq_ok rest with ⟨atRight, rightLoaded, rest⟩
  rcases Outcome.bind_eq_ok rest with ⟨atLeft, leftLoaded, _⟩
  exact ⟨(load_eq_ok leftLoaded).1, (load_eq_ok rightLoaded).1⟩

theorem partSort3_accesses {fuel left right : Nat} {result : Contents Int × Nat}
    (proper : left ≤ right) (small : right < 2 ^ 31)
    (returned : partSort3 span fuel a left right = .ok result) (mistaken : Mistaken a left right) :
    span.first ≤ taken a left right ∧ taken a left right ≤ span.last := by
  rcases Outcome.bind_eq_ok returned with ⟨mid, found, rest⟩
  rcases getMiddleIndex_loads found with ⟨leftLoaded, rightLoaded⟩
  rcases getMiddleIndex_spec (a := a) ⟨leftLoaded.1, rightLoaded.2⟩ proper small with
    ⟨other, otherFound, index⟩
  rw [found] at otherFound
  cases otherFound
  rcases Outcome.bind_eq_ok rest with ⟨swapped, swap, _⟩
  have accessed := (swapAt_eq_ok swap).1
  rcases index with ⟨_, same⟩ | ⟨correct, _⟩
  · rw [← same]
    exact accessed
  · exact absurd mistaken correct

theorem nonRPass_accesses (small : span.last < (2 ^ 31 : Int)) (fuel : Nat)
    (state : Contents Int × List Int) (ended : Pass (Contents Int × List Int) (Contents Int))
    (proper : Proper state.2) (pass : nonRPass span fuel state = .ok ended) :
    onTop (fun a begin last => Mistaken a begin last →
      span.first ≤ taken a begin last ∧ taken a begin last ≤ span.last) state := by
  rcases state with ⟨now, stack⟩
  rcases proper with ⟨parts, rfl, inRange⟩
  cases parts with
  | nil => trivial
  | cons part parts =>
      rcases part with ⟨begin, last⟩
      rcases inRange _ List.mem_cons_self with ⟨low, less, high⟩
      simp only at low less high
      rcases Outcome.bind_eq_ok pass with ⟨divided, returned, _⟩
      rcases Outcome.bind_eq_ok returned with ⟨mid, found, _⟩
      have loaded : toSize begin ≤ span.last := (getMiddleIndex_loads found).1.2
      have started : 0 ≤ begin := by
        by_contra negative
        have wrapped : (toSize begin : Int) = begin + 2 ^ 64 := toSize_neg (by omega) (by omega)
        omega
      rcases Int.eq_ofNat_of_zero_le started with ⟨begin, rfl⟩
      rcases Int.eq_ofNat_of_zero_le (show 0 ≤ last by omega) with ⟨last, rfl⟩
      have beginSize : toSize begin = begin := toSize_natCast (by omega)
      have lastSize : toSize last = last := toSize_natCast (by omega)
      rw [beginSize, lastSize] at returned
      intro mistaken
      exact partSort3_accesses (by omega) (by omega) returned mistaken

/-! ## The contract -/

/-- `QuickSortNonR` sorts when the entries that are taken for indices do no harm, and only when
they are indices of the part to be sorted. -/
theorem quickSortNonR_sorts {left right : Nat} (a : Contents Int) (ordered : left ≤ right) :
    ((left = right ∨ right < 2 ^ 31) ∧ EveryRound left right (Sound ⟨left, right⟩) a →
      Sorts (fun fuel a => quickSortNonR ⟨left, right⟩ fuel a left right) left right a) ∧
    (right < 2 ^ 31 →
      Sorts (fun fuel a => quickSortNonR ⟨left, right⟩ fuel a left right) left right a →
      EveryRound left right (fun a begin last => Mistaken a begin last →
        left ≤ taken a begin last ∧ taken a begin last ≤ right) a) := by
  constructor
  · rintro ⟨small, enough, every⟩
    refine ⟨max enough (right + 2), fun fuel larger => ?_⟩
    have sound := every fuel (by omega)
    rw [onStack_eq ordered small] at sound
    show ∃ after, quickSortNonR ⟨left, right⟩ fuel a left right = .ok after ∧ _
    rw [quickSortNonR, onStack_eq ordered small]
    by_cases proper : left < right
    · have bounded : right < 2 ^ 31 := by omega
      exact nonRLoop_sorts ⟨le_refl _, le_refl _⟩ bounded fuel (by omega) sound
    · have nothing : unsorted left right = [] := if_neg (by omega)
      have positive : ∃ rest, fuel = rest + 1 := ⟨fuel - 1, by omega⟩
      rcases positive with ⟨rest, rfl⟩
      rw [nothing]
      exact ⟨a, repeatLoop_leave _ rfl, .refl _ _ a, monotoneOn_single a (by omega)⟩
  · rintro small ⟨enough, sorts⟩
    refine ⟨enough, fun fuel larger => ?_⟩
    rcases sorts fuel larger with ⟨after, returned, _⟩
    simp only [quickSortNonR] at returned
    have high : (⟨left, right⟩ : Span).last < 2 ^ 31 := by
      simp only
      omega
    refine everyPass_of_returned (fun state : Contents Int × List Int => Proper state.2) _
      (fun _ => True) (nonRPass_proper fuel) ?_ fuel _ after ?_ returned trivial
    · intro passes state result proper ran _
      rcases repeatLoop_body ran with ⟨ended, pass⟩
      exact nonRPass_accesses high fuel state ended proper pass
    · rw [onStack_eq ordered (Or.inr small)]
      exact proper_pushed small

theorem quickSortNonR_sorts_two :
    Sorts (fun fuel a => quickSortNonR ⟨(1 : Nat), (2 : Nat)⟩ fuel a 1 2) (1 : Nat) (2 : Nat)
      id := by
  have contract := quickSortNonR_sorts id (show 1 ≤ 2 by decide)
  refine contract.1 ⟨Or.inr (by decide), 5, fun fuel larger => ?_⟩
  have positive : ∃ rest, fuel = rest + 5 := ⟨fuel - 5, by omega⟩
  rcases positive with ⟨rest, rfl⟩
  have first : ∃ after, nonRPass ⟨(1 : Nat), (2 : Nat)⟩ (rest + 5) (id, [1, 2]) =
      .ok (.again (after, [])) := ⟨_, rfl⟩
  have sound : Sound ⟨(1 : Nat), (2 : Nat)⟩ id 1 2 :=
    ⟨fun mistaken => absurd mistaken.1 (by decide), fun atEnd => absurd atEnd (by decide)⟩
  refine ⟨sound, ?_⟩
  intro next pass
  rcases first with ⟨after, again⟩
  cases again.symm.trans pass
  exact ⟨trivial, fun next again => by cases again⟩

/-- The entries 30, 20 and 10. -/
theorem quickSortNonR_of_decreasing :
    ¬Sorts (fun fuel a => quickSortNonR ⟨(0 : Nat), (2 : Nat)⟩ fuel a 0 2) (0 : Nat) (2 : Nat)
      (fun place => 30 - 10 * place) := by
  rintro ⟨enough, sorts⟩
  rcases sorts (enough + 1) (by omega) with ⟨after, returned, _⟩
  have pass : nonRPass ⟨(0 : Nat), (2 : Nat)⟩ (enough + 1) (fun place => 30 - 10 * place, [0, 2]) =
      .error .outOfRange := rfl
  simp only [quickSortNonR] at returned
  have failed := repeatLoop_error enough pass
  cases failed.symm.trans returned

end DataStructAlgorithm.Algorithm.Sort
