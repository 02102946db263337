import DataStructAlgorithm.Algorithm.Sort.Partition

/-! # `PartSort2`

The loop moves a hole between two indices. A second entry that equals the key keeps it from
ending. -/

namespace DataStructAlgorithm.Algorithm.Sort

open Foundation

variable {span : Span} {a : Contents Int}

/-! ## One round -/

/-- The array after a round of the loop has moved the hole from `r` to `risen` and on to
`fallen`. -/
def moved (now : Contents Int) (r risen fallen : Int) : Contents Int :=
  Function.update (Function.update now r (now risen)) risen
    (Function.update now r (now risen) fallen)

/-- Where the two inner loops stop. -/
structure Stops (key : Int) (now : Contents Int) (l r risen fallen : Int) : Prop where
  inside : l ≤ risen ∧ risen ≤ fallen ∧ fallen ≤ r
  passedUp : ∀ place, l ≤ place → place < risen → now place < key
  stoppedUp : risen < r → key ≤ now risen
  passedDown : ∀ place, fallen < place → place ≤ r → key < Function.update now r (now risen) place
  stoppedDown : risen < fallen → Function.update now r (now risen) fallen ≤ key

/-- A round whose inner loops end is one that `Stops` describes, whatever fuel they had. -/
theorem holePass_ran {key : Int} {now : Contents Int} {l r fuel : Nat} {risen fallen : Int}
    (covers : span.Covers l r) (apart : l < r)
    (rose : repeatLoop (risePass span (· < key) now r) fuel l = .ok risen)
    (fell : repeatLoop (fallPass span (· > key) (Function.update now r (now risen)) risen) fuel r =
      .ok fallen) :
    holePass span fuel key (now, l, r) =
        .ok (.again (moved now r risen fallen, risen.toNat, fallen.toNat)) ∧
      Stops key now l r risen fallen := by
  rcases rise_spec (· < key) now covers (by omega) (r - l + 1) (by omega) with
    ⟨stop, ran, risenAbove, risenBelow, passedUp, stoppedUp⟩
  cases repeatLoop_unique ran rose
  have upper : span.Covers risen r := ⟨covers.1.trans risenAbove, covers.2⟩
  rcases fall_spec (· > key) (Function.update now r (now risen)) upper risenBelow (r - l + 1)
    (by omega) with ⟨stop, ran, fallenAbove, fallenBelow, passedDown, stoppedDown⟩
  cases repeatLoop_unique ran fell
  simp only [decide_eq_true_eq, decide_eq_false_iff_not, not_lt] at passedUp stoppedUp
  simp only [decide_eq_true_eq, decide_eq_false_iff_not, not_lt, gt_iff_lt] at passedDown stoppedDown
  refine ⟨?_, ⟨risenAbove, fallenAbove, fallenBelow⟩, passedUp, stoppedUp, passedDown, stoppedDown⟩
  simp only [holePass, if_pos apart, rose, fell, Outcome.ok_bind,
    upper.load_eq now risen (le_refl _) risenBelow,
    upper.store_eq now r (now risen) risenBelow (le_refl _),
    upper.load_eq (Function.update now r (now risen)) fallen fallenAbove fallenBelow,
    upper.store_eq (Function.update now r (now risen)) risen
      (Function.update now r (now risen) fallen) (le_refl _) risenBelow]
  rfl

theorem holePass_spec (key : Int) (now : Contents Int) {l r : Nat} (covers : span.Covers l r)
    (apart : l < r) (fuel : Nat) (enough : r - l < fuel) :
    ∃ risen fallen, holePass span fuel key (now, l, r) =
        .ok (.again (moved now r risen fallen, risen.toNat, fallen.toNat)) ∧
      Stops key now l r risen fallen := by
  rcases rise_spec (· < key) now covers (by omega) fuel (by omega) with
    ⟨risen, rose, risenAbove, risenBelow, _⟩
  have upper : span.Covers risen r := ⟨covers.1.trans risenAbove, covers.2⟩
  rcases fall_spec (· > key) (Function.update now r (now risen)) upper risenBelow fuel
    (by omega) with ⟨fallen, fell, _⟩
  exact ⟨risen, fallen, holePass_ran covers apart rose fell⟩

/-! ## An array whose key occurs once -/

/-- The loop of `PartSort2`: with the key put into the hole at `r`, the array is a rearrangement
of the one before. -/
structure Holding (before : Contents Int) (left right : Nat) (key : Int) (now : Contents Int)
    (l r : Nat) : Prop where
  indices : left ≤ l ∧ l ≤ r ∧ r ≤ right
  rearranges : Rearranges left right before (Function.update now r key)
  others : ∀ place : Int, left ≤ place → place ≤ right → place ≠ r → now place ≠ key
  lower : ∀ place : Int, left ≤ place → place < l → now place ≤ key
  upper : ∀ place : Int, r < place → place ≤ right → key ≤ now place

theorem moved_hole (now : Contents Int) {r risen fallen : Int} (key : Int) (apart : risen ≠ r) :
    Function.update (moved now r risen fallen) fallen key =
      exchangeAt (exchangeAt (Function.update now r key) risen r) fallen risen := by
  have first := update_update now apart key
  rw [← first, moved]
  by_cases same : fallen = risen
  · rw [same, Function.update_idem, exchangeAt_self]
  · exact update_update (Function.update now r (now risen)) same key

theorem Holding.pass {before now : Contents Int} {left right l r : Nat} {key risen fallen : Int}
    (holding : Holding before left right key now l r) (apart : l < r)
    (stops : Stops key now l r risen fallen) :
    fallen - risen < r - l ∧
      Holding before left right key (moved now r risen fallen) risen.toNat fallen.toNat := by
  rcases holding.indices with ⟨above, _, below⟩
  rcases stops.inside with ⟨risenAbove, between, fallenBelow⟩
  have risenCast : (risen.toNat : Int) = risen := Int.toNat_of_nonneg (by omega)
  have fallenCast : (fallen.toNat : Int) = fallen := Int.toNat_of_nonneg (by omega)
  have lower : ∀ place : Int, left ≤ place → place < risen → now place ≤ key := by
    intro place placeAbove placeBelow
    rcases Int.lt_or_le place l with old | new
    · exact holding.lower place placeAbove old
    · exact le_of_lt (stops.passedUp place new placeBelow)
  rcases eq_or_lt_of_le (between.trans fallenBelow) with atHole | before
  · -- the lower index has reached the hole, and nothing moves
    have same : fallen = r := by omega
    subst atHole same
    have nothing : moved now r r r = now := by
      rw [moved, Function.update_eq_self, Function.update_eq_self]
    rw [nothing]
    exact ⟨by omega, ⟨by omega, by omega, by omega⟩, holding.rearranges, holding.others, lower,
      holding.upper⟩
  · have different : now risen ≠ key := holding.others risen (by omega) (by omega) (by omega)
    have greater : key < now risen := lt_of_le_of_ne (stops.stoppedUp before) different.symm
    have fallenLess : fallen < r := by
      rcases eq_or_lt_of_le fallenBelow with rfl | less
      · have atMost := stops.stoppedDown before
        rw [Function.update_self] at atMost
        omega
      · exact less
    refine ⟨by omega, ⟨by omega, by omega, by omega⟩, ?_, ?_, ?_, ?_⟩
    · rw [fallenCast, moved_hole now key (by omega)]
      exact (holding.rearranges.trans
        (.exchange (by omega) (by omega) (by omega) (by omega) _)).trans
        (.exchange (by omega) (by omega) (by omega) (by omega) _)
    · rw [fallenCast]
      intro place placeAbove placeBelow notHole
      rw [moved]
      by_cases atRisen : place = risen
      · rw [atRisen, Function.update_self, Function.update_of_ne (by omega)]
        exact holding.others fallen (by omega) (by omega) (by omega)
      · rw [Function.update_of_ne atRisen]
        by_cases atHole : place = r
        · rw [atHole, Function.update_self]
          exact different
        · rw [Function.update_of_ne atHole]
          exact holding.others place placeAbove placeBelow atHole
    · rw [risenCast]
      intro place placeAbove placeBelow
      rw [moved, Function.update_of_ne (by omega), Function.update_of_ne (by omega)]
      exact lower place placeAbove placeBelow
    · rw [fallenCast]
      intro place placeAbove placeBelow
      rw [moved, Function.update_of_ne (by omega)]
      rcases Int.lt_or_le r place with old | new
      · rw [Function.update_of_ne (by omega)]
        exact holding.upper place old placeBelow
      · exact le_of_lt (stops.passedDown place placeAbove new)

/-! ## An array whose key occurs twice -/

/-- An entry below the hole equals the key. -/
structure Stuck (left right : Nat) (key : Int) (now : Contents Int) (l r : Nat) : Prop where
  indices : left ≤ l ∧ r ≤ right
  second : ∃ place : Int, l ≤ place ∧ place < r ∧ now place = key

theorem Stuck.pass {left right l r : Nat} {key risen fallen : Int} {now : Contents Int}
    (stuck : Stuck left right key now l r) (stops : Stops key now l r risen fallen) :
    Stuck left right key (moved now r risen fallen) risen.toNat fallen.toNat := by
  rcases stuck.indices with ⟨above, below⟩
  rcases stuck.second with ⟨place, placeAbove, placeBelow, same⟩
  rcases stops.inside with ⟨risenAbove, between, fallenBelow⟩
  have risenCast : (risen.toNat : Int) = risen := Int.toNat_of_nonneg (by omega)
  have fallenCast : (fallen.toNat : Int) = fallen := Int.toNat_of_nonneg (by omega)
  have risenLe : risen ≤ place := by
    by_contra passed
    have less := stops.passedUp place placeAbove (by omega)
    omega
  refine ⟨⟨by omega, by omega⟩, ?_⟩
  rw [risenCast, fallenCast, moved]
  rcases eq_or_lt_of_le risenLe with rfl | risenLess
  · -- the hole gets the key, so that the upper index stays there
    have stays : fallen = r := by
      by_contra fell
      have greater := stops.passedDown r (by omega) (le_refl _)
      rw [Function.update_self] at greater
      omega
    refine ⟨risen, le_refl _, by omega, ?_⟩
    rw [Function.update_self, stays, Function.update_self]
    exact same
  · have placeLe : place ≤ fallen := by
      by_contra passed
      have greater := stops.passedDown place (by omega) (le_of_lt placeBelow)
      rw [Function.update_of_ne (by omega)] at greater
      omega
    rcases eq_or_lt_of_le placeLe with rfl | placeLess
    · refine ⟨risen, le_refl _, risenLess, ?_⟩
      rw [Function.update_self, Function.update_of_ne (by omega)]
      exact same
    · refine ⟨place, risenLe, placeLess, ?_⟩
      rw [Function.update_of_ne (by omega), Function.update_of_ne (by omega)]
      exact same

theorem hole_endless {left right : Nat} {key : Int} (covers : span.Covers left right)
    {fuel passes l r : Nat} {now : Contents Int} (stuck : Stuck left right key now l r)
    (result : Contents Int × Nat) :
    repeatLoop (holePass span fuel key) passes (now, l, r) ≠ .ok result := by
  intro returned
  have round : ∀ {now : Contents Int} {l r : Nat}, Stuck left right key now l r → ∀ ended,
      holePass span fuel key (now, l, r) = .ok ended →
      ∃ risen fallen, ended = .again (moved now r risen fallen, risen.toNat, fallen.toNat) ∧
        Stops key now l r risen fallen := by
    intro now l r stuck ended pass
    rcases stuck.second with ⟨place, above, below, _⟩
    have apart : l < r := by omega
    have inner : span.Covers l r :=
      ⟨covers.1.trans (Int.ofNat_le.mpr stuck.indices.1), (Int.ofNat_le.mpr stuck.indices.2).trans
        covers.2⟩
    have unfolded := pass
    simp only [holePass, if_pos apart] at unfolded
    rcases Outcome.bind_eq_ok unfolded with ⟨risen, rose, rest⟩
    rcases Outcome.bind_eq_ok rest with ⟨entry, loaded, rest⟩
    rcases Outcome.bind_eq_ok rest with ⟨filled, stored, rest⟩
    rcases Outcome.bind_eq_ok rest with ⟨fallen, fell, _⟩
    rcases rise_spec (· < key) now inner (by omega) (r - l + 1) (by omega) with
      ⟨stop, ran, risenAbove, risenBelow, _⟩
    cases repeatLoop_unique ran rose
    have upper : span.Covers risen r := ⟨inner.1.trans risenAbove, inner.2⟩
    rw [upper.load_eq now risen (le_refl _) risenBelow] at loaded
    cases loaded
    rw [upper.store_eq now r (now risen) risenBelow (le_refl _)] at stored
    cases stored
    have ran := holePass_ran inner apart rose fell
    rw [ran.1] at pass
    cases pass
    exact ⟨risen, fallen, rfl, ran.2⟩
  refine repeatLoop_partial
    (fun state : Contents Int × Nat × Nat => Stuck left right key state.1 state.2.1 state.2.2)
    (fun _ => False) ?_ ?_ passes (now, l, r) result stuck returned
  · rintro ⟨now, l, r⟩ next stuck pass
    rcases round stuck _ pass with ⟨risen, fallen, again, stops⟩
    cases again
    exact Stuck.pass stuck stops
  · rintro ⟨now, l, r⟩ result stuck pass
    rcases round stuck _ pass with ⟨risen, fallen, again, _⟩
    cases again

/-! ## The contract -/

/-- When nothing equals the last entry, the loop takes it between the smaller and the greater
entries. -/
theorem hole_spec {left right : Nat} (covers : span.Covers left right) (proper : left ≤ right)
    (alone : ∀ place : Int, left ≤ place → place < right → a place ≠ a right) (fuel : Nat)
    (enough : right - left + 1 < fuel) :
    ∃ now pivot, repeatLoop (holePass span fuel (a right)) fuel (a, left, right) =
        .ok (now, pivot) ∧
      Holding a left right (a right) now pivot pivot := by
  have start : Holding a left right (a right) a left right := by
    refine ⟨⟨le_refl _, proper, le_refl _⟩, ?_, ?_, ?_, ?_⟩
    · rw [Function.update_eq_self]
      exact .refl _ _ a
    · intro place above below notLast
      exact alone place above (lt_of_le_of_ne below notLast)
    · intro place above below
      exact absurd above (not_le.mpr below)
    · intro place above below
      exact absurd above (not_lt.mpr below)
  have looped : ∃ result : Contents Int × Nat,
      repeatLoop (holePass span fuel (a right)) fuel (a, left, right) = .ok result ∧
        Holding a left right (a right) result.1 result.2 result.2 := by
    refine repeatLoop_total
      (fun bound (state : Contents Int × Nat × Nat) => state.2.2 - state.2.1 = bound ∧
        Holding a left right (a right) state.1 state.2.1 state.2.2)
      (fun result : Contents Int × Nat =>
        Holding a left right (a right) result.1 result.2 result.2) ?_ fuel (right - left)
      (a, left, right) ⟨rfl, start⟩ (by omega)
    rintro bound ⟨now, l, r⟩ ⟨rfl, holding⟩
    simp only at holding
    rcases holding.indices with ⟨above, between, below⟩
    by_cases apart : l < r
    · have inner : span.Covers l r :=
        ⟨covers.1.trans (Int.ofNat_le.mpr above), (Int.ofNat_le.mpr below).trans covers.2⟩
      rcases holePass_spec (a right) now inner apart fuel (by omega) with
        ⟨risen, fallen, pass, stops⟩
      rcases holding.pass apart stops with ⟨shorter, kept⟩
      have between := stops.inside
      exact Or.inl ⟨_, fallen.toNat - risen.toNat, pass, by simp only; omega, rfl, kept⟩
    · have met : r = l := by omega
      subst met
      exact Or.inr ⟨(now, r), if_neg apart, holding⟩
  rcases looped with ⟨⟨now, pivot⟩, ran, holding⟩
  exact ⟨now, pivot, ran, holding⟩

theorem Holding.partitioned {before now : Contents Int} {left right pivot : Nat} {key : Int}
    (holding : Holding before left right key now pivot pivot) :
    Partitioned left right (Function.update now pivot key) pivot := by
  rcases holding.indices with ⟨above, _, below⟩
  refine ⟨⟨by omega, by omega⟩, ?_, ?_⟩
  · intro place placeAbove placeBelow
    rw [Function.update_self, Function.update_of_ne (by omega)]
    exact holding.lower place placeAbove placeBelow
  · intro place placeAbove placeBelow
    rw [Function.update_self, Function.update_of_ne (by omega)]
    exact holding.upper place placeAbove placeBelow

/-- The index is a position of the array that may give its entry to `right`, and this entry
equals no other one from `left` on. -/
structure Alone (a : Contents Int) (left right : Nat) (mid : Int) : Prop where
  inside : 0 ≤ mid ∧ (left ≤ mid ∨ a mid = a right)
  different : ∀ place : Int, left ≤ place → place < right → exchangeAt a mid right place ≠ a mid

theorem alone_iff {left right mid : Nat} (inside : left ≤ mid ∧ mid ≤ right) :
    Alone a left right mid ↔
      ∀ place : Int, left ≤ place → place ≤ right → place ≠ mid → a place ≠ a mid := by
  constructor
  · intro alone place above below notMid
    rcases eq_or_lt_of_le below with rfl | before
    · have moved := alone.different mid (by omega) (by omega)
      rw [exchangeAt_left] at moved
      exact moved
    · have stays := alone.different place above before
      rw [exchangeAt_of_ne notMid (by omega)] at stays
      exact stays
  · intro different
    refine ⟨⟨by omega, Or.inl (by omega)⟩, ?_⟩
    intro place above before
    by_cases atMid : place = mid
    · rw [atMid, exchangeAt_left]
      exact different right (by omega) (le_refl _) (by omega)
    · rw [exchangeAt_of_ne atMid (by omega)]
      exact different place above (by omega) atMid

theorem partSort2From_iff {length left right mid : Nat} (proper : left < right)
    (within : right < length) (inside : left ≤ mid ∧ mid ≤ right) :
    Partitions (fun fuel a => partSort2From (.ofLength length) fuel a left right mid) left right a ↔
      Alone a left right (toInt mid) := by
  have covers : (Span.ofLength length).Covers 0 right := Span.ofLength_covers (le_refl _) (by omega)
  have inner : (Span.ofLength length).Covers left right :=
    Span.ofLength_covers (Int.natCast_nonneg left) (by omega)
  have midLe : toInt mid ≤ mid := toInt_le (Int.natCast_nonneg mid)
  have key : exchangeAt a (toInt mid) right right = a (toInt mid) := exchangeAt_right ..
  have loaded := inner.load_eq (exchangeAt a (toInt mid) right) right (by omega) (le_refl _)
  constructor
  · rintro ⟨enough, meets⟩
    rcases meets (enough + right + 2) (by omega) with ⟨after, pivot, returned, rearranges, _⟩
    rcases Outcome.bind_eq_ok returned with ⟨swapped, swap, rest⟩
    rcases swapAt_eq_ok swap with ⟨⟨midAbove, _⟩, _, rfl⟩
    rw [loaded, Outcome.ok_bind] at rest
    rcases Outcome.bind_eq_ok rest with ⟨⟨now, last⟩, looped, rest⟩
    have different : ∀ place : Int, left ≤ place → place < right →
        exchangeAt a (toInt mid) right place ≠ a (toInt mid) := by
      intro place above before same
      refine hole_endless inner ⟨⟨le_refl left, le_refl right⟩, place, above, before, ?_⟩ _ looped
      rw [same, key]
    refine ⟨⟨midAbove, ?_⟩, different⟩
    rw [← key] at different
    rcases hole_spec inner (le_of_lt proper) different (enough + right + 2) (by omega) with
      ⟨hole, place, ran, holding⟩
    cases repeatLoop_unique ran looped
    have indices := holding.indices
    have stored := inner.store_eq now last (exchangeAt a (toInt mid) right right)
      (Int.ofNat_le.mpr indices.1) (Int.ofNat_le.mpr indices.2.2)
    simp only [stored, Outcome.ok_bind] at rest
    cases rest
    rcases Int.lt_or_le (toInt mid) left with before | behind
    · right
      have kept := rearranges.unchanged (Or.inl before)
      have moved := holding.rearranges.unchanged (Or.inl before)
      rw [exchangeAt_left] at moved
      exact kept.symm.trans moved
    · exact Or.inl behind
  · intro alone
    have swapped := covers.swapAt_eq a (toInt mid) right alone.inside.1 (by omega) (by omega)
      (le_refl _)
    have first : Rearranges left right a (exchangeAt a (toInt mid) right) := by
      rcases alone.inside.2 with behind | same
      · exact .exchange behind (by omega) (by omega) (le_refl _) a
      · rw [exchangeAt_of_same same]
        exact .refl _ _ a
    have different := alone.different
    rw [← key] at different
    refine ⟨right + 2, fun fuel enough => ?_⟩
    rcases hole_spec inner (le_of_lt proper) different fuel (by omega) with
      ⟨now, pivot, ran, holding⟩
    have indices := holding.indices
    have stored := inner.store_eq now pivot (exchangeAt a (toInt mid) right right)
      (Int.ofNat_le.mpr indices.1) (Int.ofNat_le.mpr indices.2.2)
    refine ⟨_, pivot, ?_, first.trans holding.rearranges, holding.partitioned⟩
    simp only [partSort2From, swapped, loaded, Outcome.ok_bind, ran, stored]
    rfl

/-- From any index between `left` and `right` the function rearranges the part around the index
it returns exactly when the entry at the index occurs once. So it does for the index of
`GetMiddleIndex`. -/
theorem partSort2_iff {length left right mid : Nat} (a : Contents Int) (proper : left < right)
    (within : right < length) (inside : left ≤ mid ∧ mid ≤ right) :
    (Partitions (fun fuel a => partSort2From (.ofLength length) fuel a left right mid) left right
        a ↔ Alone a left right (toInt mid)) ∧
      (mid < 2 ^ 31 → (Alone a left right (toInt mid) ↔
        ∀ place : Int, left ≤ place → place ≤ right → place ≠ mid → a place ≠ a mid)) ∧
      (getMiddleIndex (.ofLength length) a left right = .ok mid →
        (Partitions (fun fuel a => partSort2 (.ofLength length) fuel a left right) left right a ↔
          Alone a left right (toInt mid))) := by
  refine ⟨partSort2From_iff proper within inside, ?_, ?_⟩
  · intro small
    have midInt : toInt mid = mid := toInt_eq (by omega) (by omega)
    rw [midInt]
    exact alone_iff inside
  · intro found
    rw [← partSort2From_iff proper within inside]
    exact Partitions.congr fun fuel => by rw [partSort2, found, Outcome.ok_bind]

theorem partSort2_iff_three :
    Partitions (fun fuel a => partSort2 (.ofLength 3) fuel a 0 2) 0 2 id := by
  have inside : 0 ≤ 1 ∧ 1 ≤ 2 := by decide
  have contract := partSort2_iff id (show 0 < 2 by decide) (show 2 < 3 by decide) inside
  have alone := (contract.2.1 (by decide)).mpr fun place _ _ notMid => notMid
  exact (contract.2.2 (by decide)).mpr alone

/-- Two equal entries. -/
theorem partSort2_of_equal :
    getMiddleIndex (.ofLength 2) (fun _ => 1) 0 1 = .ok 0 ∧
      ¬Partitions (fun fuel a => partSort2 (.ofLength 2) fuel a 0 1) 0 1 fun _ => 1 := by
  have found : getMiddleIndex (.ofLength 2) (fun _ => 1) 0 1 = .ok 0 := by decide
  refine ⟨found, ?_⟩
  rintro ⟨enough, meets⟩
  rcases meets enough (le_refl _) with ⟨after, pivot, returned, _⟩
  simp only [partSort2, found, Outcome.ok_bind] at returned
  rcases Outcome.bind_eq_ok returned with ⟨swapped, swap, rest⟩
  rcases swapAt_eq_ok swap with ⟨_, _, rfl⟩
  rcases Outcome.bind_eq_ok rest with ⟨key, loaded, rest⟩
  rcases load_eq_ok loaded with ⟨_, rfl⟩
  rcases Outcome.bind_eq_ok rest with ⟨result, looped, _⟩
  have covers : (Span.ofLength 2).Covers (0 : Nat) (1 : Nat) :=
    Span.ofLength_covers (by decide) (by decide)
  have equal : ∀ place, exchangeAt (fun _ => (1 : Int)) (toInt (0 : Nat)) (1 : Nat) place = 1 :=
    fun _ => rfl
  rw [equal] at looped
  exact hole_endless covers ⟨⟨le_refl 0, le_refl 1⟩, 0, by decide, by decide, equal 0⟩ _ looped

end DataStructAlgorithm.Algorithm.Sort
