import Mathlib.Data.Set.Function
import DataStructAlgorithm.Foundation.Contents

/-! # Shuffling by exchanges

The places are gone through in order, and the entry of each is exchanged with that of a place
that has not been passed. Every arrangement comes from exactly one list of such places. -/

namespace DataStructAlgorithm.Foundation

variable {Entry : Type u}

/-- The places from `place` on are exchanged with the ones chosen for them. -/
def exchangeAll (a : Contents Entry) (place : Int) : List Int → Contents Entry
  | [] => a
  | choice :: rest => exchangeAll (exchangeAt a place choice) (place + 1) rest

/-- A choice for every place up to `high`, none of which has been passed. -/
def Choices (place high : Int) : List Int → Prop
  | [] => high < place
  | choice :: rest => (place ≤ choice ∧ choice ≤ high) ∧ Choices (place + 1) high rest

section Shuffles

variable {a b : Contents Entry} {place high : Int} {choices others : List Int}

theorem exchangeAll_rearranges (a : Contents Entry) (chosen : Choices place high choices) :
    Rearranges place high a (exchangeAll a place choices) := by
  induction choices generalizing a place with
  | nil => exact .refl place high a
  | cons choice rest induction =>
      have range := chosen.1
      have first : Rearranges place high a (exchangeAt a place choice) :=
        .exchange (by omega) (by omega) (by omega) (by omega) a
      have later := induction (exchangeAt a place choice) chosen.2
      exact first.trans (later.mono (by omega) (by omega))

/-- The entry of the first place is the one that has been chosen for it. -/
theorem exchangeAll_first {choice : Int} {rest : List Int} (a : Contents Entry)
    (chosen : Choices place high (choice :: rest)) :
    exchangeAll a place (choice :: rest) place = a choice := by
  have later := exchangeAll_rearranges (exchangeAt a place choice) chosen.2
  rw [exchangeAll, later.unchanged (Or.inl (by omega)), exchangeAt_left]

theorem exchangeAt_injOn (injective : Set.InjOn a (Set.Icc place high)) (choice : Int) :
    Set.InjOn (exchangeAt a place choice) (Set.Icc (place + 1) high) := by
  have inside : Set.MapsTo (Equiv.swap place choice) (Set.Icc (place + 1) high)
      (Set.Icc place high) := by
    intro other within
    have bounds := Set.mem_Icc.mp within
    rw [Equiv.swap_apply_def, if_neg (by omega), Set.mem_Icc]
    split
    · omega
    · omega
  exact injective.comp (Equiv.swap place choice).injective.injOn inside

/-- Different choices make different arrangements. -/
theorem exchangeAll_injective (injective : Set.InjOn a (Set.Icc place high))
    (chosen : Choices place high choices) (otherChosen : Choices place high others)
    (same : exchangeAll a place choices = exchangeAll a place others) : choices = others := by
  induction choices generalizing a place others with
  | nil =>
      cases others with
      | nil => rfl
      | cons other rest =>
          have passed : high < place := chosen
          have range := otherChosen.1
          omega
  | cons choice rest induction =>
      have range := chosen.1
      cases others with
      | nil =>
          have passed : high < place := otherChosen
          omega
      | cons other otherRest =>
          have otherRange := otherChosen.1
          have entries := congrFun same place
          rw [exchangeAll_first a chosen, exchangeAll_first a otherChosen] at entries
          cases injective (Set.mem_Icc.mpr range) (Set.mem_Icc.mpr otherRange) entries
          have rests := induction (exchangeAt_injOn injective choice) chosen.2 otherChosen.2 same
          rw [rests]

theorem Rearranges.eq_of_passed (rearranges : Rearranges place high a b) (passed : high < place) :
    b = a := by
  funext other
  exact rearranges.unchanged (by omega)

/-- The entry that has to come first is fetched, and the others still have to be rearranged. -/
theorem Rearranges.fetch (rearranges : Rearranges place high a b) (more : place ≤ high) :
    ∃ choice, (place ≤ choice ∧ choice ≤ high) ∧
      Rearranges (place + 1) high (exchangeAt a place choice) b := by
  rcases rearranges with ⟨moves, fixed, rfl⟩
  have range := Rearranges.moves_inside fixed (Int.le_refl place) more
  refine ⟨moves place, range, moves.trans (Equiv.swap place (moves place)), ?_, ?_⟩
  · intro other outside
    rw [Equiv.trans_apply]
    by_cases isFirst : other = place
    · rw [isFirst, Equiv.swap_apply_right]
    · have stays := fixed other (by omega)
      rw [stays, Equiv.swap_apply_of_ne_of_ne isFirst]
      intro equal
      rw [equal] at stays
      exact isFirst (equal.trans (moves.injective stays))
  · funext other
    simp [exchangeAt]

/-- Every arrangement is the result of some choices. -/
theorem Rearranges.exists_choices (rearranges : Rearranges place high a b) :
    ∃ choices, Choices place high choices ∧ exchangeAll a place choices = b := by
  induction left : (high + 1 - place).toNat generalizing a place with
  | zero =>
      have passed : high < place := by omega
      exact ⟨[], passed, (rearranges.eq_of_passed passed).symm⟩
  | succ count induction =>
      rcases rearranges.fetch (by omega) with ⟨choice, range, others⟩
      rcases induction others (by omega) with ⟨rest, chosen, reached⟩
      exact ⟨choice :: rest, ⟨range, chosen⟩, reached⟩

end Shuffles

end DataStructAlgorithm.Foundation
