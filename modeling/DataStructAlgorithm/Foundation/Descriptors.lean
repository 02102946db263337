import Mathlib.Data.List.Perm.Subperm

/-! # Descriptor numbers

The lowest number that is not in use, and how large it can be. -/

namespace DataStructAlgorithm.Foundation

def lowestUnused (used : List Nat) : Nat :=
  ((List.range (used.length + 1)).find? fun number => number ∉ used).getD used.length

variable {used : List Nat}

/-- One of the numbers up to the length of the list is not in it. -/
theorem exists_unused (used : List Nat) : ∃ number ≤ used.length, number ∉ used := by
  apply Classical.byContradiction
  intro none
  have all : List.range (used.length + 1) ⊆ used := by
    intro number member
    have small : number ≤ used.length := Nat.le_of_lt_succ (List.mem_range.mp member)
    apply Classical.byContradiction
    intro unused
    exact none ⟨number, small, unused⟩
  have long := List.nodup_range.length_le_of_subset all
  rw [List.length_range] at long
  exact Nat.not_succ_le_self _ long

theorem lowestUnused_spec (used : List Nat) :
    lowestUnused used ∉ used ∧ lowestUnused used ≤ used.length ∧
      ∀ number < lowestUnused used, number ∈ used := by
  rcases exists_unused used with ⟨number, small, unused⟩
  have inRange : number ∈ List.range (used.length + 1) :=
    List.mem_range.mpr (Nat.lt_succ_of_le small)
  cases found : (List.range (used.length + 1)).find? fun number => number ∉ used with
  | none =>
      have taken := List.find?_eq_none.mp found number inRange
      exact absurd unused (by simpa using taken)
  | some lowest =>
      have isLowest : lowestUnused used = lowest := by
        rw [lowestUnused, found]
        rfl
      rw [isLowest]
      rcases List.find?_range_eq_some.mp found with ⟨isUnused, within, before⟩
      refine ⟨of_decide_eq_true isUnused, Nat.le_of_lt_succ (List.mem_range.mp within), ?_⟩
      intro other less
      have taken := before other less
      simpa using taken

/-- Different numbers below a bound, and one more that is not among them. -/
theorem length_lt_of_unused {bound number : Nat} (nodup : used.Nodup)
    (below : ∀ other ∈ used, other < bound) (numberLt : number < bound)
    (unused : number ∉ used) : used.length < bound := by
  have all : number :: used ⊆ List.range bound := by
    intro other member
    rcases List.mem_cons.mp member with rfl | inUse
    · exact List.mem_range.mpr numberLt
    · exact List.mem_range.mpr (below other inUse)
  have short := (List.nodup_cons.mpr ⟨unused, nodup⟩).length_le_of_subset all
  rw [List.length_range, List.length_cons] at short
  exact short

end DataStructAlgorithm.Foundation
