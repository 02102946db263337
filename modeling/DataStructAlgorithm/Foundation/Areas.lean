import Mathlib.Data.List.Perm.Basic

/-! # Areas of memory

Intervals of addresses. An area of size zero has no bytes: it is apart from
everything and inside everything. -/

namespace DataStructAlgorithm.Foundation

structure Area where
  base : Nat
  size : Nat
  deriving DecidableEq, Repr

namespace Area

/-- The areas have no byte in common. -/
def Apart (area other : Area) : Prop :=
  area.size = 0 ∨ other.size = 0 ∨ area.base + area.size ≤ other.base ∨
    other.base + other.size ≤ area.base

instance (area other : Area) : Decidable (Apart area other) :=
  inferInstanceAs (Decidable (_ ∨ _))

/-- Every byte of the first area is one of the other. -/
def Inside (area other : Area) : Prop :=
  area.size = 0 ∨ other.base ≤ area.base ∧ area.base + area.size ≤ other.base + other.size

theorem Apart.symm {area other : Area} (apart : Apart area other) : Apart other area := by
  unfold Apart at apart ⊢
  omega

theorem Inside.refl (area : Area) : Inside area area :=
  Or.inr ⟨Nat.le_refl _, Nat.le_refl _⟩

theorem Inside.trans {first second third : Area} (inner : Inside first second)
    (outer : Inside second third) : Inside first third := by
  unfold Inside at inner outer ⊢
  omega

theorem Inside.apart {inner outer other : Area} (inside : Inside inner outer)
    (apart : Apart outer other) : Apart inner other := by
  unfold Inside at inside
  unfold Apart at apart ⊢
  omega

/-- Areas apart from each other stay so when one of them is cut into pieces. -/
theorem apart_cut {area : Area} {pieces others : List Area}
    (apart : (area :: others).Pairwise Apart) (piecesApart : pieces.Pairwise Apart)
    (inside : ∀ piece ∈ pieces, Inside piece area) : (pieces ++ others).Pairwise Apart := by
  rw [List.pairwise_cons] at apart
  refine List.pairwise_append.mpr ⟨piecesApart, apart.2, ?_⟩
  intro piece member other otherMember
  exact (inside piece member).apart (apart.1 other otherMember)

/-- Any two areas of a list that are apart, in whatever order. -/
theorem apart_perm {areas others : List Area} (apart : areas.Pairwise Apart)
    (same : areas.Perm others) : others.Pairwise Apart :=
  (same.pairwise_iff Apart.symm).mp apart

/-! ## Rows of areas -/

/-- The addresses of `count` blocks of one size that stand side by side. -/
def row (size : Nat) : Nat → Nat → List Nat
  | 0, _ => []
  | count + 1, base => base :: row size count (base + size)

theorem row_bounds {size count base address : Nat} (member : address ∈ row size count base) :
    base ≤ address ∧ address + size ≤ base + size * count := by
  induction count generalizing base with
  | zero => cases member
  | succ count induction =>
      rw [Nat.mul_succ]
      rcases List.mem_cons.mp member with equal | later
      · subst equal
        omega
      · have bounds := induction later
        omega

/-- The blocks of a row are apart. -/
theorem row_apart (size count base : Nat) :
    ((row size count base).map fun address => Area.mk address size).Pairwise Apart := by
  induction count generalizing base with
  | zero => exact List.Pairwise.nil
  | succ count induction =>
      refine List.pairwise_cons.mpr ⟨?_, induction (base + size)⟩
      intro other member
      rcases List.mem_map.mp member with ⟨address, inRow, rfl⟩
      exact Or.inr (Or.inr (Or.inl (row_bounds inRow).1))

end Area

end DataStructAlgorithm.Foundation
