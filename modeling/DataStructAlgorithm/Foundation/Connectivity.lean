import Mathlib.Combinatorics.Enumerative.DoubleCounting
import Mathlib.Logic.Relation

/-! # Connectivity in multigraphs

A multigraph is given by the ends of its edges, one list entry for each edge, so
parallel edges and loops are allowed. -/

namespace DataStructAlgorithm.Foundation

variable {Vertex : Type u}

/-- A path of the given edges leads from one vertex to the other. -/
def Joined (links : List (Vertex × Vertex)) : Vertex → Vertex → Prop :=
  Relation.EqvGen fun u v => (u, v) ∈ links

namespace Joined

variable {links others : List (Vertex × Vertex)} {u v w : Vertex}

theorem refl (links : List (Vertex × Vertex)) (v : Vertex) : Joined links v v :=
  Relation.EqvGen.refl v

theorem symm (joined : Joined links u v) : Joined links v u :=
  Relation.EqvGen.symm u v joined

theorem trans (first : Joined links u v) (second : Joined links v w) : Joined links u w :=
  Relation.EqvGen.trans u v w first second

theorem of_mem {link : Vertex × Vertex} (member : link ∈ links) : Joined links link.1 link.2 :=
  .rel _ _ member

/-- The endpoints of every edge are joined by the other edges. -/
theorem lift (joined : Joined links u v)
    (each : ∀ link ∈ links, Joined others link.1 link.2) : Joined others u v := by
  induction joined with
  | rel first second member => exact each _ member
  | refl => exact refl _ _
  | symm _ _ _ induction => exact induction.symm
  | trans _ _ _ _ _ first second => exact first.trans second

theorem mono (joined : Joined links u v) (subset : links ⊆ others) : Joined others u v :=
  joined.lift fun _ member => of_mem (subset member)

theorem perm_iff (same : links.Perm others) : Joined links u v ↔ Joined others u v :=
  ⟨fun joined => joined.mono same.subset, fun joined => joined.mono same.symm.subset⟩

/-- An edge between joined vertices joins no others. -/
theorem cons_iff_of_joined {link : Vertex × Vertex} (redundant : Joined links link.1 link.2) :
    Joined (link :: links) u v ↔ Joined links u v := by
  constructor
  · intro joined
    apply joined.lift
    intro other member
    rcases List.mem_cons.mp member with equal | member
    · rw [equal]
      exact redundant
    · exact of_mem member
  · intro joined
    exact joined.mono (List.subset_cons_self link links)

end Joined

theorem joined_nil {u v : Vertex} : Joined [] u v ↔ u = v := by
  constructor
  · intro joined
    induction joined with
    | rel _ _ member => cases member
    | refl => rfl
    | symm _ _ _ induction => exact induction.symm
    | trans _ _ _ _ _ first second => exact first.trans second
  · intro equal
    rw [equal]
    exact .refl _ _

/-! ## Labels of components -/

section Label

variable [DecidableEq Vertex]

/-- A vertex of the component of `v`, the same one for the whole component. -/
def label : List (Vertex × Vertex) → Vertex → Vertex
  | [], v => v
  | link :: links, v =>
      if label links v = label links link.2 then label links link.1 else label links v

/-- Two vertices have the same label exactly when they are joined. -/
theorem label_eq_iff {links : List (Vertex × Vertex)} {u v : Vertex} :
    label links u = label links v ↔ Joined links u v := by
  constructor
  · intro equal
    induction links generalizing u v with
    | nil => exact joined_nil.mpr equal
    | cons link links induction =>
        have older : ∀ {u v}, label links u = label links v → Joined (link :: links) u v :=
          fun equal => (induction equal).mono (List.subset_cons_self link links)
        have new : Joined (link :: links) link.1 link.2 := .of_mem (List.mem_cons_self ..)
        simp only [label] at equal
        by_cases first : label links u = label links link.2
        · by_cases second : label links v = label links link.2
          · exact older (first.trans second.symm)
          · rw [if_pos first, if_neg second] at equal
            exact (older first).trans (new.symm.trans (older equal))
        · by_cases second : label links v = label links link.2
          · rw [if_neg first, if_pos second] at equal
            exact (older equal).trans (new.trans (older second.symm))
          · rw [if_neg first, if_neg second] at equal
            exact older equal
  · intro joined
    induction joined with
    | refl => rfl
    | symm _ _ _ induction => exact induction.symm
    | trans _ _ _ _ _ first second => exact first.trans second
    | rel first second member =>
        induction links with
        | nil => cases member
        | cons link links induction =>
            rcases List.mem_cons.mp member with equal | member
            · rw [← equal]
              simp [label]
            · have same := induction member
              simp only [label, same]

instance (links : List (Vertex × Vertex)) (u v : Vertex) : Decidable (Joined links u v) :=
  decidable_of_iff _ label_eq_iff

/-- A path through one more edge. -/
theorem joined_cons_iff {link : Vertex × Vertex} {links : List (Vertex × Vertex)} {u v : Vertex} :
    Joined (link :: links) u v ↔ Joined links u v ∨
      (Joined links u link.1 ∧ Joined links v link.2) ∨
      (Joined links u link.2 ∧ Joined links v link.1) := by
  simp only [← label_eq_iff, label]
  by_cases first : label links u = label links link.2 <;>
    by_cases second : label links v = label links link.2 <;>
    simp [first, second, eq_comm]

/-- The number of components that the vertices fall into. -/
def componentCount (vertices : Finset Vertex) (links : List (Vertex × Vertex)) : Nat :=
  (vertices.image (label links)).card

variable {vertices : Finset Vertex} {links others : List (Vertex × Vertex)}

theorem componentCount_nil : componentCount vertices [] = vertices.card := by
  rw [componentCount]
  have same : label ([] : List (Vertex × Vertex)) = id := funext fun _ => rfl
  rw [same, Finset.image_id]

/-- Joining more vertices leaves at most as many components. -/
theorem componentCount_anti (more : ∀ u v, Joined links u v → Joined others u v) :
    componentCount vertices others ≤ componentCount vertices links := by
  apply Finset.card_le_card_of_forall_subsingleton
    (fun after before => ∃ v ∈ vertices, label others v = after ∧ label links v = before)
  · intro after member
    rcases Finset.mem_image.mp member with ⟨v, vertex, equal⟩
    exact ⟨label links v, Finset.mem_image_of_mem _ vertex, v, vertex, equal, rfl⟩
  · intro before _ first firstMem second secondMem
    rcases firstMem with ⟨_, u, _, firstEq, beforeEq⟩
    rcases secondMem with ⟨_, v, _, secondEq, sameEq⟩
    have joined := label_eq_iff.mp (beforeEq.trans sameEq.symm)
    rw [← firstEq, ← secondEq]
    exact label_eq_iff.mpr (more u v joined)

theorem componentCount_congr (same : ∀ u v, Joined links u v ↔ Joined others u v) :
    componentCount vertices links = componentCount vertices others :=
  Nat.le_antisymm (componentCount_anti fun u v => (same u v).mpr)
    (componentCount_anti fun u v => (same u v).mp)

theorem componentCount_perm (vertices : Finset Vertex) (same : links.Perm others) :
    componentCount vertices links = componentCount vertices others :=
  componentCount_congr fun _ _ => Joined.perm_iff same

theorem componentCount_subset (subset : links ⊆ others) :
    componentCount vertices others ≤ componentCount vertices links :=
  componentCount_anti fun _ _ joined => joined.mono subset

theorem componentCount_cons_of_joined {link : Vertex × Vertex}
    (joined : Joined links link.1 link.2) :
    componentCount vertices (link :: links) = componentCount vertices links :=
  componentCount_congr fun _ _ => Joined.cons_iff_of_joined joined

/-- One edge unites at most two components. -/
theorem componentCount_le_cons (vertices : Finset Vertex) (links : List (Vertex × Vertex))
    (link : Vertex × Vertex) :
    componentCount vertices links ≤ componentCount vertices (link :: links) + 1 := by
  have covered : vertices.image (label links) ⊆
      insert (label links link.2) (vertices.image (label (link :: links))) := by
    intro stored member
    rcases Finset.mem_image.mp member with ⟨v, vertex, equal⟩
    rw [← equal, Finset.mem_insert]
    by_cases united : label links v = label links link.2
    · exact Or.inl united
    · right
      have kept : label (link :: links) v = label links v := by rw [label, if_neg united]
      rw [← kept]
      exact Finset.mem_image_of_mem _ vertex
  exact (Finset.card_le_card covered).trans (Finset.card_insert_le _ _)

/-- An edge between two components unites them. -/
theorem componentCount_cons_of_not_joined {link : Vertex × Vertex}
    (separate : ¬Joined links link.1 link.2) (first : link.1 ∈ vertices)
    (second : link.2 ∈ vertices) :
    componentCount vertices (link :: links) + 1 = componentCount vertices links := by
  have different : label links link.1 ≠ label links link.2 :=
    fun equal => separate (label_eq_iff.mp equal)
  have gone : label links link.2 ∉ vertices.image (label (link :: links)) := by
    intro member
    rcases Finset.mem_image.mp member with ⟨v, _, equal⟩
    rw [label] at equal
    split at equal
    · exact different equal
    · contradiction
  have rest : insert (label links link.2) (vertices.image (label (link :: links))) ⊆
      vertices.image (label links) := by
    intro stored member
    rcases Finset.mem_insert.mp member with equal | member
    · rw [equal]
      exact Finset.mem_image_of_mem _ second
    · rcases Finset.mem_image.mp member with ⟨v, vertex, equal⟩
      rw [← equal, label]
      split
      · exact Finset.mem_image_of_mem _ first
      · exact Finset.mem_image_of_mem _ vertex
  have atMost := componentCount_le_cons vertices links link
  have atLeast := Finset.card_le_card rest
  rw [Finset.card_insert_of_notMem gone] at atLeast
  exact Nat.le_antisymm atLeast atMost

/-- As many edges unite at most as many components. -/
theorem componentCount_le_append (vertices : Finset Vertex) (links more : List (Vertex × Vertex)) :
    componentCount vertices links ≤ componentCount vertices (more ++ links) + more.length := by
  induction more with
  | nil => exact Nat.le_refl _
  | cons link more induction =>
      have step := componentCount_le_cons vertices (more ++ links) link
      rw [List.cons_append, List.length_cons]
      omega

end Label

/-! ## Connected and acyclic graphs -/

/-- The edges connect all the vertices. -/
def Connects (vertices : Finset Vertex) (links : List (Vertex × Vertex)) : Prop :=
  ∀ u ∈ vertices, ∀ v ∈ vertices, Joined links u v

/-- No edge has ends that the other edges join. -/
def Acyclic (links : List (Vertex × Vertex)) : Prop :=
  ∀ before link after, links = before ++ link :: after → ¬Joined (before ++ after) link.1 link.2

theorem Connects.mono {vertices : Finset Vertex} {links others : List (Vertex × Vertex)}
    (connects : Connects vertices links) (subset : links ⊆ others) : Connects vertices others :=
  fun u first v second => (connects u first v second).mono subset

theorem Acyclic.tail {link : Vertex × Vertex} {links : List (Vertex × Vertex)}
    (acyclic : Acyclic (link :: links)) : Acyclic links := by
  intro before other after split joined
  apply acyclic (link :: before) other after (by rw [split, List.cons_append])
  exact joined.mono (List.subset_cons_self link _)

section Counting

variable [DecidableEq Vertex] {vertices : Finset Vertex} {links : List (Vertex × Vertex)}

instance (vertices : Finset Vertex) (links : List (Vertex × Vertex)) :
    Decidable (Connects vertices links) :=
  inferInstanceAs (Decidable (∀ u ∈ vertices, ∀ v ∈ vertices, Joined links u v))

theorem connects_iff : Connects vertices links ↔ componentCount vertices links ≤ 1 := by
  rw [componentCount, Finset.card_le_one]
  constructor
  · intro connects first firstMem second secondMem
    rcases Finset.mem_image.mp firstMem with ⟨u, uMem, firstEq⟩
    rcases Finset.mem_image.mp secondMem with ⟨v, vMem, secondEq⟩
    rw [← firstEq, ← secondEq]
    exact label_eq_iff.mpr (connects u uMem v vMem)
  · intro single u uMem v vMem
    exact label_eq_iff.mp
      (single _ (Finset.mem_image_of_mem _ uMem) _ (Finset.mem_image_of_mem _ vMem))

theorem componentCount_pos (links : List (Vertex × Vertex)) (nonempty : vertices.Nonempty) :
    0 < componentCount vertices links :=
  Finset.card_pos.mpr (nonempty.image _)

/-- In an acyclic graph each edge unites two components. -/
theorem Acyclic.componentCount (acyclic : Acyclic links)
    (within : ∀ link ∈ links, link.1 ∈ vertices ∧ link.2 ∈ vertices) :
    componentCount vertices links + links.length = vertices.card := by
  induction links with
  | nil => exact componentCount_nil
  | cons link links induction =>
      have separate := acyclic [] link links rfl
      have ends := within link (List.mem_cons_self ..)
      have rest := induction acyclic.tail fun other member =>
        within other (List.mem_cons_of_mem link member)
      have united := componentCount_cons_of_not_joined separate ends.1 ends.2
      rw [List.nil_append] at united
      rw [List.length_cons]
      omega

/-- A graph in which each edge unites two components is acyclic, whatever the order
in which its edges are listed. -/
theorem acyclic_of_componentCount (vertices : Finset Vertex)
    (count : componentCount vertices links + links.length = vertices.card) : Acyclic links := by
  intro before link after split joined
  have arranged : links.Perm (link :: (before ++ after)) := by
    rw [split]
    exact List.perm_middle
  have same := componentCount_perm vertices arranged
  rw [componentCount_cons_of_joined joined] at same
  have rest := componentCount_le_append vertices [] (before ++ after)
  rw [componentCount_nil, List.append_nil] at rest
  have lengthEq := arranged.length_eq
  rw [List.length_cons] at lengthEq
  omega

theorem Acyclic.perm (acyclic : Acyclic links) {others : List (Vertex × Vertex)}
    (same : links.Perm others) : Acyclic others := by
  have within : ∀ link ∈ links, link.1 ∈ (links.flatMap fun link => [link.1, link.2]).toFinset ∧
      link.2 ∈ (links.flatMap fun link => [link.1, link.2]).toFinset := by
    intro link member
    constructor <;> exact List.mem_toFinset.mpr (List.mem_flatMap.mpr ⟨link, member, by simp⟩)
  have counted := acyclic.componentCount within
  rw [componentCount_perm _ same, same.length_eq] at counted
  exact acyclic_of_componentCount _ counted

end Counting

end DataStructAlgorithm.Foundation
