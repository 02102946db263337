import Mathlib.Algebra.BigOperators.Group.List.Basic
import Mathlib.Algebra.Order.Monoid.Unbundled.Pow
import DataStructAlgorithm.Foundation.Connectivity

/-! # Spanning trees of least weight

Taking the edges in the order of their weights, and leaving out those whose ends
are joined already, selects a spanning tree of least weight. -/

namespace DataStructAlgorithm.Foundation

variable {Edge : Type v} {Vertex : Type u} {W : Type w}

/-- Some of the edges, which connect all vertices without a cycle. -/
structure SpanningTree (ends : Edge → Vertex × Vertex) (vertices : Finset Vertex)
    (edges tree : List Edge) : Prop where
  chosen : tree.Subperm edges
  acyclic : Acyclic (tree.map ends)
  connects : Connects vertices (tree.map ends)

def totalWeight [AddCommMonoid W] (weight : Edge → W) (edges : List Edge) : W :=
  (edges.map weight).sum

structure MinimumSpanningTree [AddCommMonoid W] [LE W] (ends : Edge → Vertex × Vertex)
    (weight : Edge → W) (vertices : Finset Vertex) (edges tree : List Edge) : Prop where
  spans : SpanningTree ends vertices edges tree
  least : ∀ other, SpanningTree ends vertices edges other →
    totalWeight weight tree ≤ totalWeight weight other

variable [DecidableEq Vertex] {ends : Edge → Vertex × Vertex} {vertices : Finset Vertex}

/-- The edges that join what the edges before them do not. -/
def greedy (ends : Edge → Vertex × Vertex) : (seen edges : List Edge) → List Edge
  | _, [] => []
  | seen, edge :: edges =>
      if Joined (seen.map ends) (ends edge).1 (ends edge).2 then greedy ends (edge :: seen) edges
      else edge :: greedy ends (edge :: seen) edges

theorem greedy_sublist (seen edges : List Edge) : (greedy ends seen edges).Sublist edges := by
  induction edges generalizing seen with
  | nil => exact List.Sublist.refl _
  | cons edge edges induction =>
      rw [greedy]
      split
      · exact (induction _).cons edge
      · exact (induction _).cons_cons edge

theorem greedy_append (ends : Edge → Vertex × Vertex) (seen first second : List Edge) :
    greedy ends seen (first ++ second) =
      greedy ends seen first ++ greedy ends (first.reverse ++ seen) second := by
  induction first generalizing seen with
  | nil => rfl
  | cons edge first induction =>
      have same : (edge :: first).reverse ++ seen = first.reverse ++ edge :: seen := by simp
      rw [List.cons_append, greedy, greedy, same]
      split
      · exact induction _
      · rw [induction, List.cons_append]

/-- Nothing is selected from the edges after a connected part. -/
theorem greedy_of_connects {seen edges : List Edge}
    (connected : Connects vertices (seen.map ends))
    (within : ∀ edge ∈ edges, (ends edge).1 ∈ vertices ∧ (ends edge).2 ∈ vertices) :
    greedy ends seen edges = [] := by
  induction edges generalizing seen with
  | nil => rfl
  | cons edge edges induction =>
      have edgeEnds := within edge (List.mem_cons_self ..)
      rw [greedy, if_pos (connected _ edgeEnds.1 _ edgeEnds.2)]
      apply induction
      · exact connected.mono (List.map_subset ends (List.subset_cons_self edge seen))
      · exact fun other member => within other (List.mem_cons_of_mem edge member)

/-- The number of components that the edges leave. -/
def remaining (ends : Edge → Vertex × Vertex) (vertices : Finset Vertex) (edges : List Edge) :
    Nat :=
  componentCount vertices (edges.map ends)

theorem remaining_perm {edges others : List Edge} (same : edges.Perm others) :
    remaining ends vertices edges = remaining ends vertices others :=
  componentCount_perm vertices (same.map ends)

theorem remaining_subset {edges others : List Edge} (subset : edges ⊆ others) :
    remaining ends vertices others ≤ remaining ends vertices edges :=
  componentCount_subset (List.map_subset ends subset)

/-- Each edge that is selected unites two components. -/
theorem greedy_remaining (seen edges : List Edge)
    (within : ∀ edge ∈ edges, (ends edge).1 ∈ vertices ∧ (ends edge).2 ∈ vertices) :
    remaining ends vertices (edges ++ seen) + (greedy ends seen edges).length =
      remaining ends vertices seen := by
  induction edges generalizing seen with
  | nil => rfl
  | cons edge edges induction =>
      have rest := induction (edge :: seen) fun other member =>
        within other (List.mem_cons_of_mem edge member)
      have arranged : remaining ends vertices (edges ++ edge :: seen) =
          remaining ends vertices (edge :: edges ++ seen) := remaining_perm List.perm_middle
      rw [greedy]
      split
      · rename_i joined
        have same : remaining ends vertices (edge :: seen) = remaining ends vertices seen :=
          componentCount_cons_of_joined joined
        omega
      · rename_i separate
        have edgeEnds := within edge (List.mem_cons_self ..)
        have united : remaining ends vertices (edge :: seen) + 1 = remaining ends vertices seen :=
          componentCount_cons_of_not_joined separate edgeEnds.1 edgeEnds.2
        rw [List.length_cons]
        omega

/-- The selected edges join as much as all edges do. -/
theorem joined_greedy (seen edges : List Edge) {u v : Vertex} :
    Joined ((greedy ends seen edges ++ seen).map ends) u v ↔
      Joined ((edges ++ seen).map ends) u v := by
  constructor
  · intro joined
    apply joined.mono
    apply List.map_subset
    exact List.append_subset.mpr ⟨List.Subset.trans (greedy_sublist seen edges).subset
      (List.subset_append_left _ _), List.subset_append_right _ _⟩
  · induction edges generalizing seen with
    | nil => exact id
    | cons edge edges induction =>
        intro joined
        have later := induction (edge :: seen)
          ((Joined.perm_iff (List.perm_middle.map ends)).mpr joined)
        rw [greedy]
        split
        · rename_i redundant
          apply later.lift
          intro link member
          rcases List.mem_map.mp member with ⟨other, otherMem, rfl⟩
          rcases List.mem_append.mp otherMem with selected | old
          · exact Joined.of_mem (List.mem_map_of_mem (List.mem_append_left _ selected))
          · rcases List.mem_cons.mp old with equal | old
            · rw [equal]
              exact redundant.mono (List.map_subset ends (List.subset_append_right _ _))
            · exact Joined.of_mem (List.mem_map_of_mem (List.mem_append_right _ old))
        · exact (Joined.perm_iff (List.perm_middle.map ends)).mp later

/-- The selection from a connected graph is a spanning tree. -/
theorem greedy_spans {edges : List Edge}
    (within : ∀ edge ∈ edges, (ends edge).1 ∈ vertices ∧ (ends edge).2 ∈ vertices)
    (connected : Connects vertices (edges.map ends)) :
    SpanningTree ends vertices edges (greedy ends [] edges) where
  chosen := (greedy_sublist [] edges).subperm
  acyclic := by
    have counted := greedy_remaining [] edges within
    have same : remaining ends vertices (greedy ends [] edges) =
        remaining ends vertices (edges ++ []) := by
      apply componentCount_congr
      intro u v
      have joined : Joined ((greedy ends [] edges ++ []).map ends) u v ↔
          Joined ((edges ++ []).map ends) u v := joined_greedy [] edges
      rwa [List.append_nil] at joined
    rw [← same] at counted
    apply acyclic_of_componentCount vertices
    rw [List.length_map]
    exact counted.trans componentCount_nil
  connects := by
    intro u first v second
    have joined : Joined ((greedy ends [] edges ++ []).map ends) u v ↔
        Joined ((edges ++ []).map ends) u v := joined_greedy [] edges
    simp only [List.append_nil] at joined
    exact joined.mpr (connected u first v second)

/-- Each edge of a spanning tree unites two components. -/
theorem SpanningTree.remaining {edges tree : List Edge} (spans : SpanningTree ends vertices edges tree)
    (within : ∀ edge ∈ edges, (ends edge).1 ∈ vertices ∧ (ends edge).2 ∈ vertices) :
    Foundation.remaining ends vertices tree + tree.length = vertices.card := by
  have treeWithin : ∀ link ∈ tree.map ends, link.1 ∈ vertices ∧ link.2 ∈ vertices := by
    intro link member
    rcases List.mem_map.mp member with ⟨edge, edgeMem, rfl⟩
    exact within edge (spans.chosen.subset edgeMem)
  have counted := spans.acyclic.componentCount treeWithin
  rwa [List.length_map] at counted

/-- A spanning tree has one edge less than the graph has vertices. -/
theorem SpanningTree.length_eq {edges tree : List Edge} (spans : SpanningTree ends vertices edges tree)
    (within : ∀ edge ∈ edges, (ends edge).1 ∈ vertices ∧ (ends edge).2 ∈ vertices)
    (nonempty : vertices.Nonempty) : tree.length + 1 = vertices.card := by
  have counted := spans.remaining within
  have single : Foundation.remaining ends vertices tree ≤ 1 := connects_iff.mp spans.connects
  have positive : 0 < Foundation.remaining ends vertices tree := componentCount_pos _ nonempty
  omega

/-! ## Least weight -/

section Weight

variable [AddCommMonoid W] [LinearOrder W] [IsOrderedAddMonoid W] {weight : Edge → W}

/-- The rest of the selection weighs no more than the rest of any tree. The tree has
taken `picked` so far, and so has left `ahead` more components than the edges seen. -/
theorem greedy_le {edges : List Edge} (sorted : edges.Pairwise fun e f => weight e ≤ weight f)
    (within : ∀ edge ∈ edges, (ends edge).1 ∈ vertices ∧ (ends edge).2 ∈ vertices)
    (seen picked tree : List Edge) (ahead : Nat) (bound : W) (sublist : tree.Sublist edges)
    (old : picked ⊆ seen)
    (unites : remaining ends vertices (tree ++ picked) + tree.length =
      remaining ends vertices picked)
    (connected : remaining ends vertices (tree ++ picked) ≤ remaining ends vertices (edges ++ seen))
    (aheadEq : remaining ends vertices picked = remaining ends vertices seen + ahead)
    (heavier : ∀ edge ∈ edges, bound ≤ weight edge) :
    totalWeight weight (greedy ends seen edges) + ahead • bound ≤ totalWeight weight tree := by
  induction edges generalizing seen picked tree ahead bound with
  | nil =>
      rw [List.sublist_nil] at sublist
      subst sublist
      simp only [List.nil_append] at connected
      have level : ahead = 0 := by omega
      simp [greedy, level]
  | cons edge edges induction =>
      rw [List.pairwise_cons] at sorted
      have edgeEnds := within edge (List.mem_cons_self ..)
      have arranged : remaining ends vertices (edges ++ edge :: seen) =
          remaining ends vertices (edge :: edges ++ seen) := remaining_perm List.perm_middle
      have later : ∀ picked tree ahead, tree.Sublist edges → picked ⊆ edge :: seen →
          remaining ends vertices (tree ++ picked) + tree.length =
            remaining ends vertices picked →
          remaining ends vertices (tree ++ picked) ≤
            remaining ends vertices (edges ++ edge :: seen) →
          remaining ends vertices picked = remaining ends vertices (edge :: seen) + ahead →
          totalWeight weight (greedy ends (edge :: seen) edges) + ahead • weight edge ≤
            totalWeight weight tree :=
        fun picked tree ahead sublist old unites connected aheadEq =>
          induction sorted.2 (fun other member => within other (List.mem_cons_of_mem edge member))
            (edge :: seen) picked tree ahead (weight edge) sublist old unites connected aheadEq
            sorted.1
      have raised : ahead • bound ≤ ahead • weight edge :=
        nsmul_le_nsmul_right (heavier edge (List.mem_cons_self ..)) ahead
      rw [greedy]
      rcases List.sublist_cons_iff.mp sublist with skipped | ⟨rest, equal, restSub⟩
      · -- the tree does without this edge
        have oldStill : picked ⊆ edge :: seen :=
          List.Subset.trans old (List.subset_cons_self edge seen)
        split
        · rename_i joined
          have same : remaining ends vertices (edge :: seen) = remaining ends vertices seen :=
            componentCount_cons_of_joined joined
          exact (add_le_add le_rfl raised).trans
            (later picked tree ahead skipped oldStill unites (by omega) (by omega))
        · rename_i separate
          have united : remaining ends vertices (edge :: seen) + 1 =
              remaining ends vertices seen :=
            componentCount_cons_of_not_joined separate edgeEnds.1 edgeEnds.2
          have bounded :=
            later picked tree (ahead + 1) skipped oldStill unites (by omega) (by omega)
          calc totalWeight weight (edge :: greedy ends (edge :: seen) edges) + ahead • bound
              ≤ totalWeight weight (edge :: greedy ends (edge :: seen) edges) +
                  ahead • weight edge := add_le_add le_rfl raised
            _ = totalWeight weight (greedy ends (edge :: seen) edges) +
                  (ahead + 1) • weight edge := by
                simp only [totalWeight, List.map_cons, List.sum_cons, succ_nsmul]
                rw [add_assoc, add_comm]
                rw [add_assoc]
            _ ≤ totalWeight weight tree := bounded
      · -- the tree takes it
        subst equal
        have arrangedTree : remaining ends vertices (rest ++ edge :: picked) =
            remaining ends vertices (edge :: rest ++ picked) := remaining_perm List.perm_middle
        have one : remaining ends vertices picked ≤
            remaining ends vertices (edge :: picked) + 1 := componentCount_le_cons _ _ _
        have others : remaining ends vertices (edge :: picked) ≤
            remaining ends vertices (rest ++ edge :: picked) + rest.length := by
          have appended := componentCount_le_append vertices ((edge :: picked).map ends)
            (rest.map ends)
          rwa [← List.map_append, List.length_map] at appended
        rw [List.length_cons] at unites
        have oldStill : edge :: picked ⊆ edge :: seen := List.cons_subset_cons edge old
        have weightEq : totalWeight weight (edge :: rest) =
            weight edge + totalWeight weight rest := by
          simp [totalWeight]
        split
        · rename_i joined
          have same : remaining ends vertices (edge :: seen) = remaining ends vertices seen :=
            componentCount_cons_of_joined joined
          have fewer : remaining ends vertices (edge :: seen) ≤
              remaining ends vertices (edge :: picked) := remaining_subset oldStill
          have positive : ∃ less, ahead = less + 1 := ⟨ahead - 1, by omega⟩
          rcases positive with ⟨less, aheadIs⟩
          subst aheadIs
          have bounded := later (edge :: picked) rest less restSub oldStill (by omega) (by omega)
            (by omega)
          calc totalWeight weight (greedy ends (edge :: seen) edges) + (less + 1) • bound
              ≤ totalWeight weight (greedy ends (edge :: seen) edges) +
                  (less + 1) • weight edge := add_le_add le_rfl raised
            _ = weight edge + (totalWeight weight (greedy ends (edge :: seen) edges) +
                  less • weight edge) := by
                rw [succ_nsmul, ← add_assoc, add_comm]
            _ ≤ weight edge + totalWeight weight rest := add_le_add le_rfl bounded
            _ = totalWeight weight (edge :: rest) := weightEq.symm
        · rename_i separate
          have united : remaining ends vertices (edge :: seen) + 1 =
              remaining ends vertices seen :=
            componentCount_cons_of_not_joined separate edgeEnds.1 edgeEnds.2
          have bounded := later (edge :: picked) rest ahead restSub oldStill (by omega) (by omega)
            (by omega)
          calc totalWeight weight (edge :: greedy ends (edge :: seen) edges) + ahead • bound
              ≤ totalWeight weight (edge :: greedy ends (edge :: seen) edges) +
                  ahead • weight edge := add_le_add le_rfl raised
            _ = weight edge + (totalWeight weight (greedy ends (edge :: seen) edges) +
                  ahead • weight edge) := by
                simp only [totalWeight, List.map_cons, List.sum_cons]
                rw [add_assoc]
            _ ≤ weight edge + totalWeight weight rest := add_le_add le_rfl bounded
            _ = totalWeight weight (edge :: rest) := weightEq.symm

/-- From the edges of a connected graph in the order of their weights, the selection
is a spanning tree of least weight. -/
theorem greedy_minimum {edges : List Edge}
    (sorted : edges.Pairwise fun e f => weight e ≤ weight f)
    (within : ∀ edge ∈ edges, (ends edge).1 ∈ vertices ∧ (ends edge).2 ∈ vertices)
    (connected : Connects vertices (edges.map ends)) :
    MinimumSpanningTree ends weight vertices edges (greedy ends [] edges) where
  spans := greedy_spans within connected
  least := by
    intro other spans
    rcases spans.chosen with ⟨arranged, same, sublist⟩
    have counted := spans.remaining within
    have sameCount : remaining ends vertices arranged = remaining ends vertices other :=
      remaining_perm same
    have nothing : remaining ends vertices [] = vertices.card := componentCount_nil
    have unites : remaining ends vertices (arranged ++ []) + arranged.length =
        remaining ends vertices [] := by
      rw [List.append_nil, sameCount, same.length_eq, nothing]
      exact counted
    have fewest : remaining ends vertices (arranged ++ []) ≤
        remaining ends vertices (edges ++ []) := by
      rw [List.append_nil, List.append_nil, sameCount]
      rcases vertices.eq_empty_or_nonempty with empty | nonempty
      · simp [remaining, componentCount, empty]
      · have single : remaining ends vertices other ≤ 1 := connects_iff.mp spans.connects
        exact single.trans (componentCount_pos _ nonempty)
    have weightEq : totalWeight weight arranged = totalWeight weight other :=
      (same.map weight).sum_eq
    rw [← weightEq]
    cases edges with
    | nil =>
        rw [List.sublist_nil.mp sublist]
        exact le_rfl
    | cons edge edges =>
        have lightest : ∀ other ∈ edge :: edges, weight edge ≤ weight other := by
          intro other member
          rcases List.mem_cons.mp member with equal | member
          · rw [equal]
          · exact List.rel_of_pairwise_cons sorted member
        have bounded := greedy_le sorted within [] [] arranged 0 (weight edge) sublist
          (List.nil_subset _) unites fewest rfl lightest
        rwa [zero_nsmul, add_zero] at bounded

end Weight

end DataStructAlgorithm.Foundation
