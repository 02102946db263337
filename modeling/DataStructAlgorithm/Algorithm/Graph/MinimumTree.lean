import Mathlib.Order.Lattice
import DataStructAlgorithm.Foundation.SpanningTree
import DataStructAlgorithm.Algorithm.Graph.Kruskal

/-! # When `Kruskal` builds a minimum spanning tree

The union-find array does not see paths through index 0. That does no harm as long
as index 0 is on no cycle of the edges that the loop looks at. -/

namespace DataStructAlgorithm.Algorithm.GraphLinkTable

open Foundation UnionFindSet

variable {V W : Type}

/-! ## The edges that are kept -/

section Kept

theorem kept_sublist (seen edges : List (Edge W)) : (kept seen edges).Sublist edges := by
  induction edges generalizing seen with
  | nil => exact List.Sublist.refl _
  | cons edge edges induction =>
      rw [kept]
      split
      · exact (induction _).cons edge
      · exact (induction _).cons_cons edge

theorem kept_append (seen first second : List (Edge W)) :
    kept seen (first ++ second) = kept seen first ++ kept (first.reverse ++ seen) second := by
  induction first generalizing seen with
  | nil => rfl
  | cons edge first induction =>
      have same : (edge :: first).reverse ++ seen = first.reverse ++ edge :: seen := by simp
      rw [List.cons_append, kept, kept, same]
      split
      · exact induction _
      · rw [induction, List.cons_append]

/-- The first few of the edges that are kept come from a first part of the edges. -/
theorem exists_take_kept (seen edges : List (Edge W)) (wanted : Nat) :
    ∃ count, (kept seen edges).take wanted = kept seen (edges.take count) := by
  induction edges generalizing seen wanted with
  | nil => exact ⟨0, by simp [kept]⟩
  | cons edge edges induction =>
      rw [kept]
      split
      · rename_i joined
        rcases induction (edge :: seen) wanted with ⟨count, taken⟩
        refine ⟨count + 1, ?_⟩
        rw [List.take_succ_cons, kept, if_pos joined]
        exact taken
      · rename_i separate
        cases wanted with
        | zero => exact ⟨0, by simp [kept]⟩
        | succ wanted =>
            rcases induction (edge :: seen) wanted with ⟨count, taken⟩
            refine ⟨count + 1, ?_⟩
            rw [List.take_succ_cons, List.take_succ_cons, kept, if_neg separate, taken]

/-- Every edge of index 0 is kept. -/
theorem touching_kept (seen edges : List (Edge W)) (noLoop : ∀ edge ∈ edges, edge.src < edge.dst) :
    touching 0 ((kept seen edges).map Edge.ends) = touching 0 (edges.map Edge.ends) := by
  induction edges generalizing seen with
  | nil => rfl
  | cons edge edges induction =>
      have rest := induction (edge :: seen) fun other member =>
        noLoop other (List.mem_cons_of_mem edge member)
      have less := noLoop edge (List.mem_cons_self ..)
      simp only [touching] at rest ⊢
      rw [kept]
      split
      · rename_i joined
        have misses : ¬Touches 0 (Edge.ends edge) := by
          have iff := eq_iff_of_avoiding joined
          intro touches
          rcases touches with zero | zero
          · have other := iff.mp zero
            omega
          · simp only [Edge.ends] at zero
            omega
        rw [rest, List.map_cons, List.filter_cons_of_neg (by simpa using misses)]
      · by_cases touches : Touches 0 (Edge.ends edge)
        · rw [List.map_cons, List.map_cons, List.filter_cons_of_pos (by simpa using touches),
            List.filter_cons_of_pos (by simpa using touches), rest]
        · rw [List.map_cons, List.map_cons, List.filter_cons_of_neg (by simpa using touches),
            List.filter_cons_of_neg (by simpa using touches), rest]

/-- The edges that are kept have the same paths around index 0 as all edges. -/
theorem joined_avoiding_kept (seen edges : List (Edge W)) {u v : Nat}
    (joined : Joined (avoiding 0 ((edges ++ seen).map Edge.ends)) u v) :
    Joined (avoiding 0 ((kept seen edges ++ seen).map Edge.ends)) u v := by
  induction edges generalizing seen with
  | nil => exact joined
  | cons edge edges induction =>
      have arranged : ∀ chosen : List (Edge W),
          (avoiding 0 ((chosen ++ edge :: seen).map Edge.ends)).Perm
            (avoiding 0 ((edge :: chosen ++ seen).map Edge.ends)) :=
        fun chosen => (List.perm_middle.map Edge.ends).filter _
      have later := induction (edge :: seen) ((Joined.perm_iff (arranged edges)).mpr joined)
      rw [kept]
      split
      · rename_i redundant
        apply ((Joined.perm_iff (arranged _)).mp later).lift
        intro link member
        rcases mem_avoiding.mp member with ⟨member, misses⟩
        rw [List.cons_append, List.map_cons] at member
        rcases List.mem_cons.mp member with equal | member
        · rw [equal]
          exact redundant.mono
            (List.filter_subset _ (List.map_subset _ (List.subset_append_right _ _)))
        · exact Joined.of_mem (mem_avoiding.mpr ⟨member, misses⟩)
      · exact (Joined.perm_iff (arranged _)).mp later

/-- When index 0 is on no cycle, the edges that are kept are the right ones. -/
theorem kept_eq_greedy (seen edges : List (Edge W)) (noLoop : ∀ edge ∈ edges, edge.src < edge.dst)
    (none : OnNoCycle 0 ((seen.reverse ++ edges).map Edge.ends)) :
    kept seen edges = greedy Edge.ends seen edges := by
  induction edges generalizing seen with
  | nil => rfl
  | cons edge edges induction =>
      have arranged : seen.reverse ++ edge :: edges = (edge :: seen).reverse ++ edges := by simp
      have rest := induction (edge :: seen)
        (fun other member => noLoop other (List.mem_cons_of_mem edge member))
        (by rw [← arranged]; exact none)
      have less := noLoop edge (List.mem_cons_self ..)
      rw [kept, greedy, rest]
      by_cases avoids : Joined (avoiding 0 (seen.map Edge.ends)) edge.src edge.dst
      · have joined : Joined (seen.map Edge.ends) edge.ends.1 edge.ends.2 :=
          avoids.mono avoiding_subset
        rw [if_pos avoids, if_pos joined]
      · rw [if_neg avoids, if_neg]
        intro joined
        apply avoids
        rw [List.map_append, List.map_cons] at none
        have reversed : (seen.map Edge.ends).Perm (seen.reverse.map Edge.ends) :=
          (List.reverse_perm seen).symm.map Edge.ends
        have found := none.avoids (Nat.ne_of_lt less) ((Joined.perm_iff reversed).mp joined)
        exact (Joined.perm_iff (reversed.filter _)).mpr found.2

/-- Index 0 is on no cycle of the edges up to the one that connects the graph. -/
def SparesZero (size : Nat) (order : List (Edge W)) : Prop :=
  ∀ count, (∀ fewer < count, ¬Connects (Finset.range size) ((order.take fewer).map Edge.ends)) →
    OnNoCycle 0 ((order.take count).map Edge.ends)

/-- The first edges that are kept are acyclic only if index 0 is on no cycle. -/
theorem sparesZero_of_acyclic {size : Nat} {order : List (Edge W)}
    (noLoop : ∀ edge ∈ order, edge.src < edge.dst) {wanted : Nat}
    (acyclic : Acyclic (((kept [] order).take wanted).map Edge.ends))
    (connects : Connects (Finset.range size) (((kept [] order).take wanted).map Edge.ends)) :
    SparesZero size order := by
  rcases exists_take_kept [] order wanted with ⟨enough, taken⟩
  rw [taken] at acyclic connects
  have noLoopTaken : ∀ edge ∈ order.take enough, edge.src < edge.dst :=
    fun edge member => noLoop edge (List.mem_of_mem_take member)
  intro count apart
  have reached : count ≤ enough := by
    by_contra beyond
    have joins : Connects (Finset.range size) ((order.take enough).map Edge.ends) :=
      connects.mono (List.map_subset _ (kept_sublist [] _).subset)
    exact apart enough (by omega) joins
  have none : OnNoCycle 0 ((order.take enough).map Edge.ends) := by
    have keptNone := acyclic.onNoCycle 0
    rw [OnNoCycle, touching_kept [] _ noLoopTaken] at keptNone
    refine keptNone.imp ?_
    intro f g separate joined
    apply separate
    have found := joined_avoiding_kept [] (order.take enough)
      (by rw [List.append_nil]; exact joined)
    rwa [List.append_nil] at found
  apply none.mono
  apply List.Sublist.map
  exact List.take_sublist_take_left reached

/-- When index 0 is on no cycle, the first edges that are kept are the right ones. -/
theorem take_kept_of_sparesZero {size : Nat} {order : List (Edge W)}
    (noLoop : ∀ edge ∈ order, edge.src < edge.dst ∧ edge.dst < size)
    (connected : Connects (Finset.range size) (order.map Edge.ends)) (positive : 0 < size)
    (spares : SparesZero size order) :
    (kept [] order).take (size - 1) = greedy Edge.ends [] order ∧
      size - 1 ≤ (kept [] order).length := by
  classical
  have within : ∀ edge ∈ order, (Edge.ends edge).1 ∈ Finset.range size ∧
      (Edge.ends edge).2 ∈ Finset.range size := by
    intro edge member
    have ends := noLoop edge member
    simp only [Edge.ends, Finset.mem_range]
    omega
  have reaches : ∃ count, Connects (Finset.range size) ((order.take count).map Edge.ends) :=
    ⟨order.length, by rwa [List.take_length]⟩
  let count := Nat.find reaches
  have connects : Connects (Finset.range size) ((order.take count).map Edge.ends) :=
    Nat.find_spec reaches
  have none := spares count fun fewer less => Nat.find_min reaches less
  have same := kept_eq_greedy [] (order.take count)
    (fun edge member => (noLoop edge (List.mem_of_mem_take member)).1) none
  have split : order.take count ++ order.drop count = order := List.take_append_drop ..
  have keptEq : kept [] order =
      greedy Edge.ends [] (order.take count) ++
        kept ((order.take count).reverse ++ []) (order.drop count) := by
    rw [← same, ← kept_append, split]
  have nothingLater : greedy Edge.ends ((order.take count).reverse ++ []) (order.drop count) = [] := by
    apply greedy_of_connects
    · apply connects.mono
      apply List.map_subset
      intro edge member
      simpa using member
    · exact fun edge member => within edge (List.mem_of_mem_drop member)
  have greedyEq : greedy Edge.ends [] order = greedy Edge.ends [] (order.take count) := by
    have parts := greedy_append Edge.ends [] (order.take count) (order.drop count)
    rwa [split, nothingLater, List.append_nil] at parts
  have lengthEq := (greedy_spans within connected).length_eq within
    (Finset.nonempty_range_iff.mpr (by omega))
  rw [Finset.card_range, greedyEq] at lengthEq
  have taken : size - 1 = (greedy Edge.ends [] (order.take count)).length := by omega
  rw [greedyEq, keptEq, taken, List.take_left']
  · exact ⟨rfl, by rw [List.length_append]; omega⟩
  · rfl

end Kept

/-! ## The whole function -/

/-- The lists of a table that has been resized. -/
theorem buckets_resize {heap : Store (EdgeNode W)} {heads : List Ptr}
    {buckets : List (List (Nat × Edge W))} (chains : Buckets heap heads buckets) (size : Nat) :
    Buckets heap (resize heads size)
      (buckets.take size ++ List.replicate (size - buckets.length) []) := by
  have lengthEq := chains.length_eq
  refine ⟨by simp [resize, lengthEq], fun index head bucket headEq bucketEq => ?_⟩
  rw [resize, List.getElem?_append] at headEq
  rw [List.getElem?_append] at bucketEq
  simp only [List.length_take, lengthEq] at headEq bucketEq
  split at headEq
  · rename_i within
    rw [if_pos within] at bucketEq
    rw [List.getElem?_take_of_lt (by omega)] at headEq bucketEq
    exact chains.chain index head bucket headEq bucketEq
  · rename_i beyond
    rw [if_neg beyond, List.getElem?_replicate] at bucketEq
    rw [List.getElem?_replicate] at headEq
    split at headEq
    · rename_i padded
      rw [if_pos padded] at bucketEq
      cases headEq
      cases bucketEq
      rfl
    · cases headEq

section Run

variable [LT W] {queue : PriorityQueue (Edge W) EdgeComparaLess} {graph minTree : GraphLinkTable V W}
  {buckets stored : List (List (Nat × Edge W))} {edges : List (Edge W)}

/-- The edges of the queue, in the order in which they come out. -/
theorem Built.drain_ends (built : Built graph buckets edges) {pq : queue.State}
    (held : (queue.contents pq).Perm (edges.filter Upward)) :
    ∀ edge ∈ queue.drain pq, edge.src < edge.dst ∧ edge.dst < graph.vertexs.length := by
  intro edge member
  have listed := ((queue.drain_perm pq).trans held).mem_iff.mp member
  have stored := built.upward.mem_iff.mpr listed
  rcases List.mem_filter.mp stored with ⟨payload, up⟩
  exact ⟨by simpa [Upward] using up, (built.ends edge payload).2⟩

/-- What `Kruskal` returns: the first edges that are kept, when there are enough. -/
theorem Built.kruskal (built : Built graph buckets edges) {pq : queue.State} {fuel : Nat}
    (collected : GraphLinkTable.collect queue fuel graph = .ok pq)
    (held : (queue.contents pq).Perm (edges.filter Upward)) (two : 2 ≤ graph.vertexs.length)
    (chains : Buckets minTree.heap (resize minTree.linkTables graph.vertexs.length) stored)
    (enough : edges.length ≤ fuel) :
    (graph.vertexs.length - 1 ≤ (kept [] (queue.drain pq)).length →
      ∃ after larger, GraphLinkTable.kruskal queue fuel false graph minTree = .ok (after, true) ∧
        Buckets after.heap after.linkTables larger ∧ (payloads larger).Perm
          ((kept [] (queue.drain pq)).take (graph.vertexs.length - 1) ++ payloads stored)) ∧
    ((kept [] (queue.drain pq)).length < graph.vertexs.length - 1 →
      ∃ fault, GraphLinkTable.kruskal queue fuel false graph minTree = .error fault) := by
  let start : TreeLoop V W queue := ⟨pq, .ofSize graph.vertexs.length,
    ⟨minTree.heap, graph.vertexs, resize minTree.linkTables graph.vertexs.length, graph.indexMap⟩,
    decrement graph.vertexs.length⟩
  have looping : Looping start stored [] graph.vertexs.length id :=
    ⟨⟨chains, by simp [start, resize]; omega⟩, rfl, parts_ofSize _, built.drain_ends held⟩
  have startRest : queue.drain start.pq = queue.drain pq := rfl
  have startN : start.N = graph.vertexs.length - 1 := if_neg (by omega)
  have short : (queue.drain pq).length ≤ edges.length := by
    rw [((queue.drain_perm pq).trans held).length_eq]
    exact List.length_filter_le _ _
  have unfolded : GraphLinkTable.kruskal queue fuel false graph minTree =
      repeatLoop (treePass queue fuel) fuel start := by
    simp [GraphLinkTable.kruskal, collected, start]
  rw [unfolded, ← startN]
  constructor
  · intro sufficient
    rcases looping.returns startRest (by omega) sufficient fuel fuel
      (by rw [List.length_nil]; omega) (by omega) with
      ⟨after, larger, looped, linked, same⟩
    exact ⟨after, larger, looped, linked.chains, same⟩
  · intro missing
    exact looping.fails startRest missing fuel fuel (by rw [List.length_nil]; omega)

end Run

section Kruskal

variable [AddCommMonoid W] [LinearOrder W]

/-- `Kruskal` returns true, and the edges that it adds to `minTree` are a minimum
spanning tree. -/
def BuildsMinimumTree (queue : PriorityQueue (Edge W) EdgeComparaLess) (fuel : Nat)
    (graph minTree : GraphLinkTable V W) (edges : List (Edge W)) : Prop :=
  ∃ after old new tree, kruskal queue fuel false graph minTree = .ok (after, true) ∧
    Buckets minTree.heap (resize minTree.linkTables graph.vertexs.length) old ∧
    Buckets after.heap after.linkTables new ∧ (payloads new).Perm (tree ++ payloads old) ∧
    tree.length + 1 = graph.vertexs.length ∧
    MinimumSpanningTree Edge.ends Edge.w (Finset.range graph.vertexs.length) edges tree

variable {size : Nat} {edges order : List (Edge W)}

/-- The spanning trees of a graph are those of its edges between different vertices. -/
theorem minimum_of_order {tree : List (Edge W)} (same : order.Perm (edges.filter Upward))
    (loops : ∀ edge ∈ edges, ¬Upward edge → edge.src = edge.dst)
    (minimum : MinimumSpanningTree Edge.ends Edge.w (Finset.range size) order tree) :
    MinimumSpanningTree Edge.ends Edge.w (Finset.range size) edges tree where
  spans :=
    ⟨minimum.spans.chosen.trans (same.subperm.trans List.filter_sublist.subperm),
      minimum.spans.acyclic, minimum.spans.connects⟩
  least := by
    intro other spans
    apply minimum.least
    refine ⟨?_, spans.acyclic, spans.connects⟩
    -- a loop is never part of a tree
    have upward : other.filter Upward = other := by
      rw [List.filter_eq_self]
      intro edge member
      by_contra loop
      have equal := loops edge (spans.chosen.subset member) loop
      rcases List.append_of_mem member with ⟨before, after, split⟩
      apply spans.acyclic (before.map Edge.ends) edge.ends (after.map Edge.ends)
        (by rw [split, List.map_append, List.map_cons])
      rw [Edge.ends, equal]
      exact Foundation.Joined.refl _ _
    have chosen := spans.chosen.filter Upward
    rw [upward] at chosen
    exact chosen.trans same.symm.subperm

/-- The edges that `Kruskal` has added, when it builds a minimum spanning tree. -/
theorem Built.tree_of_builds {graph minTree : GraphLinkTable V W}
    {buckets stored : List (List (Nat × Edge W))} {queue : PriorityQueue (Edge W) EdgeComparaLess}
    {own : List (Edge W)} (built : Built graph buckets own) {pq : queue.State} {fuel : Nat}
    (collected : GraphLinkTable.collect queue fuel graph = .ok pq)
    (held : (queue.contents pq).Perm (own.filter Upward)) (two : 2 ≤ graph.vertexs.length)
    (chains : Buckets minTree.heap minTree.linkTables stored) (enough : own.length ≤ fuel)
    (builds : BuildsMinimumTree queue fuel graph minTree edges) :
    ∃ tree, tree.Perm ((kept [] (queue.drain pq)).take (graph.vertexs.length - 1)) ∧
      MinimumSpanningTree Edge.ends Edge.w (Finset.range graph.vertexs.length) edges tree := by
  have resized := buckets_resize chains graph.vertexs.length
  have returned := built.kruskal collected held two resized enough
  rcases builds with ⟨after, old, new, tree, ran, oldChains, newChains, same, _, minimum⟩
  rcases Nat.lt_or_ge (kept [] (queue.drain pq)).length (graph.vertexs.length - 1) with
    missing | sufficient
  · rcases returned.2 missing with ⟨fault, failed⟩
    rw [ran] at failed
    cases failed
  · rcases returned.1 sufficient with ⟨again, larger, ranAgain, chainsAgain, sameAgain⟩
    rw [ran] at ranAgain
    cases ranAgain
    rw [newChains.unique chainsAgain, oldChains.unique resized] at same
    exact ⟨tree, (List.perm_append_right_iff _).mp (same.symm.trans sameAgain), minimum⟩

end Kruskal

end DataStructAlgorithm.Algorithm.GraphLinkTable
