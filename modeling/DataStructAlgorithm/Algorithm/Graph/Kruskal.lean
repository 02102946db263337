import DataStructAlgorithm.Algorithm.Graph.Construction
import DataStructAlgorithm.Algorithm.Union.UnionFindSet

/-! # The loops of `Kruskal`

The queue gives the edges back in some order of their weights. The loop keeps the
first `N` of them whose ends the union-find array does not know to be joined. -/

namespace DataStructAlgorithm.Algorithm

/-- The ends of an edge. -/
def Edge.ends {W : Type} (edge : Edge W) : Nat × Nat := (edge.src, edge.dst)

namespace GraphLinkTable

open Foundation UnionFindSet

variable {V W : Type} [LT W] {queue : PriorityQueue (Edge W) EdgeComparaLess}

/-! ## Filling the queue -/

theorem collectPass_chain {heap : Store (EdgeNode W)} {head : Ptr} {bucket : List (Nat × Edge W)}
    (chain : Chain heap head bucket) (pq : queue.State) (fuel : Nat)
    (enough : bucket.length < fuel) :
    ∃ filled, repeatLoop (collectPass queue heap) fuel (head, pq) = .ok filled ∧
      (queue.contents filled).Perm
        ((bucket.map Prod.snd).filter Upward ++ queue.contents pq) := by
  induction bucket generalizing head pq fuel with
  | nil =>
      rcases fuel with _ | fuel
      · simp at enough
      · rw [show head = none from chain]
        exact ⟨pq, repeatLoop_leave _ rfl, List.Perm.refl _⟩
  | cons entry rest induction =>
      rcases fuel with _ | fuel
      · simp at enough
      · rcases chain with ⟨headEq, next, found, tail⟩
        subst headEq
        have enoughRest : rest.length < fuel := by simpa using enough
        by_cases up : entry.2.src < entry.2.dst
        · have pass : collectPass queue heap (some entry.1, pq) =
              .ok (.again (next, queue.push entry.2 pq)) := by
            simp [collectPass, Store.load_some found, up]
          rcases induction tail (queue.push entry.2 pq) fuel enoughRest with ⟨filled, looped, same⟩
          refine ⟨filled, (repeatLoop_again _ pass).trans looped, same.trans ?_⟩
          rw [List.map_cons, List.filter_cons_of_pos (by simpa [Upward] using up)]
          exact ((queue.contents_push entry.2 pq).append_left _).trans List.perm_middle
        · have pass : collectPass queue heap (some entry.1, pq) = .ok (.again (next, pq)) := by
            simp [collectPass, Store.load_some found, up]
          rcases induction tail pq fuel enoughRest with ⟨filled, looped, same⟩
          refine ⟨filled, (repeatLoop_again _ pass).trans looped, ?_⟩
          rw [List.map_cons, List.filter_cons_of_neg (by simpa [Upward] using up)]
          exact same

theorem collect_buckets {heap : Store (EdgeNode W)} {heads : List Ptr}
    {buckets : List (List (Nat × Edge W))} (chains : Buckets heap heads buckets)
    (pq : queue.State) (fuel : Nat) (enough : (payloads buckets).length < fuel) :
    ∃ filled, heads.foldlM
        (fun pq head => repeatLoop (collectPass queue heap) fuel (head, pq)) pq = .ok filled ∧
      (queue.contents filled).Perm
        ((payloads buckets).filter Upward ++ queue.contents pq) := by
  induction heads generalizing buckets pq with
  | nil =>
      have noBuckets : buckets = [] := List.eq_nil_of_length_eq_zero chains.length_eq.symm
      subst noBuckets
      exact ⟨pq, rfl, List.Perm.refl _⟩
  | cons head heads induction =>
      rcases buckets with _ | ⟨bucket, buckets⟩
      · exact absurd chains.length_eq (by simp)
      · simp only [payloads, List.flatten_cons, List.map_append, List.length_append,
          List.length_map] at enough
        rcases chains.of_cons with ⟨chain, others⟩
        rcases collectPass_chain chain pq fuel (by omega) with ⟨middle, looped, middleSame⟩
        rcases induction others middle (by simp only [payloads, List.length_map]; omega) with
          ⟨filled, folded, same⟩
        refine ⟨filled, ?_, same.trans ?_⟩
        · rw [List.foldlM_cons, looped]
          exact folded
        · simp only [payloads, List.flatten_cons, List.map_append, List.filter_append]
          apply (middleSame.append_left _).trans
          rw [← List.append_assoc]
          exact List.perm_append_comm.append_right _

/-- The queue holds the edges of the graph, each of them once. -/
theorem Built.collect (queue : PriorityQueue (Edge W) EdgeComparaLess)
    {graph : GraphLinkTable V W} {buckets : List (List (Nat × Edge W))}
    {edges : List (Edge W)} (built : Built graph buckets edges) (fuel : Nat)
    (enough : 2 * edges.length < fuel) :
    ∃ pq, GraphLinkTable.collect queue fuel graph = .ok pq ∧
      (queue.contents pq).Perm (edges.filter Upward) := by
  rw [← built.length_eq] at enough
  rcases collect_buckets built.linked.chains queue.empty fuel enough with
    ⟨pq, folded, same⟩
  rw [queue.contents_empty, List.append_nil] at same
  exact ⟨pq, folded, same.trans built.upward⟩

/-! ## Choosing the edges -/

/-- The edges that the union-find array lets through: paths through index 0 do not
count for it. -/
def kept : (seen edges : List (Edge W)) → List (Edge W)
  | _, [] => []
  | seen, edge :: edges =>
      if Joined (avoiding 0 (seen.map Edge.ends)) edge.src edge.dst then kept (edge :: seen) edges
      else edge :: kept (edge :: seen) edges

/-- The state of the loop after the edges `seen`. -/
structure Looping (state : TreeLoop V W queue) (buckets : List (List (Nat × Edge W)))
    (seen : List (Edge W)) (size : Nat) (root : Nat → Nat) : Prop where
  linked : Linked state.minTree buckets
  vertexs_length : state.minTree.vertexs.length = size
  parts : Parts state.unionSet size (seen.map Edge.ends) root seen.length
  edges : ∀ edge ∈ queue.drain state.pq, edge.src < edge.dst ∧ edge.dst < size

section Passes

variable {state : TreeLoop V W queue} {buckets : List (List (Nat × Edge W))}
  {seen : List (Edge W)} {size : Nat} {root : Nat → Nat} {edge : Edge W} {rest : List (Edge W)}

/-- The edge that the queue gives next. -/
theorem top_of_drain {pq : queue.State} (drained : queue.drain pq = edge :: rest) :
    queue.top pq = some edge ∧ queue.drain (queue.pop pq) = rest := by
  have nonempty : queue.contents pq ≠ [] := by
    intro empty
    rw [(queue.drain_of_empty empty).2] at drained
    cases drained
  rcases queue.drain_of_nonempty nonempty with ⟨first, onTop, drainEq, _⟩
  rw [drainEq] at drained
  cases drained
  exact ⟨onTop, rfl⟩

/-- A pass over an edge whose ends have the same root. -/
theorem Looping.skip (looping : Looping state buckets seen size root)
    (drained : queue.drain state.pq = edge :: rest)
    (joined : Joined (avoiding 0 (seen.map Edge.ends)) edge.src edge.dst) (fuel : Nat)
    (enough : seen.length < fuel) :
    treePass queue fuel state = .ok (.again { state with pq := queue.pop state.pq }) ∧
      Looping { state with pq := queue.pop state.pq } buckets (edge :: seen) size root := by
  rcases top_of_drain drained with ⟨onTop, popped⟩
  have ends := looping.edges edge (by rw [drained]; exact List.mem_cons_self ..)
  have srcWithin : edge.src ≤ size := by omega
  have dstWithin : edge.dst ≤ size := by omega
  have same := (looping.parts.same_iff edge.src srcWithin edge.dst dstWithin).mpr joined
  have skipped := looping.parts.skip srcWithin dstWithin same
  refine ⟨?_, looping.linked, looping.vertexs_length, ?_, ?_⟩
  · simp [treePass, onTop, looping.parts.findParent srcWithin fuel enough,
      looping.parts.findParent dstWithin fuel enough, same]
  · exact skipped.deeper (by simp)
  · intro other member
    apply looping.edges
    rw [drained]
    simp only [popped] at member
    exact List.mem_cons_of_mem _ member

/-- A pass over an edge whose ends have different roots. -/
theorem Looping.accept (looping : Looping state buckets seen size root)
    (drained : queue.drain state.pq = edge :: rest)
    (separate : ¬Joined (avoiding 0 (seen.map Edge.ends)) edge.src edge.dst) (fuel : Nat)
    (enough : seen.length < fuel) :
    ∃ next larger merged, treePass queue fuel state =
        .ok (if decrement state.N = 0 then .leave (next.minTree, true) else .again next) ∧
      Looping next larger (edge :: seen) size merged ∧
      (payloads larger).Perm (edge :: payloads buckets) ∧
      queue.drain next.pq = rest ∧ next.N = decrement state.N := by
  rcases top_of_drain drained with ⟨onTop, popped⟩
  have ends := looping.edges edge (by rw [drained]; exact List.mem_cons_self ..)
  have srcWithin : edge.src ≤ size := by omega
  have dstWithin : edge.dst ≤ size := by omega
  have different : root edge.src ≠ root edge.dst := fun same =>
    separate ((looping.parts.same_iff edge.src srcWithin edge.dst dstWithin).mp same)
  have dstPositive : 0 < edge.dst := Nat.lt_of_le_of_lt (Nat.zero_le _) ends.1
  rcases looping.parts.setUnionFriend srcWithin dstPositive dstWithin different fuel enough with
    ⟨unionSet, merged, united, parts⟩
  have vertexsEq := looping.vertexs_length
  rcases looping.linked.addEdgeByIndex edge (by omega) (by omega) with
    ⟨minTree, larger, added, linked, same, afterVertexs, _⟩
  refine ⟨⟨queue.pop state.pq, unionSet, minTree, decrement state.N⟩, larger, merged, ?_,
    ⟨linked, ?_, parts, ?_⟩, same, popped, rfl⟩
  · simp only [treePass, onTop, looping.parts.findParent srcWithin fuel enough,
      looping.parts.findParent dstWithin fuel enough, Outcome.ok_bind, if_pos different, united,
      added, Outcome.pure_eq_ok]
    split <;> rfl
  · rw [afterVertexs]
    exact vertexsEq
  · intro other member
    apply looping.edges
    rw [drained]
    simp only [popped] at member
    exact List.mem_cons_of_mem _ member

end Passes

/-- The loop returns when it has added `N` edges. -/
theorem Looping.returns {state : TreeLoop V W queue} {buckets : List (List (Nat × Edge W))}
    {seen rest : List (Edge W)} {size : Nat} {root : Nat → Nat}
    (looping : Looping state buckets seen size root) (drained : queue.drain state.pq = rest)
    (wanted : 0 < state.N) (sufficient : state.N ≤ (kept seen rest).length) (inner fuel : Nat)
    (enoughInner : seen.length + rest.length ≤ inner) (enough : rest.length ≤ fuel) :
    ∃ after larger, repeatLoop (treePass queue inner) fuel state = .ok (after, true) ∧
      Linked after larger ∧
      (payloads larger).Perm ((kept seen rest).take state.N ++ payloads buckets) := by
  induction rest generalizing state buckets seen root fuel with
  | nil =>
      rw [kept, List.length_nil] at sufficient
      omega
  | cons edge rest induction =>
      rw [List.length_cons] at enough enoughInner
      rcases fuel with _ | fuel
      · omega
      · by_cases joined : Joined (avoiding 0 (seen.map Edge.ends)) edge.src edge.dst
        · rcases looping.skip drained joined inner (by omega) with ⟨pass, next⟩
          rw [kept, if_pos joined] at sufficient ⊢
          rcases induction next (top_of_drain drained).2 wanted sufficient fuel
            (by rw [List.length_cons]; omega) (by omega) with ⟨after, larger, looped, result⟩
          exact ⟨after, larger, (repeatLoop_again _ pass).trans looped, result⟩
        · rcases looping.accept drained joined inner (by omega) with
            ⟨next, larger, merged, pass, nextLooping, same, nextDrained, nextN⟩
          rw [kept, if_neg joined] at sufficient ⊢
          rw [List.length_cons] at sufficient
          have lower : decrement state.N = state.N - 1 := if_neg (by omega)
          rw [lower] at pass nextN
          by_cases last : state.N - 1 = 0
          · have one : state.N = 1 := by omega
            rw [if_pos last] at pass
            refine ⟨next.minTree, larger, repeatLoop_leave _ pass, nextLooping.linked, ?_⟩
            rw [one]
            exact same
          · rw [if_neg last] at pass
            rcases induction nextLooping nextDrained (by omega) (by omega) fuel
              (by rw [List.length_cons]; omega) (by omega) with
              ⟨after, final, looped, afterLinked, finalSame⟩
            refine ⟨after, final, (repeatLoop_again _ pass).trans looped, afterLinked, ?_⟩
            rw [nextN] at finalSame
            have count : state.N = state.N - 1 + 1 := by omega
            rw [count, List.take_succ_cons]
            exact (finalSame.trans (same.append_left _)).trans List.perm_middle

/-- The loop does not return when the queue has too few edges for it. -/
theorem Looping.fails {state : TreeLoop V W queue} {buckets : List (List (Nat × Edge W))}
    {seen rest : List (Edge W)} {size : Nat} {root : Nat → Nat}
    (looping : Looping state buckets seen size root) (drained : queue.drain state.pq = rest)
    (missing : (kept seen rest).length < state.N) (inner fuel : Nat)
    (enoughInner : seen.length + rest.length ≤ inner) :
    ∃ fault, repeatLoop (treePass queue inner) fuel state = .error fault := by
  induction rest generalizing state buckets seen root fuel with
  | nil =>
      rcases fuel with _ | fuel
      · exact ⟨_, rfl⟩
      · have empty : queue.contents state.pq = [] := by
          have same := queue.drain_perm state.pq
          rw [drained] at same
          exact same.symm.eq_nil
        refine ⟨.outOfRange, ?_⟩
        simp [repeatLoop, treePass, queue.top_empty _ empty]
  | cons edge rest induction =>
      rw [List.length_cons] at enoughInner
      rcases fuel with _ | fuel
      · exact ⟨_, rfl⟩
      · by_cases joined : Joined (avoiding 0 (seen.map Edge.ends)) edge.src edge.dst
        · rcases looping.skip drained joined inner (by omega) with ⟨pass, next⟩
          rw [kept, if_pos joined] at missing
          rw [repeatLoop_again _ pass]
          exact induction next (top_of_drain drained).2 missing fuel
            (by rw [List.length_cons]; omega)
        · rcases looping.accept drained joined inner (by omega) with
            ⟨next, larger, merged, pass, nextLooping, _, nextDrained, nextN⟩
          rw [kept, if_neg joined, List.length_cons] at missing
          have lower : decrement state.N = state.N - 1 := if_neg (by omega)
          rw [lower] at pass nextN
          rw [if_neg (by omega)] at pass
          rw [repeatLoop_again _ pass]
          exact induction nextLooping nextDrained (by omega) fuel
            (by rw [List.length_cons]; omega)

end GraphLinkTable

end DataStructAlgorithm.Algorithm
