import DataStructAlgorithm.Algorithm.Graph.MinimumTree

/-! # `Kruskal` on a graph that is not connected

The loop does not ask whether the queue is empty, so that the `return false` behind it is never
reached. -/

namespace DataStructAlgorithm.Algorithm.GraphLinkTable

open Foundation

variable {V W : Type} [LT W] (queue : PriorityQueue (Edge W) EdgeComparaLess)

/-- The loop is left only by `return true`. -/
theorem treePass_leave {fuel : Nat} {state : TreeLoop V W queue}
    {result : GraphLinkTable V W × Bool} (left : treePass queue fuel state = .ok (.leave result)) :
    result.2 = true := by
  rw [treePass] at left
  cases onTop : queue.top state.pq with
  | none =>
      rw [onTop] at left
      cases left
  | some edge =>
      rw [onTop] at left
      rcases Outcome.bind_eq_ok left with ⟨srcParent, _, left⟩
      rcases Outcome.bind_eq_ok left with ⟨dstParent, _, left⟩
      by_cases different : srcParent ≠ dstParent
      · rw [if_pos different] at left
        rcases Outcome.bind_eq_ok left with ⟨unionSet, _, left⟩
        rcases Outcome.bind_eq_ok left with ⟨minTree, _, left⟩
        by_cases last : decrement state.N = 0
        · rw [if_pos last] at left
          cases left
          rfl
        · rw [if_neg last] at left
          cases left
      · rw [if_neg different] at left
        cases left

/-- `Kruskal` ends and returns `false`. -/
def ReportsDisconnected (graph minTree : GraphLinkTable V W) : Prop :=
  ∃ fuel after, kruskal queue fuel false graph minTree = .ok (after, false)

/-- `Kruskal` never reports that a graph is not connected. -/
theorem kruskal_reports_never (graph minTree : GraphLinkTable V W) :
    ¬ReportsDisconnected queue graph minTree := by
  rintro ⟨fuel, after, returned⟩
  rw [kruskal, if_neg Bool.false_ne_true] at returned
  rcases Outcome.bind_eq_ok returned with ⟨pq, _, looped⟩
  have answered := repeatLoop_partial (fun _ => True) (fun result => result.2 = true)
    (fun _ _ _ _ => trivial) (fun state result _ left => treePass_leave queue left) fuel _ _
    trivial looped
  cases answered

/-- With two vertices and no edge the top of an empty queue is taken. -/
theorem kruskal_empties_queue :
    ∃ graph, build false (ofVertexs [0, 1]) ([] : List (Call Nat Nat)) = .ok graph ∧
      ¬Connects (Finset.range 2) ((edgesOf [0, 1] ([] : List (Call Nat Nat))).map Edge.ends) ∧
      (∀ fuel, kruskal (PriorityQueue.selection Edge.w) (fuel + 1) false graph .empty =
        .error .outOfRange) ∧
      ¬ReportsDisconnected (PriorityQueue.selection Edge.w) graph .empty := by
  refine ⟨_, rfl, by decide, fun fuel => rfl, ?_⟩
  rintro ⟨fuel, after, returned⟩
  cases fuel with
  | zero => cases returned
  | succ fuel => cases returned

end DataStructAlgorithm.Algorithm.GraphLinkTable
