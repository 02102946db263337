import Mathlib.Algebra.Group.Nat.Defs
import Mathlib.Algebra.Group.Int.Defs
import Mathlib.Data.List.Perm.Subperm
import DataStructAlgorithm.Foundation.Search
import DataStructAlgorithm.Foundation.Conversions
import DataStructAlgorithm.Algorithm.Graph.Adjacency

/-! # `DFS` and `BFS` of `Graph/Graph.hpp`

The indices in an `EdgeNode` and in the queue of `BFS` are of type `int`. They are converted to
`size_t` where they are used. -/

namespace DataStructAlgorithm.Algorithm

open Foundation

/-- `_dst` -/
def Edge.dstInt {W : Type} (edge : Edge W) : Int := toInt edge.dst

namespace GraphLinkTable

variable {V W : Type}

/-- The array `visited`, and what has been printed: names of vertices, here together with the
indices of the vertices. -/
structure SearchState (V : Type) where
  visited : List Bool
  printed : List (Nat × V)

/-- `std::vector<bool> visited(_vertexs.size(), false)` -/
def unvisited (graph : GraphLinkTable V W) : SearchState V :=
  ⟨List.replicate graph.vertexs.length false, []⟩

/-- Print a vertex and mark it. -/
def printVertex (graph : GraphLinkTable V W) (index : Nat) (state : SearchState V) :
    Outcome (SearchState V) := do
  let vertex ← readAt graph.vertexs index
  let visited ← writeAt state.visited index true
  pure ⟨visited, state.printed ++ [(index, vertex)]⟩

/-- One pass of `while (cur)` in `_DFS`. -/
def dfsPass (graph : GraphLinkTable V W) (dfs : Nat → SearchState V → Outcome (SearchState V))
    (state : Ptr × SearchState V) : Outcome (Pass (Ptr × SearchState V) (SearchState V)) :=
  match state with
  | (none, search) => .ok (.leave search)
  | (some cur, search) => do
      let node ← graph.heap.load (some cur)
      let dst := toSize node.data.dstInt
      let seen ← readAt search.visited dst
      let search ← if seen then pure search else dfs dst search
      pure (.again (node.next, search))

/-- `_DFS` -/
def dfsFrom (graph : GraphLinkTable V W) : (fuel src : Nat) → SearchState V →
    Outcome (SearchState V)
  | 0, _, _ => .error .outOfFuel
  | fuel + 1, src, search => do
      let search ← printVertex graph src search
      let cur ← readAt graph.linkTables src
      repeatLoop (dfsPass graph (dfsFrom graph fuel)) fuel (cur, search)

/-- `DFS`, what it prints. -/
def dfs (fuel : Nat) (graph : GraphLinkTable V W) (head : Nat) : Outcome (List (Nat × V)) :=
  (dfsFrom graph fuel head graph.unvisited).map SearchState.printed

/-- One pass of `while (cur)` in `BFS`. -/
def pushPass (graph : GraphLinkTable V W) (visited : List Bool) (state : Ptr × List Int) :
    Outcome (Pass (Ptr × List Int) (List Int)) :=
  match state with
  | (none, q) => .ok (.leave q)
  | (some cur, q) => do
      let node ← graph.heap.load (some cur)
      let seen ← readAt visited (toSize node.data.dstInt)
      pure (.again (node.next, if seen then q else q ++ [node.data.dstInt]))

/-- One pass of `while (!q.empty())`. -/
def bfsPass (fuel : Nat) (graph : GraphLinkTable V W) (state : List Int × SearchState V) :
    Outcome (Pass (List Int × SearchState V) (List (Nat × V))) :=
  match state with
  | ([], search) => .ok (.leave search.printed)
  | (front :: q, search) => do
      let seen ← readAt search.visited (toSize front)
      if seen then pure (.again (q, search))
      else do
        let search ← printVertex graph (toSize front) search
        let cur ← readAt graph.linkTables (toSize front)
        let q ← repeatLoop (pushPass graph search.visited) fuel (cur, q)
        pure (.again (q, search))

/-- `BFS`, what it prints. -/
def bfs (fuel : Nat) (graph : GraphLinkTable V W) (head : Nat) : Outcome (List (Nat × V)) :=
  repeatLoop (bfsPass fuel graph) fuel ([toInt head], graph.unvisited)

/-! ## The vertices that have been visited -/

/-- The marks of the visited vertices. -/
def marks (size : Nat) (seen : List Nat) : List Bool :=
  (List.range size).map fun index => decide (index ∈ seen)

theorem getElem?_marks {size index : Nat} (seen : List Nat) (inside : index < size) :
    (marks size seen)[index]? = some (decide (index ∈ seen)) := by
  rw [marks, List.getElem?_map, List.getElem?_range inside]
  rfl

theorem length_marks (size : Nat) (seen : List Nat) : (marks size seen).length = size := by
  rw [marks, List.length_map, List.length_range]

theorem marks_set (size : Nat) (seen : List Nat) (index : Nat) :
    (marks size seen).set index true = marks size (seen ++ [index]) := by
  apply List.ext_getElem?
  intro other
  by_cases inside : other < size
  · rw [getElem?_marks _ inside, List.getElem?_set]
    by_cases same : index = other
    · rw [if_pos same, length_marks, if_pos (same ▸ inside)]
      simp [same]
    · rw [if_neg same, getElem?_marks _ inside]
      simp [Ne.symm same]
  · have beyond : ∀ seen, (marks size seen)[other]? = none := fun seen =>
      List.getElem?_eq_none (by rw [length_marks]; omega)
    rw [beyond, List.getElem?_eq_none]
    rw [List.length_set, length_marks]
    omega

/-- The search has printed the vertices `seen`, in this order. -/
structure Searches (graph : GraphLinkTable V W) (search : SearchState V) (seen : List Nat) :
    Prop where
  marked : search.visited = marks graph.vertexs.length seen
  order : search.printed.map Prod.fst = seen
  names : ∀ entry ∈ search.printed, graph.vertexs[entry.1]? = some entry.2
  nodup : seen.Nodup
  inside : ∀ index ∈ seen, index < graph.vertexs.length

namespace Searches

variable {graph : GraphLinkTable V W} {search : SearchState V} {seen : List Nat} {index : Nat}

theorem unvisited (graph : GraphLinkTable V W) : Searches graph graph.unvisited [] where
  marked := by
    apply List.ext_getElem?
    intro index
    rw [GraphLinkTable.unvisited, marks, List.getElem?_map, List.getElem?_replicate]
    by_cases inside : index < graph.vertexs.length
    · rw [if_pos inside, List.getElem?_range inside]
      rfl
    · rw [if_neg inside, List.getElem?_eq_none (by rw [List.length_range]; omega)]
      rfl
  order := rfl
  names entry member := by cases member
  nodup := List.nodup_nil
  inside index member := by cases member

theorem readAt_visited (searches : Searches graph search seen)
    (within : index < graph.vertexs.length) :
    readAt search.visited index = .ok (decide (index ∈ seen)) := by
  rw [searches.marked]
  exact readAt_of_getElem? (getElem?_marks seen within)

theorem printVertex (searches : Searches graph search seen)
    (within : index < graph.vertexs.length) (new : index ∉ seen) :
    ∃ after, GraphLinkTable.printVertex graph index search = .ok after ∧
      Searches graph after (seen ++ [index]) := by
  have writable : index < search.visited.length := by
    rw [searches.marked, length_marks]
    exact within
  refine ⟨⟨search.visited.set index true, search.printed ++ [(index, graph.vertexs[index])]⟩,
    ?_, ?_, ?_, ?_, ?_, ?_⟩
  · rw [GraphLinkTable.printVertex, readAt_of_lt within, Outcome.ok_bind,
      writeAt_of_lt true writable]
    rfl
  · rw [searches.marked, marks_set]
  · rw [List.map_append, searches.order]
    rfl
  · intro entry member
    rcases List.mem_append.mp member with old | last
    · exact searches.names entry old
    · rw [List.mem_singleton.mp last]
      exact List.getElem?_eq_getElem within
  · refine List.nodup_append.mpr ⟨searches.nodup, List.nodup_singleton index, ?_⟩
    intro first member second last equal
    rw [List.mem_singleton.mp last] at equal
    exact new (equal ▸ member)
  · intro other member
    rcases List.mem_append.mp member with old | last
    · exact searches.inside other old
    · rw [List.mem_singleton.mp last]
      exact within

/-- No more vertices are visited than there are. -/
theorem length_le (searches : Searches graph search seen) :
    seen.length ≤ graph.vertexs.length := by
  have sub : seen ⊆ List.range graph.vertexs.length := fun index member =>
    List.mem_range.mpr (searches.inside index member)
  have bound := (List.subperm_of_subset searches.nodup sub).length_le
  rw [List.length_range] at bound
  exact bound

end Searches

/-- The vertices to which edges lead, in the order of the adjacency list. -/
def successors (edges : List (Edge W)) (index : Nat) : List Nat :=
  (edgesFrom edges index).map Edge.dst

/-- An index that an `int` can hold, or that at least comes out of one again. -/
def Fits (index : Nat) : Prop := toSize (toInt index) = index

section Graphs

variable {graph : GraphLinkTable V W} {buckets : List (List (Nat × Edge W))}
  {edges : List (Edge W)}

theorem Stores.bucket (stores : Stores graph buckets edges) {index : Nat}
    (inside : index < graph.vertexs.length) :
    ∃ cur bucket, readAt graph.linkTables index = .ok cur ∧ Chain graph.heap cur bucket ∧
      (bucket.map fun entry => entry.2.dst) = successors edges index ∧
      bucket.length ≤ edges.length := by
  have headLt : index < graph.linkTables.length := by
    rw [stores.linked.length_eq]
    exact inside
  have bucketLt : index < buckets.length := by
    rw [← stores.linked.chains.length_eq]
    exact headLt
  have bucketEq := List.getElem?_eq_getElem bucketLt
  have same := stores.lists index _ bucketEq
  refine ⟨_, _, readAt_of_lt headLt, stores.linked.chains.chain index _ _
    (List.getElem?_eq_getElem headLt) bucketEq, ?_, ?_⟩
  · rw [successors, ← same, List.map_map]
    rfl
  · have lengths := congrArg List.length same
    rw [List.length_map, edgesFrom, List.length_reverse] at lengths
    rw [lengths]
    exact List.length_filter_le _ _

theorem Stores.successor_lt (stores : Stores graph buckets edges) {index later : Nat}
    (successor : later ∈ successors edges index) : later < graph.vertexs.length := by
  rcases List.mem_map.mp successor with ⟨edge, member, rfl⟩
  exact (stores.ends edge (mem_edgesFrom.mp member).1).2

theorem Stores.reachable_lt (stores : Stores graph buckets edges) {head index : Nat}
    (inside : head < graph.vertexs.length) (reachable : Reachable (successors edges) head index) :
    index < graph.vertexs.length := by
  rcases reachable with ⟨length, walk⟩
  cases walk with
  | start => exact inside
  | step _ successor => exact stores.successor_lt successor

/-- All indices in reach of a vertex come out of an `int` again. -/
def FitsFrom (edges : List (Edge W)) (head : Nat) : Prop :=
  ∀ index, Reachable (successors edges) head index → Fits index

theorem FitsFrom.successor {head later : Nat} (fits : FitsFrom edges head)
    (successor : later ∈ successors edges head) : FitsFrom edges later :=
  fun index reachable => fits index (reachable.prepend successor)

/-! ## Depth first -/

/-- What `_DFS` does from a vertex that has not been visited. -/
def Explores (graph : GraphLinkTable V W) (edges : List (Edge W)) (bound : Nat)
    (dfs : Nat → SearchState V → Outcome (SearchState V)) : Prop :=
  ∀ src search seen, Searches graph search seen → src < graph.vertexs.length → src ∉ seen →
    FitsFrom edges src → bound ≤ seen.length →
    ∃ after order, dfs src search = .ok after ∧ Searches graph after order ∧
      Explored (successors edges) seen [src] order

theorem dfsPass_explores {dfs : Nat → SearchState V → Outcome (SearchState V)} {bound : Nat}
    (explores : Explores graph edges bound dfs) {bucket : List (Nat × Edge W)} {cur : Ptr}
    (chain : Chain graph.heap cur bucket) {search : SearchState V} {seen : List Nat}
    (searches : Searches graph search seen) (deep : bound ≤ seen.length)
    (good : ∀ entry ∈ bucket, entry.2.dst < graph.vertexs.length ∧ FitsFrom edges entry.2.dst)
    {fuel : Nat} (enough : bucket.length < fuel) :
    ∃ after order, repeatLoop (dfsPass graph dfs) fuel (cur, search) = .ok after ∧
      Searches graph after order ∧
      Explored (successors edges) seen (bucket.map fun entry => entry.2.dst) order := by
  induction bucket generalizing cur search seen fuel with
  | nil =>
      rcases Nat.exists_eq_succ_of_ne_zero (Nat.ne_of_gt enough) with ⟨fuel, rfl⟩
      rw [show cur = none from chain]
      exact ⟨search, seen, repeatLoop_leave fuel rfl, searches, Explored.nil seen⟩
  | cons entry rest induction =>
      have positive : fuel ≠ 0 := Nat.ne_of_gt (Nat.zero_lt_of_lt enough)
      rcases Nat.exists_eq_succ_of_ne_zero positive with ⟨fuel, rfl⟩
      rcases chain with ⟨rfl, next, found, tail⟩
      rcases good entry List.mem_cons_self with ⟨within, fits⟩
      have index : toSize entry.2.dstInt = entry.2.dst := fits _ (Reachable.refl _)
      have visited := searches.readAt_visited within
      have goodRest := fun other member => good other (List.mem_cons_of_mem entry member)
      have enoughRest : rest.length < fuel := Nat.lt_of_succ_lt_succ enough
      by_cases old : entry.2.dst ∈ seen
      · have pass : dfsPass graph dfs (some entry.1, search) = .ok (.again (next, search)) := by
          simp only [dfsPass, Store.load_some found, Outcome.ok_bind, index, visited, old,
            decide_true, if_true, Outcome.pure_eq_ok]
        rcases induction tail searches deep goodRest enoughRest with
          ⟨after, order, looped, final, explored⟩
        exact ⟨after, order, (repeatLoop_again fuel pass).trans looped, final,
          (Explored.seen old).append explored⟩
      · rcases explores _ search seen searches within old fits deep with
          ⟨middle, reached, called, middleSearches, first⟩
        have pass : dfsPass graph dfs (some entry.1, search) = .ok (.again (next, middle)) := by
          simp only [dfsPass, Store.load_some found, Outcome.ok_bind, index, visited, old,
            decide_false, Bool.false_eq_true, if_false, called, Outcome.pure_eq_ok]
        have longer : seen.length ≤ reached.length := by
          rcases first.grows with ⟨new, rfl, _⟩
          rw [List.length_append]
          exact Nat.le_add_right _ _
        rcases induction tail middleSearches (Nat.le_trans deep longer) goodRest enoughRest with
          ⟨after, order, looped, final, explored⟩
        exact ⟨after, order, (repeatLoop_again fuel pass).trans looped, final,
          first.append explored⟩

/-- Each call of `_DFS` prints one vertex first, which bounds the depth of the recursion. -/
theorem dfsFrom_explores (stores : Stores graph buckets edges) (fuel : Nat) :
    Explores graph edges (graph.vertexs.length + edges.length + 1 - fuel)
      (dfsFrom graph fuel) := by
  induction fuel with
  | zero =>
      intro src search seen searches _ _ _ deep
      have bound := searches.length_le
      omega
  | succ fuel induction =>
      intro src search seen searches inside new fits deep
      rcases searches.printVertex inside new with ⟨printed, marked, middle⟩
      rcases stores.bucket inside with ⟨cur, bucket, read, chain, roots, short⟩
      have bound := middle.length_le
      rw [List.length_append, List.length_singleton] at bound
      have good : ∀ entry ∈ bucket,
          entry.2.dst < graph.vertexs.length ∧ FitsFrom edges entry.2.dst := by
        intro entry member
        have successor : entry.2.dst ∈ successors edges src :=
          roots ▸ List.mem_map_of_mem member
        exact ⟨stores.successor_lt successor, fits.successor successor⟩
      rcases dfsPass_explores induction chain middle
        (by rw [List.length_append, List.length_singleton]; omega) good
        (show bucket.length < fuel by omega) with ⟨after, order, looped, final, explored⟩
      rw [roots] at explored
      refine ⟨after, order, ?_, final, explored.visit new⟩
      rw [dfsFrom, marked, Outcome.ok_bind, read, Outcome.ok_bind]
      exact looped

/-! ## Breadth first -/

theorem pushPass_pushes {search : SearchState V} {seen : List Nat}
    (searches : Searches graph search seen) {bucket : List (Nat × Edge W)} {cur : Ptr}
    (chain : Chain graph.heap cur bucket)
    (good : ∀ entry ∈ bucket, entry.2.dst < graph.vertexs.length ∧ Fits entry.2.dst)
    (q : List Int) {fuel : Nat} (enough : bucket.length < fuel) :
    repeatLoop (pushPass graph search.visited) fuel (cur, q) =
      .ok (q ++ ((bucket.map fun entry => entry.2.dst).filter (· ∉ seen)).map
        fun index : Nat => toInt index) := by
  induction bucket generalizing cur q fuel with
  | nil =>
      rcases Nat.exists_eq_succ_of_ne_zero (Nat.ne_of_gt enough) with ⟨fuel, rfl⟩
      rw [show cur = none from chain, List.map_nil, List.filter_nil, List.map_nil, List.append_nil]
      exact repeatLoop_leave fuel rfl
  | cons entry rest induction =>
      have positive : fuel ≠ 0 := Nat.ne_of_gt (Nat.zero_lt_of_lt enough)
      rcases Nat.exists_eq_succ_of_ne_zero positive with ⟨fuel, rfl⟩
      rcases chain with ⟨rfl, next, found, tail⟩
      rcases good entry List.mem_cons_self with ⟨within, fits⟩
      have index : toSize entry.2.dstInt = entry.2.dst := fits
      have visited := searches.readAt_visited within
      have goodRest := fun other member => good other (List.mem_cons_of_mem entry member)
      have enoughRest : rest.length < fuel := Nat.lt_of_succ_lt_succ enough
      by_cases old : entry.2.dst ∈ seen
      · have pass : pushPass graph search.visited (some entry.1, q) = .ok (.again (next, q)) := by
          simp only [pushPass, Store.load_some found, Outcome.ok_bind, index, visited, old,
            decide_true, if_true, Outcome.pure_eq_ok]
        rw [repeatLoop_again fuel pass, induction tail goodRest q enoughRest, List.map_cons,
          List.filter_cons_of_neg (by simp [old])]
      · have pass : pushPass graph search.visited (some entry.1, q) =
            .ok (.again (next, q ++ [entry.2.dstInt])) := by
          simp only [pushPass, Store.load_some found, Outcome.ok_bind, index, visited, old,
            decide_false, Bool.false_eq_true, if_false, Outcome.pure_eq_ok]
        rw [repeatLoop_again fuel pass, induction tail goodRest _ enoughRest, List.map_cons,
          List.filter_cons_of_pos (by simp [old]), List.append_assoc]
        rfl

/-- The state of the loop of `BFS`, and a bound on the passes that are left: the entries of the
queue, and for each vertex that has not been visited one and the entries that it may push. -/
def Searching (graph : GraphLinkTable V W) (edges : List (Edge W)) (head bound : Nat)
    (state : List Int × SearchState V) : Prop :=
  ∃ seen queue, Layered (successors edges) head seen queue ∧
    Searches graph state.2 (seen.map Prod.fst) ∧
    state.1 = queue.map (fun entry => toInt entry.1) ∧
    bound = (graph.vertexs.length - seen.length) * (edges.length + 1) + queue.length

/-- What a traversal should print. -/
def PrintsReachable (graph : GraphLinkTable V W) (edges : List (Edge W)) (head : Nat)
    (printed : List (Nat × V)) : Prop :=
  (printed.map Prod.fst).Nodup ∧
    (∀ index, index ∈ printed.map Prod.fst ↔ Reachable (successors edges) head index) ∧
    ∀ entry ∈ printed, graph.vertexs[entry.1]? = some entry.2

/-- Vertices that are nearer to the start come first. -/
def ByDistance (edges : List (Edge W)) (head : Nat) (printed : List (Nat × V)) : Prop :=
  (printed.map Prod.fst).Pairwise fun first second => ∀ near far,
    Distance (successors edges) head first near → Distance (successors edges) head second far →
      near ≤ far

theorem bound_decreases {size visited degree waiting pushed : Nat} (more : visited + 1 ≤ size)
    (few : pushed ≤ degree) : (size - (visited + 1)) * (degree + 1) + (waiting + pushed) <
      (size - visited) * (degree + 1) + (waiting + 1) := by
  have split : size - visited = size - (visited + 1) + 1 := by omega
  rw [split, Nat.succ_mul]
  omega

theorem Searching.pass (stores : Stores graph buckets edges) {head : Nat}
    (inside : head < graph.vertexs.length) (fits : FitsFrom edges head) {fuel : Nat}
    (enough : edges.length < fuel) {bound : Nat} {state : List Int × SearchState V}
    (searching : Searching graph edges head bound state) :
    (∃ next smaller, bfsPass fuel graph state = .ok (.again next) ∧ smaller < bound ∧
      Searching graph edges head smaller next) ∨
    (∃ printed, bfsPass fuel graph state = .ok (.leave printed) ∧
      PrintsReachable graph edges head printed ∧ ByDistance edges head printed) := by
  rcases state with ⟨q, search⟩
  rcases searching with ⟨seen, queue, layered, searches, queued, rfl⟩
  dsimp only at searches queued
  subst queued
  cases queue with
  | nil =>
      refine Or.inr ⟨search.printed, rfl, ⟨?_, ?_, searches.names⟩, ?_⟩
      · rw [searches.order]
        exact searches.nodup
      · rw [searches.order]
        exact layered.complete
      · rw [ByDistance, searches.order]
        exact layered.ordered
  | cons entry rest =>
      rw [List.map_cons]
      have walk := layered.walks entry (List.mem_append_right seen List.mem_cons_self)
      have reachable : Reachable (successors edges) head entry.1 := ⟨_, walk⟩
      have index : toSize (toInt entry.1) = entry.1 := fits _ reachable
      have within := stores.reachable_lt inside reachable
      have visited := searches.readAt_visited within
      left
      by_cases old : entry.1 ∈ seen.map Prod.fst
      · refine ⟨(_, search), _, ?_, ?_, seen, rest, layered.skip old, searches, rfl, rfl⟩
        · simp only [bfsPass, index, visited, old, Outcome.ok_bind, decide_true, if_true]
          rfl
        · rw [List.length_cons]
          omega
      · rcases searches.printVertex within old with ⟨printed, marked, middle⟩
        rcases stores.bucket within with ⟨cur, bucket, read, chain, ends, short⟩
        have good : ∀ other ∈ bucket,
            other.2.dst < graph.vertexs.length ∧ Fits other.2.dst := by
          intro other member
          have successor : other.2.dst ∈ successors edges entry.1 :=
            ends ▸ List.mem_map_of_mem member
          exact ⟨stores.successor_lt successor, fits _ (reachable.step successor)⟩
        have seenMap : (seen ++ [entry]).map Prod.fst = seen.map Prod.fst ++ [entry.1] := by
          rw [List.map_append, List.map_singleton]
        have pushes := pushPass_pushes middle chain good
          (rest.map fun entry => toInt entry.1) (show bucket.length < fuel by omega)
        rw [ends, ← seenMap] at pushes
        rw [← seenMap] at middle
        have grown := layered.visit old
          ((successors edges entry.1).filter (· ∉ (seen ++ [entry]).map Prod.fst))
          (fun _ member => (List.mem_filter.mp member).1) fun later successor => by
            by_cases known : later ∈ (seen ++ [entry]).map Prod.fst
            · exact Or.inr known
            · exact Or.inl (List.mem_filter.mpr ⟨successor, decide_eq_true known⟩)
        have few : ((successors edges entry.1).filter
            (· ∉ (seen ++ [entry]).map Prod.fst)).length ≤ edges.length := by
          refine Nat.le_trans (List.length_filter_le _ _) ?_
          rw [← ends, List.length_map]
          exact short
        generalize (successors edges entry.1).filter (· ∉ (seen ++ [entry]).map Prod.fst) =
          pushed at pushes grown few
        have waiting : rest.map (fun entry => toInt entry.1) ++
              pushed.map (fun index : Nat => toInt index) =
            (rest ++ pushed.map (·, entry.2 + 1)).map fun entry => toInt entry.1 := by
          simp only [List.map_append, List.map_map, Function.comp_def]
        rw [waiting] at pushes
        refine ⟨(_, printed), _, ?_, ?_, _, _, grown, middle, rfl, rfl⟩
        · simp only [bfsPass, index, visited, old, Outcome.ok_bind, decide_false,
            Bool.false_eq_true, if_false, marked, read, pushes]
          rfl
        · have bound := middle.length_le
          rw [List.length_map, List.length_append, List.length_singleton] at bound
          rw [List.length_append, List.length_singleton, List.length_append, List.length_map,
            List.length_cons]
          exact bound_decreases bound few

/-- Where the indices come out of an `int` again, both traversals do what they should. -/
theorem traversals_of_fits (stores : Stores graph buckets edges) {head : Nat}
    (inside : head < graph.vertexs.length) (fits : FitsFrom edges head) :
    ∃ enough, ∀ fuel, enough ≤ fuel → ∃ deep broad,
      dfs fuel graph head = .ok deep ∧ bfs fuel graph head = .ok broad ∧
      PrintsReachable graph edges head deep ∧ PrintsReachable graph edges head broad ∧
      ByDistance edges head broad := by
  refine ⟨graph.vertexs.length * (edges.length + 1) + graph.vertexs.length + edges.length + 2,
    fun fuel enough => ?_⟩
  rcases dfsFrom_explores stores fuel head graph.unvisited [] (Searches.unvisited graph) inside
    List.not_mem_nil fits (by rw [List.length_nil]; omega) with
    ⟨after, order, called, searches, explored⟩
  have room : edges.length < fuel := by omega
  have start : Searching graph edges head (graph.vertexs.length * (edges.length + 1) + 1)
      ([toInt head], graph.unvisited) :=
    ⟨[], [(head, 0)], Layered.initial head, Searches.unvisited graph, rfl, rfl⟩
  rcases repeatLoop_total (Searching graph edges head)
    (fun printed => PrintsReachable graph edges head printed ∧ ByDistance edges head printed)
    (fun bound state searching => searching.pass stores inside fits room) fuel _ _ start
    (by omega) with ⟨broad, looped, prints, byDistance⟩
  refine ⟨after.printed, broad, ?_, looped, ?_, prints, byDistance⟩
  · rw [dfs, called]
    rfl
  · rw [PrintsReachable, searches.order]
    exact ⟨searches.nodup, explored.complete.2, searches.names⟩

/-! ## Indices that do not fit -/

/-- The queue of `BFS` holds only values of an `int`, and what it prints comes out of one. -/
def HoldsInts (state : List Int × SearchState V) : Prop :=
  (∀ index ∈ state.1, -2 ^ 31 ≤ index ∧ index < 2 ^ 31) ∧
    ∀ index ∈ state.2.printed.map Prod.fst, Fits index

theorem fits_toSize {index : Int} (low : -2 ^ 31 ≤ index) (high : index < 2 ^ 31) :
    Fits (toSize index) := by
  rw [Fits, toInt_toSize low high]

theorem pushPass_holdsInts {visited : List Bool} {fuel : Nat} {cur : Ptr} {q pushed : List Int}
    (holds : ∀ index ∈ q, -2 ^ 31 ≤ index ∧ index < 2 ^ 31)
    (looped : repeatLoop (pushPass graph visited) fuel (cur, q) = .ok pushed) :
    ∀ index ∈ pushed, -2 ^ 31 ≤ index ∧ index < 2 ^ 31 := by
  refine repeatLoop_partial
    (fun state : Ptr × List Int => ∀ index ∈ state.2, -2 ^ 31 ≤ index ∧ index < 2 ^ 31)
    (fun q => ∀ index ∈ q, -2 ^ 31 ≤ index ∧ index < 2 ^ 31) ?_ ?_ fuel _ _ holds looped
  · intro state next kept pass
    rcases state with ⟨cur, q⟩
    cases cur with
    | none => cases pass
    | some cur =>
        rw [pushPass] at pass
        rcases Outcome.bind_eq_ok pass with ⟨node, _, pass⟩
        rcases Outcome.bind_eq_ok pass with ⟨seen, _, pass⟩
        cases pass
        intro index member
        cases seen with
        | true => exact kept index member
        | false =>
            rcases List.mem_append.mp member with old | last
            · exact kept index old
            · rw [List.mem_singleton.mp last]
              exact toInt_range node.data.dst
  · intro state result kept left
    rcases state with ⟨cur, q⟩
    cases cur with
    | none =>
        cases left
        exact kept
    | some cur =>
        rw [pushPass] at left
        rcases Outcome.bind_eq_ok left with ⟨node, _, left⟩
        rcases Outcome.bind_eq_ok left with ⟨seen, _, left⟩
        cases left

theorem HoldsInts.pass {fuel : Nat} {state next : List Int × SearchState V}
    (holds : HoldsInts state) (pass : bfsPass fuel graph state = .ok (.again next)) :
    HoldsInts next := by
  rcases state with ⟨q, search⟩
  cases q with
  | nil => cases pass
  | cons front q =>
      have range := holds.1 front List.mem_cons_self
      have others : ∀ index ∈ q, -2 ^ 31 ≤ index ∧ index < 2 ^ 31 :=
        fun index member => holds.1 index (List.mem_cons_of_mem front member)
      rw [bfsPass] at pass
      rcases Outcome.bind_eq_ok pass with ⟨seen, _, pass⟩
      cases seen with
      | true =>
          cases pass
          exact ⟨others, holds.2⟩
      | false =>
          rcases Outcome.bind_eq_ok pass with ⟨printed, marked, pass⟩
          rcases Outcome.bind_eq_ok pass with ⟨cur, _, pass⟩
          rcases Outcome.bind_eq_ok pass with ⟨pushed, looped, pass⟩
          cases pass
          refine ⟨pushPass_holdsInts others looped, ?_⟩
          rcases Outcome.bind_eq_ok marked with ⟨vertex, _, marked⟩
          rcases Outcome.bind_eq_ok marked with ⟨visited, _, marked⟩
          cases marked
          intro index member
          rw [List.map_append] at member
          rcases List.mem_append.mp member with old | last
          · exact holds.2 index old
          · rw [List.mem_singleton.mp last]
            exact fits_toSize range.1 range.2

theorem bfs_fits {fuel head : Nat} {printed : List (Nat × V)}
    (returned : bfs fuel graph head = .ok printed) :
    ∀ index ∈ printed.map Prod.fst, Fits index := by
  refine repeatLoop_partial HoldsInts (fun printed => ∀ index ∈ printed.map Prod.fst, Fits index)
    (fun state next holds pass => holds.pass pass) ?_ fuel _ _ ⟨?_, ?_⟩ returned
  · intro state result holds left
    rcases state with ⟨q, search⟩
    cases q with
    | nil =>
        cases left
        exact holds.2
    | cons front q =>
        rw [bfsPass] at left
        rcases Outcome.bind_eq_ok left with ⟨seen, _, left⟩
        cases seen with
        | true => cases left
        | false =>
            rcases Outcome.bind_eq_ok left with ⟨_, _, left⟩
            rcases Outcome.bind_eq_ok left with ⟨_, _, left⟩
            rcases Outcome.bind_eq_ok left with ⟨_, _, left⟩
            cases left
  · intro index member
    rw [List.mem_singleton.mp member]
    exact toInt_range head
  · intro index member
    cases member

/-- Both traversals end, and print each vertex that can be reached once and no other one. `BFS`
prints them in the order of their distance. -/
def TraversesReachable (graph : GraphLinkTable V W) (edges : List (Edge W)) (head : Nat) : Prop :=
  ∃ enough, ∀ fuel, enough ≤ fuel → ∃ deep broad,
    dfs fuel graph head = .ok deep ∧ bfs fuel graph head = .ok broad ∧
    PrintsReachable graph edges head deep ∧ PrintsReachable graph edges head broad ∧
    ByDistance edges head broad

theorem fitsFrom_of_traverses {head : Nat} (traverses : TraversesReachable graph edges head) :
    FitsFrom edges head := by
  rcases traverses with ⟨enough, runs⟩
  rcases runs enough (Nat.le_refl enough) with ⟨_, broad, _, returned, _, prints, _⟩
  exact fun index reachable => bfs_fits returned index ((prints.2.1 index).mpr reachable)

/-- An index of an array that is not too long fits if it is below `2 ^ 31`. -/
theorem fits_iff {index : Nat} (possible : index < 2 ^ 64 - 2 ^ 31) :
    Fits index ↔ index < 2 ^ 31 := by
  constructor
  · intro fits
    have range := toInt_range index
    rcases Int.lt_or_le (toInt index) 0 with negative | positive
    · have wrapped := toSize_neg (by omega) negative
      rw [Fits] at fits
      omega
    · have kept := toSize_eq positive (by omega)
      rw [Fits] at fits
      omega
  · intro small
    rw [Fits, toInt_eq (by omega) (by omega)]
    exact toSize_natCast (by omega)

end Graphs

section Calls

variable [DecidableEq V]

/-- With not more than `2 ^ 31` vertices the traversals are right. -/
theorem traverses_of_few (isDirected : Bool) (vertexs : List V) (calls : List (Call V W))
    (known : ∀ call ∈ calls, call.src ∈ vertexs ∧ call.dst ∈ vertexs) {head : Nat}
    (inside : head < vertexs.length) (few : vertexs.length ≤ 2 ^ 31) :
    ∃ graph, build isDirected (ofVertexs vertexs) calls = .ok graph ∧
      TraversesReachable graph (storedEdges isDirected vertexs calls) head := by
  rcases stores_build isDirected vertexs calls known with ⟨graph, buckets, built, stores, same⟩
  rw [← same] at inside few
  refine ⟨graph, built, traversals_of_fits stores inside fun index reachable => ?_⟩
  have within := stores.reachable_lt inside reachable
  exact (fits_iff (by omega)).mpr (by omega)

/-- The traversals of a graph that calls of `AddEdge` have built are right exactly when every
vertex in reach has an index that an `int` can hold. -/
theorem traversals_iff (isDirected : Bool) (vertexs : List V) (calls : List (Call V W))
    (known : ∀ call ∈ calls, call.src ∈ vertexs ∧ call.dst ∈ vertexs) {head : Nat}
    (inside : head < vertexs.length) :
    ∃ graph, build isDirected (ofVertexs vertexs) calls = .ok graph ∧
      (TraversesReachable graph (storedEdges isDirected vertexs calls) head ↔
        ∀ index, Reachable (successors (storedEdges isDirected vertexs calls)) head index →
          Fits index) := by
  rcases stores_build isDirected vertexs calls known with ⟨graph, buckets, built, stores, same⟩
  rw [← same] at inside
  exact ⟨graph, built, fitsFrom_of_traverses, traversals_of_fits stores inside⟩

theorem traversals_iff_three :
    ∃ graph, build false (ofVertexs [7, 8, 9])
        [(⟨7, 8, 5⟩ : Call Nat Nat), ⟨9, 8, 2⟩, ⟨8, 8, 1⟩] = .ok graph ∧
      (TraversesReachable graph
          (storedEdges false [7, 8, 9] [(⟨7, 8, 5⟩ : Call Nat Nat), ⟨9, 8, 2⟩, ⟨8, 8, 1⟩]) 0 ↔
        ∀ index, Reachable (successors
          (storedEdges false [7, 8, 9] [(⟨7, 8, 5⟩ : Call Nat Nat), ⟨9, 8, 2⟩, ⟨8, 8, 1⟩])) 0
            index → Fits index) :=
  traversals_iff false [7, 8, 9] _ (by decide) (by decide)

/-- The index `2 ^ 31` becomes negative in the queue of `BFS`. -/
theorem traversals_miss_head :
    ∃ graph, build false (ofVertexs (List.range (2 ^ 31 + 1))) ([] : List (Call Nat Nat)) =
        .ok graph ∧
      2 ^ 31 < (List.range (2 ^ 31 + 1)).length ∧
      ¬TraversesReachable graph
        (storedEdges false (List.range (2 ^ 31 + 1)) ([] : List (Call Nat Nat))) (2 ^ 31) := by
  refine ⟨_, rfl, ?_, fun traverses => ?_⟩
  · rw [List.length_range]
    exact Nat.lt_succ_self _
  · have fits := fitsFrom_of_traverses traverses (2 ^ 31) (Reachable.refl _)
    have possible : 2 ^ 31 < 2 ^ 64 - 2 ^ 31 := by decide
    exact absurd ((fits_iff possible).mp fits) (Nat.lt_irrefl _)

end Calls

end GraphLinkTable

end DataStructAlgorithm.Algorithm
