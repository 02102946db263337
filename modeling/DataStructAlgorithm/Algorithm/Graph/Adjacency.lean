import DataStructAlgorithm.Algorithm.Graph.Construction

/-! # The adjacency lists in their order

Each list holds the edges from one vertex, the latest one first. -/

namespace DataStructAlgorithm.Algorithm.GraphLinkTable

open Foundation

variable {V W : Type}

/-- The edges that a call of `AddEdge` stores, one after the other. -/
def addedEdges (isDirected : Bool) (indexMap : V → Option Nat) (call : Call V W) :
    List (Edge W) :=
  match indexMap call.src, indexMap call.dst with
  | some src, some dst =>
      ⟨src, dst, call.w⟩ :: if isDirected then [] else [⟨dst, src, call.w⟩]
  | _, _ => []

/-- The edges from one vertex, the latest one first. -/
def edgesFrom (edges : List (Edge W)) (index : Nat) : List (Edge W) :=
  (edges.filter (·.src = index)).reverse

theorem mem_edgesFrom {edges : List (Edge W)} {index : Nat} {edge : Edge W} :
    edge ∈ edgesFrom edges index ↔ edge ∈ edges ∧ edge.src = index := by
  rw [edgesFrom, List.mem_reverse, List.mem_filter, decide_eq_true_iff]

theorem edgesFrom_concat (edges : List (Edge W)) (edge : Edge W) (index : Nat) :
    edgesFrom (edges ++ [edge]) index =
      if edge.src = index then edge :: edgesFrom edges index else edgesFrom edges index := by
  rw [edgesFrom, List.filter_append, List.reverse_append]
  by_cases here : edge.src = index
  · have single : [edge].filter (·.src = index) = [edge] := by simp [here]
    rw [if_pos here, single]
    rfl
  · have none : [edge].filter (·.src = index) = [] := by simp [here]
    rw [if_neg here, none]
    rfl

/-- The adjacency lists hold the edges that have been stored. -/
structure Stores (graph : GraphLinkTable V W) (buckets : List (List (Nat × Edge W)))
    (edges : List (Edge W)) : Prop where
  linked : Linked graph buckets
  lists : ∀ (index : Nat) (bucket : List (Nat × Edge W)), buckets[index]? = some bucket →
    bucket.map Prod.snd = edgesFrom edges index
  ends : ∀ edge ∈ edges, edge.src < graph.vertexs.length ∧ edge.dst < graph.vertexs.length

namespace Stores

variable {graph : GraphLinkTable V W} {buckets : List (List (Nat × Edge W))}
  {edges : List (Edge W)}

theorem addEdgeByIndex (stores : Stores graph buckets edges) (edge : Edge W)
    (src : edge.src < graph.vertexs.length) (dst : edge.dst < graph.vertexs.length) :
    ∃ after larger, GraphLinkTable.addEdgeByIndex graph edge.src edge.dst edge.w = .ok after ∧
      Stores after larger (edges ++ [edge]) ∧ after.vertexs = graph.vertexs ∧
      after.indexMap = graph.indexMap := by
  rcases stores.linked.addEdgeByIndex_front edge src dst with
    ⟨after, bucket, address, added, bucketEq, linked, vertexs, indexMap⟩
  refine ⟨after, _, added, ⟨linked, ?_, ?_⟩, vertexs, indexMap⟩
  · intro index other otherEq
    rw [edgesFrom_concat]
    by_cases here : edge.src = index
    · subst here
      rw [List.getElem?_set_self (List.getElem?_eq_some_iff.mp bucketEq).1] at otherEq
      cases otherEq
      rw [if_pos rfl, List.map_cons, stores.lists _ bucket bucketEq]
    · rw [List.getElem?_set_ne here] at otherEq
      rw [if_neg here, stores.lists index other otherEq]
  · intro other member
    rw [vertexs]
    rcases List.mem_append.mp member with old | new
    · exact stores.ends other old
    · rw [List.mem_singleton.mp new]
      exact ⟨src, dst⟩

theorem addEdge (stores : Stores graph buckets edges) (isDirected : Bool) {call : Call V W}
    {src dst : Nat} (srcEq : graph.indexMap call.src = some src)
    (dstEq : graph.indexMap call.dst = some dst) (srcLt : src < graph.vertexs.length)
    (dstLt : dst < graph.vertexs.length) :
    ∃ after larger, GraphLinkTable.addEdge isDirected graph call.src call.dst call.w = .ok after ∧
      Stores after larger (edges ++ addedEdges isDirected graph.indexMap call) ∧
      after.vertexs = graph.vertexs ∧ after.indexMap = graph.indexMap := by
  rcases stores.addEdgeByIndex ⟨src, dst, call.w⟩ srcLt dstLt with
    ⟨half, halfBuckets, there, halfStores, halfVertexs, halfIndex⟩
  have unfolded : GraphLinkTable.addEdge isDirected graph call.src call.dst call.w =
      if isDirected then .ok half
      else GraphLinkTable.addEdgeByIndex half dst src call.w := by
    simp only [GraphLinkTable.addEdge, srcEq, dstEq, there, Outcome.ok_bind]
    rfl
  have added : addedEdges isDirected graph.indexMap call =
      ⟨src, dst, call.w⟩ :: if isDirected then [] else [⟨dst, src, call.w⟩] := by
    simp only [addedEdges, srcEq, dstEq]
  rw [unfolded, added]
  cases isDirected with
  | true => exact ⟨half, halfBuckets, rfl, halfStores, halfVertexs, halfIndex⟩
  | false =>
      rcases halfStores.addEdgeByIndex ⟨dst, src, call.w⟩ (by rw [halfVertexs]; exact dstLt)
        (by rw [halfVertexs]; exact srcLt) with
        ⟨after, larger, back, afterStores, afterVertexs, afterIndex⟩
      rw [List.append_assoc] at afterStores
      exact ⟨after, larger, back, afterStores, afterVertexs.trans halfVertexs,
        afterIndex.trans halfIndex⟩

theorem build (stores : Stores graph buckets edges) (isDirected : Bool) (calls : List (Call V W))
    (known : ∀ call ∈ calls, ∃ src dst, graph.indexMap call.src = some src ∧
      graph.indexMap call.dst = some dst ∧ src < graph.vertexs.length ∧
      dst < graph.vertexs.length) :
    ∃ after larger, GraphLinkTable.build isDirected graph calls = .ok after ∧
      Stores after larger (edges ++ calls.flatMap (addedEdges isDirected graph.indexMap)) ∧
      after.vertexs = graph.vertexs ∧ after.indexMap = graph.indexMap := by
  induction calls generalizing graph buckets edges with
  | nil =>
      rw [List.flatMap_nil, List.append_nil]
      exact ⟨graph, buckets, rfl, stores, rfl, rfl⟩
  | cons call rest induction =>
      rcases known call List.mem_cons_self with ⟨src, dst, srcEq, dstEq, srcLt, dstLt⟩
      rcases stores.addEdge isDirected srcEq dstEq srcLt dstLt with
        ⟨middle, larger, added, middleStores, middleVertexs, middleIndex⟩
      have knownStill : ∀ call ∈ rest, ∃ src dst, middle.indexMap call.src = some src ∧
          middle.indexMap call.dst = some dst ∧ src < middle.vertexs.length ∧
          dst < middle.vertexs.length := by
        rw [middleVertexs, middleIndex]
        exact fun call member => known call (List.mem_cons_of_mem _ member)
      rcases induction middleStores knownStill with
        ⟨after, final, finished, afterStores, afterVertexs, afterIndex⟩
      refine ⟨after, final, ?_, ?_, afterVertexs.trans middleVertexs,
        afterIndex.trans middleIndex⟩
      · rw [GraphLinkTable.build, added, Outcome.ok_bind, finished]
      · rw [middleIndex, List.append_assoc] at afterStores
        exact afterStores

end Stores

section Index

variable [DecidableEq V]

/-- The edges that calls of `AddEdge` store in a graph with the given vertices. -/
def storedEdges (isDirected : Bool) (vertexs : List V) (calls : List (Call V W)) :
    List (Edge W) :=
  calls.flatMap (addedEdges isDirected (ofVertexs vertexs : GraphLinkTable V W).indexMap)

theorem stores_ofVertexs (vertexs : List V) :
    Stores (ofVertexs vertexs : GraphLinkTable V W) (List.replicate vertexs.length []) [] where
  linked := ⟨Buckets.empty _ _, List.length_replicate⟩
  lists := by
    intro index bucket bucketEq
    rw [List.eq_of_mem_replicate (List.mem_of_getElem? bucketEq)]
    rfl
  ends := fun edge member => by cases member

theorem stores_build (isDirected : Bool) (vertexs : List V) (calls : List (Call V W))
    (known : ∀ call ∈ calls, call.src ∈ vertexs ∧ call.dst ∈ vertexs) :
    ∃ graph buckets, build isDirected (ofVertexs vertexs) calls = .ok graph ∧
      Stores graph buckets (storedEdges isDirected vertexs calls) ∧ graph.vertexs = vertexs := by
  rcases (stores_ofVertexs vertexs).build isDirected calls (indexed_of_known known) with
    ⟨graph, buckets, finished, stores, vertexsEq, _⟩
  exact ⟨graph, buckets, finished, stores, vertexsEq⟩

end Index

end DataStructAlgorithm.Algorithm.GraphLinkTable
