import DataStructAlgorithm.Algorithm.Graph.GraphLinkTable

/-! # Building a graph

Which edges the adjacency lists hold after calls of `AddEdge`. -/

namespace DataStructAlgorithm.Algorithm.GraphLinkTable

open Foundation

variable {V W : Type}

/-- The adjacency lists of the graph, one for each vertex. -/
structure Linked (graph : GraphLinkTable V W) (buckets : List (List (Nat × Edge W))) : Prop where
  chains : Buckets graph.heap graph.linkTables buckets
  length_eq : graph.linkTables.length = graph.vertexs.length

/-- The edges of all adjacency lists. -/
def payloads (buckets : List (List (Nat × Edge W))) : List (Edge W) :=
  buckets.flatten.map Prod.snd

/-- `_AddEdge` puts the edge in front of the list of its source. -/
theorem Linked.addEdgeByIndex_front {graph : GraphLinkTable V W}
    {buckets : List (List (Nat × Edge W))} (linked : Linked graph buckets) (edge : Edge W)
    (src : edge.src < graph.vertexs.length) (dst : edge.dst < graph.vertexs.length) :
    ∃ after bucket address, GraphLinkTable.addEdgeByIndex graph edge.src edge.dst edge.w =
        .ok after ∧
      buckets[edge.src]? = some bucket ∧
      Linked after (buckets.set edge.src ((address, edge) :: bucket)) ∧
      after.vertexs = graph.vertexs ∧ after.indexMap = graph.indexMap := by
  have headLt : edge.src < graph.linkTables.length := by
    rw [linked.length_eq]
    exact src
  have bucketLt : edge.src < buckets.length := by
    rw [← linked.chains.length_eq]
    exact headLt
  have headEq := List.getElem?_eq_getElem headLt
  have bucketEq := List.getElem?_eq_getElem bucketLt
  have pushed := (linked.chains.alloc ⟨edge, graph.linkTables[edge.src]⟩).push headEq bucketEq
    (Store.cell_alloc_next _ _)
  refine ⟨⟨graph.heap.alloc ⟨edge, graph.linkTables[edge.src]⟩, graph.vertexs,
    graph.linkTables.set edge.src (some graph.heap.next), graph.indexMap⟩, _, graph.heap.next, ?_,
    bucketEq, ⟨pushed, ?_⟩, rfl, rfl⟩
  · rw [GraphLinkTable.addEdgeByIndex, if_pos ⟨src, dst⟩]
    simp only [readAt_of_getElem? headEq, writeAt_of_lt _ headLt, Outcome.ok_bind,
      Outcome.pure_eq_ok]
  · rw [List.length_set]
    exact linked.length_eq

/-- `_AddEdge` adds one edge. -/
theorem Linked.addEdgeByIndex {graph : GraphLinkTable V W}
    {buckets : List (List (Nat × Edge W))} (linked : Linked graph buckets) (edge : Edge W)
    (src : edge.src < graph.vertexs.length) (dst : edge.dst < graph.vertexs.length) :
    ∃ after larger, GraphLinkTable.addEdgeByIndex graph edge.src edge.dst edge.w = .ok after ∧
      Linked after larger ∧ (payloads larger).Perm (edge :: payloads buckets) ∧
      after.vertexs = graph.vertexs ∧ after.indexMap = graph.indexMap := by
  rcases linked.addEdgeByIndex_front edge src dst with
    ⟨after, bucket, address, added, bucketEq, larger, vertexs, indexMap⟩
  have same := flatten_set_cons buckets (address, edge) bucketEq
  exact ⟨after, _, added, larger, same.map Prod.snd, vertexs, indexMap⟩

/-! ## Calls of `AddEdge` -/

/-- The arguments of a call of `AddEdge`. -/
structure Call (V W : Type) where
  src : V
  dst : V
  w : W

def build (isDirected : Bool) : GraphLinkTable V W → List (Call V W) →
    Outcome (GraphLinkTable V W)
  | graph, [] => .ok graph
  | graph, call :: rest => do
      let graph ← addEdge isDirected graph call.src call.dst call.w
      build isDirected graph rest

/-- The edge that a call adds, from the smaller index to the larger. -/
def edgeOf (indexMap : V → Option Nat) (call : Call V W) : Edge W :=
  let src := (indexMap call.src).getD 0
  let dst := (indexMap call.dst).getD 0
  ⟨min src dst, max src dst, call.w⟩

theorem edgeOf_le (indexMap : V → Option Nat) (call : Call V W) :
    (edgeOf indexMap call).src ≤ (edgeOf indexMap call).dst := by
  simp only [edgeOf]
  omega

/-- The edges that `Kruskal` puts into the queue. -/
def Upward (edge : Edge W) : Bool := edge.src < edge.dst

/-- What building the graph of `calls` has led to. -/
structure Built (graph : GraphLinkTable V W) (buckets : List (List (Nat × Edge W)))
    (edges : List (Edge W)) : Prop where
  linked : Linked graph buckets
  ends : ∀ edge ∈ payloads buckets,
    edge.src < graph.vertexs.length ∧ edge.dst < graph.vertexs.length
  upward : ((payloads buckets).filter Upward).Perm (edges.filter Upward)
  length_eq : (payloads buckets).length = 2 * edges.length

theorem Built.addEdge {graph : GraphLinkTable V W} {buckets : List (List (Nat × Edge W))}
    {edges : List (Edge W)} (built : Built graph buckets edges) {call : Call V W} {src dst : Nat}
    (srcEq : graph.indexMap call.src = some src) (dstEq : graph.indexMap call.dst = some dst)
    (srcLt : src < graph.vertexs.length) (dstLt : dst < graph.vertexs.length) :
    ∃ after larger, GraphLinkTable.addEdge false graph call.src call.dst call.w = .ok after ∧
      Built after larger (edgeOf graph.indexMap call :: edges) ∧
      after.vertexs = graph.vertexs ∧ after.indexMap = graph.indexMap := by
  rcases built.linked.addEdgeByIndex ⟨src, dst, call.w⟩ srcLt dstLt with
    ⟨half, halfBuckets, there, halfLinked, halfSame, halfVertexs, halfIndex⟩
  rcases halfLinked.addEdgeByIndex ⟨dst, src, call.w⟩ (by rw [halfVertexs]; exact dstLt)
    (by rw [halfVertexs]; exact srcLt) with
    ⟨after, larger, back, afterLinked, afterSame, afterVertexs, afterIndex⟩
  have same : (payloads larger).Perm
      (⟨dst, src, call.w⟩ :: ⟨src, dst, call.w⟩ :: payloads buckets) :=
    afterSame.trans (halfSame.cons _)
  refine ⟨after, larger, ?_, ⟨afterLinked, ?_, ?_, ?_⟩, afterVertexs.trans halfVertexs,
    afterIndex.trans halfIndex⟩
  · simp only [GraphLinkTable.addEdge, srcEq, dstEq, there, Outcome.ok_bind]
    exact back
  · intro edge member
    rw [afterVertexs, halfVertexs]
    rcases List.mem_cons.mp (same.mem_iff.mp member) with equal | member
    · rw [equal]
      exact ⟨dstLt, srcLt⟩
    · rcases List.mem_cons.mp member with equal | member
      · rw [equal]
        exact ⟨srcLt, dstLt⟩
      · exact built.ends edge member
  · have edgeEq : edgeOf graph.indexMap call = ⟨min src dst, max src dst, call.w⟩ := by
      simp [edgeOf, srcEq, dstEq]
    rw [edgeEq]
    apply (same.filter Upward).trans
    -- of an edge and its reverse only one goes upward, and none of a loop
    rcases Nat.lt_trichotomy src dst with less | equal | greater
    · have notBack : ¬dst < src := by omega
      simp only [List.filter_cons, Upward, less, notBack, Nat.min_eq_left (Nat.le_of_lt less),
        Nat.max_eq_right (Nat.le_of_lt less), decide_true, decide_false, if_true]
      exact built.upward.cons _
    · subst equal
      simp only [List.filter_cons, Upward, Nat.lt_irrefl, Nat.min_self, Nat.max_self,
        decide_false]
      exact built.upward
    · have notThere : ¬src < dst := by omega
      simp only [List.filter_cons, Upward, greater, notThere,
        Nat.min_eq_right (Nat.le_of_lt greater), Nat.max_eq_left (Nat.le_of_lt greater),
        decide_true, decide_false, if_true]
      exact built.upward.cons _
  · have lengthEq := built.length_eq
    rw [same.length_eq]
    simp only [List.length_cons]
    omega

theorem Built.build {graph : GraphLinkTable V W} {buckets : List (List (Nat × Edge W))}
    {edges : List (Edge W)} (built : Built graph buckets edges) (calls : List (Call V W))
    (known : ∀ call ∈ calls, ∃ src dst, graph.indexMap call.src = some src ∧
      graph.indexMap call.dst = some dst ∧ src < graph.vertexs.length ∧
      dst < graph.vertexs.length) :
    ∃ after larger, GraphLinkTable.build false graph calls = .ok after ∧
      Built after larger ((calls.map (edgeOf graph.indexMap)).reverse ++ edges) ∧
      after.vertexs = graph.vertexs ∧ after.indexMap = graph.indexMap := by
  induction calls generalizing graph buckets edges with
  | nil => exact ⟨graph, buckets, rfl, built, rfl, rfl⟩
  | cons call rest induction =>
      rcases known call (List.mem_cons_self ..) with ⟨src, dst, srcEq, dstEq, srcLt, dstLt⟩
      rcases built.addEdge srcEq dstEq srcLt dstLt with
        ⟨middle, larger, added, middleBuilt, middleVertexs, middleIndex⟩
      have knownStill : ∀ call ∈ rest, ∃ src dst, middle.indexMap call.src = some src ∧
          middle.indexMap call.dst = some dst ∧ src < middle.vertexs.length ∧
          dst < middle.vertexs.length := by
        rw [middleVertexs, middleIndex]
        exact fun call member => known call (List.mem_cons_of_mem _ member)
      rcases induction middleBuilt knownStill with
        ⟨after, final, finished, afterBuilt, afterVertexs, afterIndex⟩
      refine ⟨after, final, ?_, ?_, afterVertexs.trans middleVertexs,
        afterIndex.trans middleIndex⟩
      · rw [GraphLinkTable.build, added, Outcome.ok_bind, finished]
      · rw [middleIndex] at afterBuilt
        simpa using afterBuilt

/-! ## The index map -/

section Index

variable [DecidableEq V]

/-- Each vertex has an index of its own. -/
theorem indexMap_ofVertexs (vertexs : List V) {vertex : V} (member : vertex ∈ vertexs) :
    ∃ index, (ofVertexs vertexs : GraphLinkTable V W).indexMap vertex = some index ∧
      index < vertexs.length := by
  have general : ∀ (entries : List (V × Nat)) (start : V → Option Nat) (bound : Nat),
      (∀ entry ∈ entries, entry.2 < bound) →
      (vertex ∈ entries.map Prod.fst ∨ ∃ index, start vertex = some index ∧ index < bound) →
      ∃ index, entries.foldl (fun indexMap entry => setIndex indexMap entry.1 entry.2) start
        vertex = some index ∧ index < bound := by
    intro entries
    induction entries with
    | nil =>
        intro start bound _ found
        rcases found with member | found
        · cases member
        · exact found
    | cons entry entries induction =>
        intro start bound small found
        apply induction _ bound fun other otherMem => small other (List.mem_cons_of_mem _ otherMem)
        by_cases same : vertex = entry.1
        · exact Or.inr ⟨entry.2, by simp [setIndex, same], small entry (List.mem_cons_self ..)⟩
        · rcases found with member | ⟨index, startEq, less⟩
          · rcases List.mem_cons.mp member with equal | member
            · exact absurd equal same
            · exact Or.inl member
          · exact Or.inr ⟨index, by simp [setIndex, same, startEq], less⟩
  apply general vertexs.zipIdx (fun _ => none) vertexs.length
  · intro entry entryMem
    have within := List.snd_lt_add_of_mem_zipIdx entryMem
    omega
  · left
    rw [List.zipIdx_map_fst]
    exact member

/-- The index of a name is that of a vertex with this name. -/
theorem getElem?_of_indexMap {vertexs : List V} {vertex : V} {index : Nat}
    (indexed : (ofVertexs vertexs : GraphLinkTable V W).indexMap vertex = some index) :
    vertexs[index]? = some vertex := by
  have general : ∀ (entries : List (V × Nat)) (start : V → Option Nat),
      entries.foldl (fun indexMap entry => setIndex indexMap entry.1 entry.2) start vertex =
        some index → (vertex, index) ∈ entries ∨ start vertex = some index := by
    intro entries
    induction entries with
    | nil => exact fun start found => Or.inr found
    | cons entry entries induction =>
        intro start found
        rcases induction _ found with member | found
        · exact Or.inl (List.mem_cons_of_mem _ member)
        · have found : (if vertex = entry.1 then some entry.2 else start vertex) = some index :=
            found
          by_cases same : vertex = entry.1
          · rw [if_pos same] at found
            have equal : (vertex, index) = entry := Prod.ext same (Option.some.inj found).symm
            exact Or.inl (equal ▸ List.mem_cons_self)
          · rw [if_neg same] at found
            exact Or.inr found
  rcases general vertexs.zipIdx (fun _ => none) indexed with member | missing
  · exact List.mem_zipIdx_iff_getElem?.mp member
  · cases missing

/-- In an array of different names each name has the index of its vertex. -/
theorem indexMap_iff {vertexs : List V} (different : vertexs.Nodup) {name vertex : V} {index : Nat}
    (member : name ∈ vertexs) (vertexEq : vertexs[index]? = some vertex) :
    (ofVertexs vertexs : GraphLinkTable V W).indexMap name = some index ↔ name = vertex := by
  constructor
  · intro indexed
    have nameEq := getElem?_of_indexMap indexed
    rw [vertexEq] at nameEq
    exact (Option.some.inj nameEq).symm
  · rintro rfl
    rcases indexMap_ofVertexs (W := W) vertexs member with ⟨other, indexed, inside⟩
    have same := (getElem?_of_indexMap indexed).trans vertexEq.symm
    rw [(List.getElem?_inj inside different).mp same] at indexed
    exact indexed

theorem built_ofVertexs (vertexs : List V) :
    Built (ofVertexs vertexs : GraphLinkTable V W) (List.replicate vertexs.length []) [] where
  linked := ⟨Buckets.empty _ _, List.length_replicate⟩
  ends := by simp [payloads]
  upward := by simp [payloads]
  length_eq := by simp [payloads]

/-- The edges of the undirected graph that calls of `AddEdge` build. -/
def edgesOf (vertexs : List V) (calls : List (Call V W)) : List (Edge W) :=
  calls.map (edgeOf (ofVertexs vertexs : GraphLinkTable V W).indexMap)

theorem src_eq_dst_of_not_upward {vertexs : List V} {calls : List (Call V W)}
    {edge : Edge W} (member : edge ∈ edgesOf vertexs calls) (level : ¬Upward edge) :
    edge.src = edge.dst := by
  have notLess : ¬edge.src < edge.dst := fun less => level (decide_eq_true less)
  rcases List.mem_map.mp member with ⟨call, _, rfl⟩
  exact Nat.le_antisymm (edgeOf_le _ call) (Nat.not_lt.mp notLess)

/-- The indices of the names in calls with known names. -/
theorem indexed_of_known {vertexs : List V} {calls : List (Call V W)}
    (known : ∀ call ∈ calls, call.src ∈ vertexs ∧ call.dst ∈ vertexs) :
    ∀ call ∈ calls, ∃ src dst,
      (ofVertexs vertexs : GraphLinkTable V W).indexMap call.src = some src ∧
      (ofVertexs vertexs : GraphLinkTable V W).indexMap call.dst = some dst ∧
      src < (ofVertexs vertexs : GraphLinkTable V W).vertexs.length ∧
      dst < (ofVertexs vertexs : GraphLinkTable V W).vertexs.length := by
  intro call member
  rcases indexMap_ofVertexs (W := W) vertexs (known call member).1 with ⟨src, srcEq, srcLt⟩
  rcases indexMap_ofVertexs (W := W) vertexs (known call member).2 with ⟨dst, dstEq, dstLt⟩
  exact ⟨src, dst, srcEq, dstEq, srcLt, dstLt⟩

theorem build_ofVertexs (vertexs : List V) (calls : List (Call V W))
    (known : ∀ call ∈ calls, call.src ∈ vertexs ∧ call.dst ∈ vertexs) :
    ∃ graph buckets, build false (ofVertexs vertexs) calls = .ok graph ∧
      Built graph buckets (edgesOf vertexs calls).reverse ∧ graph.vertexs = vertexs := by
  rcases (built_ofVertexs vertexs).build calls (indexed_of_known known) with
    ⟨graph, buckets, finished, built, vertexsEq, _⟩
  rw [List.append_nil] at built
  exact ⟨graph, buckets, finished, built, vertexsEq⟩

end Index

end DataStructAlgorithm.Algorithm.GraphLinkTable
