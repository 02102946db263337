import Mathlib.Data.List.Find
import DataStructAlgorithm.Algorithm.Graph.Adjacency

/-! # The adjacency matrix of `Graph/Graph.hpp`

`AddEdge` compares the entry of the edge with its weight where it should store it, and stores only
the entry of the reverse edge of an undirected graph. `default` stands for `W()`. -/

namespace DataStructAlgorithm.Algorithm

open Foundation

/-- The class `GraphMartix`. -/
structure GraphMartix (V W : Type) where
  vertexs : List V
  martix : List (List W)
  indexMap : V → Option Nat

namespace GraphMartix

open GraphLinkTable (Call setIndex addedEdges edgesFrom storedEdges)

variable {V W : Type}

/-! ## The last call with a property -/

/-- The weight of the last call that has a property. -/
def latest (calls : List (Call V W)) (condition : Call V W → Bool) : Option W :=
  (calls.reverse.find? condition).map Call.w

theorem latest_cons (call : Call V W) (rest : List (Call V W)) (condition : Call V W → Bool) :
    latest (call :: rest) condition =
      (latest rest condition).or (if condition call then some call.w else none) := by
  rw [latest, latest, List.reverse_cons, List.find?_append]
  cases found : rest.reverse.find? condition with
  | some earlier => rfl
  | none =>
      rw [Option.none_or, Option.map_none, Option.none_or, List.find?_singleton]
      cases condition call <;> rfl

theorem latest_congr {calls : List (Call V W)} {first second : Call V W → Bool}
    (same : ∀ call ∈ calls, first call = second call) :
    latest calls first = latest calls second := by
  rw [latest, latest, List.find?_congr fun call member => same call (List.mem_reverse.mp member)]

/-- The calls that store an entry of the matrix. -/
def Reverses (isDirected : Bool) (indexMap : V → Option Nat) (i j : Nat) (call : Call V W) : Bool :=
  isDirected = false ∧ indexMap call.src = some j ∧ indexMap call.dst = some i

/-- The calls that put an edge into an adjacency list. -/
def Leads (isDirected : Bool) (indexMap : V → Option Nat) (i j : Nat) (call : Call V W) : Bool :=
  indexMap call.src = some i ∧ indexMap call.dst = some j ∨ Reverses isDirected indexMap i j call

theorem reverses_iff {indexMap : V → Option Nat} {call : Call V W} {src dst : Nat}
    (isDirected : Bool) (srcEq : indexMap call.src = some src)
    (dstEq : indexMap call.dst = some dst) (i j : Nat) :
    Reverses isDirected indexMap i j call = true ↔ isDirected = false ∧ i = dst ∧ j = src := by
  rw [Reverses, decide_eq_true_iff, srcEq, dstEq, Option.some.injEq, Option.some.injEq]
  constructor
  · rintro ⟨undirected, rfl, rfl⟩
    exact ⟨undirected, rfl, rfl⟩
  · rintro ⟨undirected, rfl, rfl⟩
    exact ⟨undirected, rfl, rfl⟩

section Matrix

variable [DecidableEq V]

/-- `GraphMartix(vertexs, size)` -/
def ofVertexs [Inhabited W] (vertexs : List V) : GraphMartix V W where
  vertexs := vertexs
  martix := List.replicate vertexs.length (List.replicate vertexs.length default)
  indexMap := vertexs.zipIdx.foldl (fun indexMap entry => setIndex indexMap entry.1 entry.2)
    fun _ => none

/-- `_index_map[key]`, which puts a missing key into the map. -/
def indexOf (indexMap : V → Option Nat) (key : V) : (V → Option Nat) × Nat :=
  match indexMap key with
  | some index => (indexMap, index)
  | none => (setIndex indexMap key 0, 0)

/-- `AddEdge` -/
def addEdge (isDirected : Bool) (graph : GraphMartix V W) (src dst : V) (weight : W) :
    Outcome (GraphMartix V W) := do
  let (indexMap, srcIndex) := indexOf graph.indexMap src
  let (indexMap, dstIndex) := indexOf indexMap dst
  -- `_martix[src_index][dst_index] == weight;`
  let row ← readAt graph.martix srcIndex
  let _ ← readAt row dstIndex
  if isDirected then pure { graph with indexMap := indexMap }
  else do
    let row ← readAt graph.martix dstIndex
    let row ← writeAt row srcIndex weight
    let martix ← writeAt graph.martix dstIndex row
    pure { graph with martix := martix, indexMap := indexMap }

def build (isDirected : Bool) : GraphMartix V W → List (Call V W) → Outcome (GraphMartix V W)
  | graph, [] => .ok graph
  | graph, call :: rest => do
      let graph ← addEdge isDirected graph call.src call.dst call.w
      build isDirected graph rest

/-! ## The entries of the matrix -/

/-- The matrix is square, and has the given entries. -/
structure Holds (graph : GraphMartix V W) (weights : Nat → Nat → W) : Prop where
  size : graph.martix.length = graph.vertexs.length
  rows : ∀ (i : Nat) (row : List W), graph.martix[i]? = some row →
    row.length = graph.vertexs.length ∧
      ∀ j < graph.vertexs.length, row[j]? = some (weights i j)

/-- The entries after the entry of a reverse edge has been stored. -/
def storeReverse (isDirected : Bool) (weights : Nat → Nat → W) (src dst : Nat) (weight : W) :
    Nat → Nat → W :=
  fun i j => if isDirected = false ∧ i = dst ∧ j = src then weight else weights i j

theorem Holds.initial [Inhabited W] (vertexs : List V) :
    Holds (ofVertexs vertexs : GraphMartix V W) fun _ _ => default where
  size := List.length_replicate
  rows i row rowEq := by
    rw [List.eq_of_mem_replicate (List.mem_of_getElem? rowEq)]
    refine ⟨List.length_replicate, fun j inside => ?_⟩
    rw [List.getElem?_replicate]
    exact if_pos inside

theorem indexOf_known {indexMap : V → Option Nat} {key : V} {index : Nat}
    (known : indexMap key = some index) : indexOf indexMap key = (indexMap, index) := by
  rw [indexOf, known]

theorem Holds.addEdge {graph : GraphMartix V W} {weights : Nat → Nat → W}
    (holds : Holds graph weights) (isDirected : Bool) {call : Call V W} {src dst : Nat}
    (srcEq : graph.indexMap call.src = some src) (dstEq : graph.indexMap call.dst = some dst)
    (srcLt : src < graph.vertexs.length) (dstLt : dst < graph.vertexs.length) :
    ∃ after, GraphMartix.addEdge isDirected graph call.src call.dst call.w = .ok after ∧
      Holds after (storeReverse isDirected weights src dst call.w) ∧
      after.vertexs = graph.vertexs ∧ after.indexMap = graph.indexMap := by
  have srcRowLt : src < graph.martix.length := holds.size ▸ srcLt
  have dstRowLt : dst < graph.martix.length := holds.size ▸ dstLt
  rcases holds.rows src _ (List.getElem?_eq_getElem srcRowLt) with ⟨_, srcRow⟩
  rcases holds.rows dst _ (List.getElem?_eq_getElem dstRowLt) with ⟨dstSize, dstRow⟩
  have compared := readAt_of_getElem? (srcRow dst dstLt)
  have stored := writeAt_of_lt call.w (dstSize ▸ srcLt)
  cases isDirected with
  | true =>
      refine ⟨graph, ?_, ?_, rfl, rfl⟩
      · simp only [GraphMartix.addEdge, indexOf_known srcEq, indexOf_known dstEq,
          readAt_of_lt srcRowLt, compared, Outcome.ok_bind, if_true, Outcome.pure_eq_ok]
      · have same : storeReverse true weights src dst call.w = weights := by
          funext i j
          exact if_neg fun both => by cases both.1
        rw [same]
        exact holds
  | false =>
      refine ⟨⟨graph.vertexs, graph.martix.set dst (graph.martix[dst].set src call.w),
        graph.indexMap⟩, ?_, ⟨?_, ?_⟩, rfl, rfl⟩
      · simp only [GraphMartix.addEdge, indexOf_known srcEq, indexOf_known dstEq,
          readAt_of_lt srcRowLt, compared, Outcome.ok_bind, Bool.false_eq_true, if_false,
          readAt_of_lt dstRowLt, stored, writeAt_of_lt _ dstRowLt, Outcome.pure_eq_ok]
      · exact (List.length_set).trans holds.size
      · intro i row rowEq
        dsimp only at rowEq ⊢
        by_cases here : dst = i
        · subst here
          rw [List.getElem?_set_self dstRowLt] at rowEq
          cases rowEq
          refine ⟨(List.length_set).trans dstSize, fun j inside => ?_⟩
          by_cases there : src = j
          · subst there
            rw [List.getElem?_set_self (dstSize ▸ srcLt), storeReverse, if_pos ⟨rfl, rfl, rfl⟩]
          · rw [List.getElem?_set_ne there, dstRow j inside, storeReverse,
              if_neg fun both => there both.2.2.symm]
        · rw [List.getElem?_set_ne here] at rowEq
          rcases holds.rows i row rowEq with ⟨length, entries⟩
          refine ⟨length, fun j inside => ?_⟩
          rw [entries j inside, storeReverse, if_neg fun both => here both.2.1.symm]

theorem Holds.build {graph : GraphMartix V W} {weights : Nat → Nat → W}
    (holds : Holds graph weights) (isDirected : Bool) (calls : List (Call V W))
    (known : ∀ call ∈ calls, ∃ src dst, graph.indexMap call.src = some src ∧
      graph.indexMap call.dst = some dst ∧ src < graph.vertexs.length ∧
      dst < graph.vertexs.length) :
    ∃ after, GraphMartix.build isDirected graph calls = .ok after ∧
      Holds after (fun i j =>
        (latest calls (Reverses isDirected graph.indexMap i j)).getD (weights i j)) ∧
      after.vertexs = graph.vertexs := by
  induction calls generalizing graph weights with
  | nil => exact ⟨graph, rfl, holds, rfl⟩
  | cons call rest induction =>
      rcases known call List.mem_cons_self with ⟨src, dst, srcEq, dstEq, srcLt, dstLt⟩
      rcases holds.addEdge isDirected srcEq dstEq srcLt dstLt with
        ⟨middle, added, middleHolds, middleVertexs, middleIndex⟩
      have knownStill : ∀ call ∈ rest, ∃ src dst, middle.indexMap call.src = some src ∧
          middle.indexMap call.dst = some dst ∧ src < middle.vertexs.length ∧
          dst < middle.vertexs.length := by
        rw [middleVertexs, middleIndex]
        exact fun call member => known call (List.mem_cons_of_mem _ member)
      rcases induction middleHolds knownStill with ⟨after, finished, afterHolds, afterVertexs⟩
      refine ⟨after, ?_, ?_, afterVertexs.trans middleVertexs⟩
      · rw [GraphMartix.build, added, Outcome.ok_bind, finished]
      · have same : (fun i j => (latest rest (Reverses isDirected middle.indexMap i j)).getD
              (storeReverse isDirected weights src dst call.w i j)) =
            fun i j => (latest (call :: rest) (Reverses isDirected graph.indexMap i j)).getD
              (weights i j) := by
          funext i j
          rw [latest_cons, middleIndex]
          cases latest rest (Reverses isDirected graph.indexMap i j) with
          | some later => rfl
          | none =>
              have decides := reverses_iff isDirected srcEq dstEq i j
              rw [Option.none_or, storeReverse]
              by_cases here : isDirected = false ∧ i = dst ∧ j = src
              · rw [if_pos here, if_pos (decides.mpr here)]
                rfl
              · rw [if_neg here, if_neg fun reverses => here (decides.mp reverses)]
        rw [← same]
        exact afterHolds

end Matrix

/-! ## The same entry of the adjacency lists -/

/-- The edge from one vertex to another one. -/
def Joins (i j : Nat) (edge : Edge W) : Bool := edge.src = i ∧ edge.dst = j

theorem joins_iff {i j : Nat} {edge : Edge W} :
    Joins i j edge = true ↔ edge.src = i ∧ edge.dst = j := decide_eq_true_iff

theorem find?_edgesFrom (edges : List (Edge W)) (i j : Nat) :
    (edgesFrom edges i).find? (·.dst = j) = edges.reverse.find? (Joins i j) := by
  rw [edgesFrom, ← List.filter_reverse, List.find?_filter]
  refine List.find?_congr fun edge _ => ?_
  rw [Joins]
  exact decide_eq_decide.mpr (by rw [decide_eq_true_iff, decide_eq_true_iff])

theorem find?_addedEdges {isDirected : Bool} {indexMap : V → Option Nat} {call : Call V W}
    {src dst : Nat} (srcEq : indexMap call.src = some src) (dstEq : indexMap call.dst = some dst)
    (i j : Nat) :
    ((addedEdges isDirected indexMap call).reverse.find? (Joins i j)).map Edge.w =
      if Leads isDirected indexMap i j call then some call.w else none := by
  have leads : Leads isDirected indexMap i j call = true ↔
      src = i ∧ dst = j ∨ isDirected = false ∧ i = dst ∧ j = src := by
    rw [Leads, decide_eq_true_iff, reverses_iff isDirected srcEq dstEq, srcEq, dstEq,
      Option.some.injEq, Option.some.injEq]
  have added : addedEdges isDirected indexMap call =
      ⟨src, dst, call.w⟩ :: if isDirected then [] else [⟨dst, src, call.w⟩] := by
    simp only [addedEdges, srcEq, dstEq]
  rw [added]
  cases isDirected with
  | true =>
      rw [if_pos rfl, List.reverse_singleton, List.find?_singleton]
      by_cases there : src = i ∧ dst = j
      · rw [if_pos (leads.mpr (Or.inl there)), if_pos (joins_iff.mpr there)]
        rfl
      · have notLeads : ¬Leads true indexMap i j call = true := by
          rw [leads]
          rintro (here | ⟨missing, _⟩)
          · exact there here
          · cases missing
        rw [if_neg notLeads, if_neg fun joins => there (joins_iff.mp joins)]
        rfl
  | false =>
      rw [if_neg Bool.false_ne_true]
      show ([⟨dst, src, call.w⟩, ⟨src, dst, call.w⟩].find? (Joins i j)).map Edge.w = _
      by_cases back : dst = i ∧ src = j
      · rw [if_pos (leads.mpr (Or.inr ⟨rfl, back.1.symm, back.2.symm⟩)),
          List.find?_cons_of_pos (joins_iff.mpr back)]
        rfl
      · rw [List.find?_cons_of_neg fun joins => back (joins_iff.mp joins),
          List.find?_singleton]
        by_cases there : src = i ∧ dst = j
        · rw [if_pos (leads.mpr (Or.inl there)), if_pos (joins_iff.mpr there)]
          rfl
        · have notLeads : ¬Leads false indexMap i j call = true := by
            rw [leads]
            rintro (here | ⟨_, iEq, jEq⟩)
            · exact there here
            · exact back ⟨iEq.symm, jEq.symm⟩
          rw [if_neg notLeads, if_neg fun joins => there (joins_iff.mp joins)]
          rfl

/-- What the last call leaves among the edges of one vertex. -/
theorem find?_storedEdges (isDirected : Bool) {indexMap : V → Option Nat} {calls : List (Call V W)}
    (known : ∀ call ∈ calls, ∃ src dst, indexMap call.src = some src ∧
      indexMap call.dst = some dst) (i j : Nat) :
    ((calls.flatMap (addedEdges isDirected indexMap)).reverse.find? (Joins i j)).map Edge.w =
      latest calls (Leads isDirected indexMap i j) := by
  induction calls with
  | nil => rfl
  | cons call rest induction =>
      rcases known call List.mem_cons_self with ⟨src, dst, srcEq, dstEq⟩
      have others := induction fun other member => known other (List.mem_cons_of_mem call member)
      rw [latest_cons, ← others, List.flatMap_cons, List.reverse_append, List.find?_append,
        Option.map_or, find?_addedEdges srcEq dstEq]

/-- The first element with a property is also the first one with a stronger property that it
has. -/
theorem find?_stronger {Item : Type} {items : List Item} {weak strong : Item → Bool} {item : Item}
    (first : items.find? weak = some item) (holds : strong item = true)
    (weaker : ∀ other, strong other = true → weak other = true) :
    items.find? strong = some item := by
  rcases List.find?_eq_some_iff_append.mp first with ⟨_, before, after, split, none⟩
  refine List.find?_eq_some_iff_append.mpr ⟨holds, before, after, split, fun other member => ?_⟩
  have notWeak := none other member
  cases isStrong : strong other with
  | false => rfl
  | true =>
      rw [weaker other isStrong] at notWeak
      cases notWeak

section Agreement

variable [DecidableEq V] [Inhabited W]

/-- The calls that store an edge from one vertex to another one. -/
def StoresEdge (isDirected : Bool) (src dst : V) (call : Call V W) : Bool :=
  call.src = src ∧ call.dst = dst ∨ isDirected = false ∧ call.src = dst ∧ call.dst = src

/-- Those of them whose edge is the reverse one. -/
def StoresReverse (isDirected : Bool) (src dst : V) (call : Call V W) : Bool :=
  isDirected = false ∧ call.src = dst ∧ call.dst = src

/-- The matrix and the adjacency lists that the same calls build hold the same weights. -/
def MartixAgrees (isDirected : Bool) (vertexs : List V) (calls : List (Call V W)) : Prop :=
  ∃ matrix graph, build isDirected (ofVertexs vertexs) calls = .ok matrix ∧
    GraphLinkTable.build isDirected (GraphLinkTable.ofVertexs vertexs) calls = .ok graph ∧
    ∀ i < vertexs.length, ∀ j < vertexs.length, ∃ row cur bucket,
      matrix.martix[i]? = some row ∧ graph.linkTables[i]? = some cur ∧
      Chain graph.heap cur bucket ∧
      row[j]? = some ((((bucket.map Prod.snd).find? (·.dst = j)).map Edge.w).getD default)

/-- The weights that the indices of the vertices have in both. -/
theorem martixAgrees_iff_latest (isDirected : Bool) (vertexs : List V) (calls : List (Call V W))
    (known : ∀ call ∈ calls, call.src ∈ vertexs ∧ call.dst ∈ vertexs) :
    MartixAgrees isDirected vertexs calls ↔ ∀ i < vertexs.length, ∀ j < vertexs.length,
      (latest calls (Reverses isDirected (ofVertexs vertexs : GraphMartix V W).indexMap i j)).getD
          default =
        (latest calls (Leads isDirected (ofVertexs vertexs : GraphMartix V W).indexMap i j)).getD
          default := by
  have indexed := GraphLinkTable.indexed_of_known known
  rcases (Holds.initial vertexs).build isDirected calls indexed with
    ⟨matrix, built, holds, matrixVertexs⟩
  rcases GraphLinkTable.stores_build isDirected vertexs calls known with
    ⟨graph, buckets, linked, stores, graphVertexs⟩
  have size : matrix.martix.length = vertexs.length := holds.size.trans (congrArg _ matrixVertexs)
  have heads : graph.linkTables.length = vertexs.length := by
    rw [stores.linked.length_eq, graphVertexs]
  have lengths := stores.linked.chains.length_eq
  have entry : ∀ (i : Nat) (bucket : List (Nat × Edge W)), buckets[i]? = some bucket → ∀ j,
      (((bucket.map Prod.snd).find? (·.dst = j)).map Edge.w).getD default =
        (latest calls (Leads isDirected (ofVertexs vertexs : GraphMartix V W).indexMap i j)).getD
          default := by
    intro i bucket bucketEq j
    have found := find?_storedEdges isDirected (fun call member => by
      rcases indexed call member with ⟨src, dst, srcEq, dstEq, _⟩
      exact ⟨src, dst, srcEq, dstEq⟩) i j
    rw [stores.lists i bucket bucketEq, find?_edgesFrom]
    exact congrArg (·.getD default) found
  constructor
  · rintro ⟨other, again, rebuilt, relinked, agree⟩ i iLt j jLt
    cases Except.ok.inj (built.symm.trans rebuilt)
    cases Except.ok.inj (linked.symm.trans relinked)
    rcases agree i iLt j jLt with ⟨row, cur, bucket, rowEq, curEq, chain, same⟩
    have bucketLt : i < buckets.length := by omega
    have bucketEq := List.getElem?_eq_getElem bucketLt
    have stored := chain.unique (stores.linked.chains.chain i cur _ curEq bucketEq)
    rw [stored, entry i _ bucketEq j, (holds.rows i row rowEq).2 j (matrixVertexs ▸ jLt)] at same
    exact Option.some.inj same
  · intro equal
    refine ⟨matrix, graph, built, linked, fun i iLt j jLt => ?_⟩
    have rowLt : i < matrix.martix.length := by omega
    have curLt : i < graph.linkTables.length := by omega
    have bucketLt : i < buckets.length := by omega
    have rowEq := List.getElem?_eq_getElem rowLt
    have curEq := List.getElem?_eq_getElem curLt
    have bucketEq := List.getElem?_eq_getElem bucketLt
    refine ⟨_, _, _, rowEq, curEq, stores.linked.chains.chain i _ _ curEq bucketEq, ?_⟩
    rw [entry i _ bucketEq j, (holds.rows i _ rowEq).2 j (matrixVertexs ▸ jLt)]
    exact congrArg some (equal i iLt j jLt)

/-- The calls that concern two indices are those that name their vertices. -/
theorem latest_named (isDirected : Bool) {vertexs : List V} (different : vertexs.Nodup)
    {calls : List (Call V W)} (known : ∀ call ∈ calls, call.src ∈ vertexs ∧ call.dst ∈ vertexs)
    {i j : Nat} {src dst : V} (srcEq : vertexs[i]? = some src) (dstEq : vertexs[j]? = some dst) :
    latest calls (Leads isDirected (ofVertexs vertexs : GraphMartix V W).indexMap i j) =
        latest calls (StoresEdge isDirected src dst) ∧
      latest calls (Reverses isDirected (ofVertexs vertexs : GraphMartix V W).indexMap i j) =
        latest calls (StoresReverse isDirected src dst) := by
  have index : ∀ {k : Nat} {vertex name : V}, vertexs[k]? = some vertex → name ∈ vertexs →
      ((ofVertexs vertexs : GraphMartix V W).indexMap name = some k ↔ name = vertex) :=
    fun vertexEq member => GraphLinkTable.indexMap_iff (W := W) different member vertexEq
  constructor
  · refine latest_congr fun call member => Bool.eq_iff_iff.mpr ?_
    rcases known call member with ⟨srcIn, dstIn⟩
    rw [Leads, Reverses, StoresEdge, decide_eq_true_iff, decide_eq_true_iff, decide_eq_true_iff,
      index srcEq srcIn, index dstEq dstIn, index dstEq srcIn, index srcEq dstIn]
  · refine latest_congr fun call member => Bool.eq_iff_iff.mpr ?_
    rcases known call member with ⟨srcIn, dstIn⟩
    rw [Reverses, StoresReverse, decide_eq_true_iff, decide_eq_true_iff, index dstEq srcIn,
      index srcEq dstIn]

omit [Inhabited W] in
theorem storesEdge_of_storesReverse {isDirected : Bool} {src dst : V} {call : Call V W}
    (reverse : StoresReverse isDirected src dst call = true) :
    StoresEdge isDirected src dst call = true := by
  rw [StoresReverse, decide_eq_true_iff] at reverse
  exact decide_eq_true (Or.inr reverse)

/-- A call that is itself the reverse one gives both the same weight. -/
theorem weights_agree {isDirected : Bool} {calls : List (Call V W)}
    (each : ∀ call, calls.reverse.find? (StoresEdge isDirected call.src call.dst) = some call →
      call.w = (latest calls (StoresReverse isDirected call.src call.dst)).getD default)
    (src dst : V) :
    (latest calls (StoresReverse isDirected src dst)).getD default =
      (latest calls (StoresEdge isDirected src dst)).getD default := by
  cases last : calls.reverse.find? (StoresEdge isDirected src dst) with
  | none =>
      have missing : calls.reverse.find? (StoresReverse isDirected src dst) = none := by
        rw [List.find?_eq_none] at last ⊢
        intro call member reverse
        exact last call member (storesEdge_of_storesReverse reverse)
      rw [latest, latest, last, missing]
  | some call =>
      have stores := List.find?_some last
      rw [StoresEdge, decide_eq_true_iff] at stores
      rcases stores with ⟨rfl, rfl⟩ | reverse
      · rw [← each call last, latest, last]
        rfl
      · rw [latest, latest, last, find?_stronger last (decide_eq_true reverse)
          fun _ => storesEdge_of_storesReverse]

/-- The matrix agrees with the adjacency lists exactly when the latest call between two vertices
has stored the weight that the matrix has from the latest reverse call, or `W()` without one, or is
itself the reverse call. -/
theorem martixAgrees_iff (isDirected : Bool) {vertexs : List V} (different : vertexs.Nodup)
    {calls : List (Call V W)} (known : ∀ call ∈ calls, call.src ∈ vertexs ∧ call.dst ∈ vertexs) :
    MartixAgrees isDirected vertexs calls ↔
      ∀ call, calls.reverse.find? (StoresEdge isDirected call.src call.dst) = some call →
        call.w = (latest calls (StoresReverse isDirected call.src call.dst)).getD default := by
  rw [martixAgrees_iff_latest isDirected vertexs calls known]
  constructor
  · intro equal call last
    have member := List.mem_reverse.mp (List.mem_of_find?_eq_some last)
    rcases List.getElem?_of_mem (known call member).1 with ⟨i, srcEq⟩
    rcases List.getElem?_of_mem (known call member).2 with ⟨j, dstEq⟩
    have same := equal i (List.getElem?_eq_some_iff.mp srcEq).1 j
      (List.getElem?_eq_some_iff.mp dstEq).1
    rcases latest_named isDirected different known srcEq dstEq with ⟨leads, reverses⟩
    rw [leads, reverses] at same
    rw [same, latest, last]
    rfl
  · intro each i iLt j jLt
    have srcEq := List.getElem?_eq_getElem iLt
    have dstEq := List.getElem?_eq_getElem jLt
    rcases latest_named isDirected different known srcEq dstEq with ⟨leads, reverses⟩
    rw [leads, reverses]
    exact weights_agree each vertexs[i] vertexs[j]

theorem martixAgrees_iff_two :
    MartixAgrees false [7, 8] [(⟨7, 8, 5⟩ : Call Nat Nat), ⟨8, 7, 5⟩] := by
  refine (martixAgrees_iff false (by decide) (by decide)).mpr fun call last => ?_
  rcases List.mem_cons.mp (List.mem_of_find?_eq_some last) with rfl | member
  · rfl
  · rw [List.mem_singleton.mp member]
    rfl

/-- One edge is enough: the matrix has it in one direction only. -/
theorem martix_misses_edge : ¬MartixAgrees false [7, 8] [(⟨7, 8, 10⟩ : Call Nat Nat)] := by
  rw [martixAgrees_iff_latest false [7, 8] _ (by decide)]
  exact fun equal => absurd (equal 0 (by decide) 1 (by decide)) (by decide)

end Agreement

end GraphMartix

end DataStructAlgorithm.Algorithm
