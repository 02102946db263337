import Mathlib.Algebra.Group.Nat.Defs
import DataStructAlgorithm.Foundation.Chain
import DataStructAlgorithm.Foundation.PriorityQueue
import DataStructAlgorithm.Algorithm.Union.UnionFindSet

/-! # The adjacency lists of `Graph/Graph.hpp` -/

namespace DataStructAlgorithm.Algorithm

open Foundation

/-- The payload of an `EdgeNode`. -/
structure Edge (W : Type) where
  src : Nat
  dst : Nat
  w : W
  deriving DecidableEq, Repr

/-- `EdgeNode` -/
abbrev EdgeNode (W : Type) := ListNode (Edge W)

/-- The class `GraphLinkTable` together with the memory its edges live in. -/
structure GraphLinkTable (V W : Type) where
  heap : Store (EdgeNode W)
  vertexs : List V
  linkTables : List Ptr
  indexMap : V → Option Nat

namespace GraphLinkTable

variable {V W : Type}

/-- `GraphLinkTable()` -/
def empty : GraphLinkTable V W := ⟨.empty, [], [], fun _ => none⟩

section Construction

variable [DecidableEq V]

/-- `_index_map[key] = index` -/
def setIndex (indexMap : V → Option Nat) (key : V) (index : Nat) : V → Option Nat :=
  fun other => if other = key then some index else indexMap other

/-- `GraphLinkTable(vertexs, size)` -/
def ofVertexs (vertexs : List V) : GraphLinkTable V W where
  heap := .empty
  vertexs := vertexs
  linkTables := List.replicate vertexs.length none
  indexMap := vertexs.zipIdx.foldl (fun indexMap entry => setIndex indexMap entry.1 entry.2)
    fun _ => none

end Construction

/-- `_AddEdge` -/
def addEdgeByIndex (graph : GraphLinkTable V W) (srcIndex dstIndex : Nat) (w : W) :
    Outcome (GraphLinkTable V W) :=
  if srcIndex < graph.vertexs.length ∧ dstIndex < graph.vertexs.length then do
    let head ← readAt graph.linkTables srcIndex
    let linkTables ← writeAt graph.linkTables srcIndex (some graph.heap.next)
    pure { graph with
      heap := graph.heap.alloc ⟨⟨srcIndex, dstIndex, w⟩, head⟩
      linkTables := linkTables }
  else .error .assertion

/-- `AddEdge` -/
def addEdge (isDirected : Bool) (graph : GraphLinkTable V W) (src dst : V) (w : W) :
    Outcome (GraphLinkTable V W) :=
  match graph.indexMap src, graph.indexMap dst with
  | some srcIndex, some dstIndex => do
      let graph ← addEdgeByIndex graph srcIndex dstIndex w
      if isDirected then pure graph else addEdgeByIndex graph dstIndex srcIndex w
  | _, _ => .error .assertion

/-! ## Kruskal -/

section Kruskal

variable [LT W]

/-- `EdgeComparaLess` -/
def EdgeComparaLess (left right : Edge W) : Prop := left.w > right.w

variable (queue : PriorityQueue (Edge W) EdgeComparaLess)

/-- One pass of `while (edge)`. The queue holds the edges instead of pointers to
them, since no edge of this graph changes meanwhile. -/
def collectPass (heap : Store (EdgeNode W)) (state : Ptr × queue.State) :
    Outcome (Pass (Ptr × queue.State) queue.State) :=
  match state with
  | (none, pq) => .ok (.leave pq)
  | (some edge, pq) => do
      let node ← heap.load (some edge)
      let pq := if node.data.src < node.data.dst then queue.push node.data pq else pq
      pure (.again (node.next, pq))

/-- The loops that fill the queue. -/
def collect (fuel : Nat) (graph : GraphLinkTable V W) : Outcome queue.State :=
  graph.linkTables.foldlM
    (fun pq head => repeatLoop (collectPass queue graph.heap) fuel (head, pq)) queue.empty

/-- The variables of the loop that builds the tree. -/
structure TreeLoop (V W : Type) [LT W] (queue : PriorityQueue (Edge W) EdgeComparaLess) where
  pq : queue.State
  unionSet : UnionFindSet
  minTree : GraphLinkTable V W
  N : Nat

/-- `--N` on a `size_t`. -/
def decrement (N : Nat) : Nat :=
  if N = 0 then 2 ^ 64 - 1 else N - 1

/-- One pass of `for (;;)`. -/
def treePass (fuel : Nat) (state : TreeLoop V W queue) :
    Outcome (Pass (TreeLoop V W queue) (GraphLinkTable V W × Bool)) :=
  match queue.top state.pq with
  | none => .error .outOfRange
  | some edge => do
      let pq := queue.pop state.pq
      let srcParent ← state.unionSet.findParent fuel edge.src
      let dstParent ← state.unionSet.findParent fuel edge.dst
      if srcParent ≠ dstParent then do
        let unionSet ← state.unionSet.setUnionFriend fuel edge.src edge.dst
        let minTree ← addEdgeByIndex state.minTree edge.src edge.dst edge.w
        let N := decrement state.N
        if N = 0 then pure (.leave (minTree, true)) else pure (.again ⟨pq, unionSet, minTree, N⟩)
      else pure (.again { state with pq := pq })

/-- `resize(size, NULL)` -/
def resize (tables : List Ptr) (size : Nat) : List Ptr :=
  tables.take size ++ List.replicate (size - tables.length) none

/-- `Kruskal` -/
def kruskal (fuel : Nat) (isDirected : Bool) (graph minTree : GraphLinkTable V W) :
    Outcome (GraphLinkTable V W × Bool) :=
  if isDirected then .error .assertion
  else do
    let minTree : GraphLinkTable V W :=
      ⟨minTree.heap, graph.vertexs, resize minTree.linkTables graph.vertexs.length, graph.indexMap⟩
    let pq ← collect queue fuel graph
    let unionSet := UnionFindSet.ofSize graph.vertexs.length
    repeatLoop (treePass queue fuel) fuel ⟨pq, unionSet, minTree, decrement graph.vertexs.length⟩

end Kruskal

end GraphLinkTable

end DataStructAlgorithm.Algorithm
