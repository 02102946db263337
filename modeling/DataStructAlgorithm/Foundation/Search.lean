import Mathlib.Data.List.Nodup

/-! # Orders in which a graph is searched

A graph is given by the list of the successors of each vertex, with repetitions and loops. What a
depth-first and a breadth-first search put out is described by the list of the vertices that they
have visited so far, without the loops that visit them. -/

namespace DataStructAlgorithm.Foundation

variable {Vertex : Type}

/-- A walk, with the number of its edges. -/
inductive Steps (next : Vertex → List Vertex) : Nat → Vertex → Vertex → Prop
  | start (vertex : Vertex) : Steps next 0 vertex vertex
  | step {length : Nat} {first last later : Vertex} :
      Steps next length first last → later ∈ next last → Steps next (length + 1) first later

def Reachable (next : Vertex → List Vertex) (first last : Vertex) : Prop :=
  ∃ length, Steps next length first last

/-- The number of edges of the shortest walk. -/
def Distance (next : Vertex → List Vertex) (first last : Vertex) (length : Nat) : Prop :=
  Steps next length first last ∧ ∀ other, Steps next other first last → length ≤ other

variable {next : Vertex → List Vertex}

theorem Reachable.refl (vertex : Vertex) : Reachable next vertex vertex := ⟨0, .start vertex⟩

theorem Reachable.step {first last later : Vertex} (reachable : Reachable next first last)
    (successor : later ∈ next last) : Reachable next first later := by
  rcases reachable with ⟨length, walk⟩
  exact ⟨length + 1, walk.step successor⟩

theorem Steps.prepend {length : Nat} {earlier first last : Vertex}
    (walk : Steps next length first last) (successor : first ∈ next earlier) :
    Steps next (length + 1) earlier last := by
  induction walk with
  | start vertex => exact (Steps.start earlier).step successor
  | step _ later induction => exact (induction successor).step later

theorem Reachable.prepend {earlier first last : Vertex} (reachable : Reachable next first last)
    (successor : first ∈ next earlier) : Reachable next earlier last := by
  rcases reachable with ⟨length, walk⟩
  exact ⟨length + 1, walk.prepend successor⟩

/-- A set that contains the successors of its members contains what is reachable from them. -/
theorem Reachable.closed {first last : Vertex} (reachable : Reachable next first last)
    {order : List Vertex} (start : first ∈ order)
    (closed : ∀ vertex ∈ order, ∀ later ∈ next vertex, later ∈ order) : last ∈ order := by
  rcases reachable with ⟨length, walk⟩
  induction walk with
  | start => exact start
  | step _ successor induction => exact closed _ (induction start) _ successor

/-! ## Depth first -/

/-- A search that has visited the vertices `before` explores some roots. -/
structure Explored (next : Vertex → List Vertex) (before roots after : List Vertex) : Prop where
  grows : ∃ new, after = before ++ new ∧
    (∀ vertex ∈ new, ∃ root ∈ roots, Reachable next root vertex) ∧
    ∀ vertex ∈ new, ∀ later ∈ next vertex, later ∈ after
  roots : ∀ root ∈ roots, root ∈ after
  nodup : before.Nodup → after.Nodup

namespace Explored

variable {before middle after roots others : List Vertex} {vertex : Vertex}

theorem unchanged (before : List Vertex) : ∃ new, before = before ++ new ∧
    (∀ vertex ∈ new, ∃ root ∈ roots, Reachable next root vertex) ∧
    ∀ vertex ∈ new, ∀ later ∈ next vertex, later ∈ before := by
  refine ⟨[], (List.append_nil before).symm, fun vertex member => ?_, fun vertex member => ?_⟩
  · cases member
  · cases member

theorem nil (before : List Vertex) : Explored next before [] before where
  grows := unchanged before
  roots root isRoot := by cases isRoot
  nodup := id

theorem subset (explored : Explored next before roots after) : before ⊆ after := by
  rcases explored.grows with ⟨new, rfl, _⟩
  exact List.subset_append_left before new

/-- A root that has been visited is passed over. -/
theorem seen (member : vertex ∈ before) : Explored next before [vertex] before where
  grows := unchanged before
  roots root isRoot := by
    rw [List.mem_singleton.mp isRoot]
    exact member
  nodup := id

/-- One root after the other. -/
theorem append (first : Explored next before roots middle)
    (second : Explored next middle others after) :
    Explored next before (roots ++ others) after := by
  have larger := second.subset
  rcases first.grows with ⟨new, rfl, reached, closed⟩
  rcases second.grows with ⟨more, rfl, reachedMore, closedMore⟩
  refine ⟨⟨new ++ more, List.append_assoc _ _ _, ?_, ?_⟩, ?_, second.nodup ∘ first.nodup⟩
  · intro vertex member
    rcases List.mem_append.mp member with member | member
    · rcases reached vertex member with ⟨root, isRoot, reachable⟩
      exact ⟨root, List.mem_append_left _ isRoot, reachable⟩
    · rcases reachedMore vertex member with ⟨root, isRoot, reachable⟩
      exact ⟨root, List.mem_append_right _ isRoot, reachable⟩
  · intro vertex member later successor
    rcases List.mem_append.mp member with member | member
    · exact larger (closed vertex member later successor)
    · exact closedMore vertex member later successor
  · intro root isRoot
    rcases List.mem_append.mp isRoot with isRoot | isRoot
    · exact larger (first.roots root isRoot)
    · exact second.roots root isRoot

/-- A new vertex is visited, and then its successors are explored. -/
theorem visit (new : vertex ∉ before)
    (explored : Explored next (before ++ [vertex]) (next vertex) after) :
    Explored next before [vertex] after := by
  have larger := explored.subset
  rcases explored.grows with ⟨more, rfl, reached, closed⟩
  refine ⟨⟨vertex :: more, by rw [List.append_assoc]; rfl, ?_, ?_⟩, ?_, ?_⟩
  · intro other member
    refine ⟨vertex, List.mem_singleton_self vertex, ?_⟩
    rcases List.mem_cons.mp member with rfl | member
    · exact Reachable.refl other
    · rcases reached other member with ⟨root, successor, reachable⟩
      exact reachable.prepend successor
  · intro other member later successor
    rcases List.mem_cons.mp member with rfl | member
    · exact explored.roots later successor
    · exact closed other member later successor
  · intro root isRoot
    rw [List.mem_singleton.mp isRoot]
    exact larger (List.mem_append_right before (List.mem_singleton_self vertex))
  · intro nodup
    refine explored.nodup (List.nodup_append.mpr ⟨nodup, List.nodup_singleton vertex, ?_⟩)
    intro first member second last equal
    rw [List.mem_singleton.mp last] at equal
    exact new (equal ▸ member)

/-- A whole search visits what is reachable. -/
theorem complete (explored : Explored next [] [vertex] after) :
    after.Nodup ∧ ∀ other, other ∈ after ↔ Reachable next vertex other := by
  refine ⟨explored.nodup List.nodup_nil, fun other => ?_⟩
  have start := explored.roots vertex (List.mem_singleton_self vertex)
  rcases explored.grows with ⟨new, rfl, reached, closed⟩
  constructor
  · intro member
    rcases reached other member with ⟨root, isRoot, reachable⟩
    rw [List.mem_singleton.mp isRoot] at reachable
    exact reachable
  · exact fun reachable => reachable.closed start closed

end Explored

/-! ## Breadth first -/

/-- A breadth-first search with the vertices that it has visited and those in its queue, each with
the length of the walk that has led to it. -/
structure Layered (next : Vertex → List Vertex) (head : Vertex)
    (seen queue : List (Vertex × Nat)) : Prop where
  start : (head, 0) ∈ seen ++ queue
  walks : ∀ entry ∈ seen ++ queue, Steps next entry.2 head entry.1
  sorted : (seen ++ queue).Pairwise fun first second => first.2 ≤ second.2
  narrow : ∀ first ∈ queue, ∀ second ∈ queue, second.2 ≤ first.2 + 1
  edges : ∀ entry ∈ seen, ∀ later ∈ next entry.1,
    ∃ length ≤ entry.2 + 1, (later, length) ∈ seen ++ queue
  shortest : ∀ entry ∈ seen, ∀ length, Steps next length head entry.1 → entry.2 ≤ length
  nodup : (seen.map Prod.fst).Nodup

namespace Layered

variable {head : Vertex} {seen queue rest : List (Vertex × Nat)} {entry : Vertex × Nat}

theorem initial (head : Vertex) : Layered next head [] [(head, 0)] where
  start := List.mem_singleton_self _
  walks entry member := by
    rw [List.mem_singleton.mp member]
    exact Steps.start head
  sorted := List.pairwise_singleton _ _
  narrow first firstIn second secondIn := by
    rw [List.mem_singleton.mp firstIn, List.mem_singleton.mp secondIn]
    exact Nat.zero_le _
  edges entry member := by cases member
  shortest entry member := by cases member
  nodup := List.nodup_nil

/-- What has been visited is not farther away than what is in the queue. -/
theorem older (layered : Layered next head seen queue) {visited waiting : Vertex × Nat}
    (isSeen : visited ∈ seen) (waits : waiting ∈ queue) : visited.2 ≤ waiting.2 :=
  (List.pairwise_append.mp layered.sorted).2.2 visited isSeen waiting waits

/-- The end of a walk has been visited in time, or the queue holds a vertex from which it will
be. -/
theorem frontier (layered : Layered next head seen queue) {length : Nat} {last : Vertex}
    (walk : Steps next length head last) :
    (∃ label ≤ length, (last, label) ∈ seen) ∨ ∃ entry ∈ queue, entry.2 ≤ length := by
  have split : ∀ {label bound : Nat} {vertex : Vertex}, label ≤ bound →
      (vertex, label) ∈ seen ++ queue →
      (∃ label ≤ bound, (vertex, label) ∈ seen) ∨ ∃ entry ∈ queue, entry.2 ≤ bound := by
    intro label bound vertex within member
    rcases List.mem_append.mp member with visited | waits
    · exact Or.inl ⟨label, within, visited⟩
    · exact Or.inr ⟨_, waits, within⟩
  generalize started : head = first at walk
  induction walk with
  | start vertex =>
      subst started
      exact split (Nat.le_refl 0) layered.start
  | step _ successor induction =>
      rcases induction started with ⟨label, within, visited⟩ | ⟨entry, waits, within⟩
      · rcases layered.edges _ visited _ successor with ⟨after, near, member⟩
        exact split (Nat.le_trans near (Nat.succ_le_succ within)) member
      · exact Or.inr ⟨entry, waits, Nat.le_succ_of_le within⟩

/-- The first entry of the queue has been visited before. -/
theorem skip (layered : Layered next head seen (entry :: rest))
    (visited : entry.1 ∈ seen.map Prod.fst) : Layered next head seen rest := by
  rcases List.mem_map.mp visited with ⟨earlier, isSeen, same⟩
  have near := layered.older isSeen List.mem_cons_self
  have shorter : (seen ++ rest).Sublist (seen ++ entry :: rest) :=
    (List.Sublist.refl seen).append (List.sublist_cons_self entry rest)
  have found : ∀ {label : Nat} {vertex : Vertex}, (vertex, label) ∈ seen ++ entry :: rest →
      ∃ lower ≤ label, (vertex, lower) ∈ seen ++ rest := by
    intro label vertex member
    rcases List.mem_append.mp member with old | waits
    · exact ⟨label, Nat.le_refl label, List.mem_append_left rest old⟩
    · rcases List.mem_cons.mp waits with rfl | waits
      · have listed : (vertex, earlier.2) ∈ seen := by
          rw [← show earlier.1 = vertex from same]
          exact isSeen
        exact ⟨earlier.2, near, List.mem_append_left rest listed⟩
      · exact ⟨label, Nat.le_refl label, List.mem_append_right seen waits⟩
  constructor
  case start =>
    rcases found layered.start with ⟨lower, least, member⟩
    rw [Nat.le_zero.mp least] at member
    exact member
  case walks => exact fun other member => layered.walks other (shorter.subset member)
  case sorted => exact layered.sorted.sublist shorter
  case narrow =>
    intro first firstIn second secondIn
    exact layered.narrow first (List.mem_cons_of_mem entry firstIn) second
      (List.mem_cons_of_mem entry secondIn)
  case edges =>
    intro other member later successor
    rcases layered.edges other member later successor with ⟨label, within, listed⟩
    rcases found listed with ⟨lower, least, stays⟩
    exact ⟨lower, Nat.le_trans least within, stays⟩
  case shortest => exact layered.shortest
  case nodup => exact layered.nodup

/-- The first entry of the queue is visited, and its successors that have not been visited wait. -/
theorem visit (layered : Layered next head seen (entry :: rest))
    (unseen : entry.1 ∉ seen.map Prod.fst) (pushed : List Vertex) (subset : pushed ⊆ next entry.1)
    (others : ∀ later ∈ next entry.1, later ∈ pushed ∨ later ∈ (seen ++ [entry]).map Prod.fst) :
    Layered next head (seen ++ [entry]) (rest ++ pushed.map (·, entry.2 + 1)) := by
  have least : ∀ other ∈ entry :: rest, entry.2 ≤ other.2 := by
    have ordered := (List.pairwise_append.mp layered.sorted).2.1
    intro other member
    rcases List.mem_cons.mp member with rfl | member
    · exact Nat.le_refl _
    · exact List.rel_of_pairwise_cons ordered member
  have near : ∀ other ∈ seen ++ entry :: rest, other.2 ≤ entry.2 + 1 := by
    intro other member
    rcases List.mem_append.mp member with old | waits
    · exact Nat.le_succ_of_le (layered.older old List.mem_cons_self)
    · exact layered.narrow entry List.mem_cons_self other waits
  have regroup : (seen ++ [entry]) ++ (rest ++ pushed.map (·, entry.2 + 1)) =
      (seen ++ entry :: rest) ++ pushed.map (·, entry.2 + 1) := by simp
  constructor
  case start =>
    rw [regroup]
    exact List.mem_append_left _ layered.start
  case walks =>
    rw [regroup]
    intro other member
    rcases List.mem_append.mp member with old | new
    · exact layered.walks other old
    · rcases List.mem_map.mp new with ⟨later, isPushed, rfl⟩
      exact (layered.walks entry (List.mem_append_right seen List.mem_cons_self)).step
        (subset isPushed)
  case sorted =>
    rw [regroup, List.pairwise_append]
    refine ⟨layered.sorted, ?_, fun old member new isNew => ?_⟩
    · rw [List.pairwise_map]
      exact List.pairwise_of_forall fun _ _ => Nat.le_refl _
    · rcases List.mem_map.mp isNew with ⟨later, _, rfl⟩
      exact near old member
  case narrow =>
    have bounds : ∀ other ∈ rest ++ pushed.map (·, entry.2 + 1),
        entry.2 ≤ other.2 ∧ other.2 ≤ entry.2 + 1 := by
      intro other member
      rcases List.mem_append.mp member with old | new
      · have waits := List.mem_cons_of_mem entry old
        exact ⟨least other waits, near other (List.mem_append_right seen waits)⟩
      · rcases List.mem_map.mp new with ⟨later, _, rfl⟩
        exact ⟨Nat.le_succ _, Nat.le_refl _⟩
    intro first firstIn second secondIn
    exact Nat.le_trans (bounds second secondIn).2 (Nat.succ_le_succ (bounds first firstIn).1)
  case edges =>
    rw [regroup]
    intro other member later successor
    rcases List.mem_append.mp member with old | new
    · rcases layered.edges other old later successor with ⟨label, within, listed⟩
      exact ⟨label, within, List.mem_append_left _ listed⟩
    · rw [List.mem_singleton.mp new] at successor ⊢
      rcases others later successor with isPushed | visited
      · exact ⟨entry.2 + 1, Nat.le_refl _,
          List.mem_append_right _ (List.mem_map_of_mem isPushed)⟩
      · rcases List.mem_map.mp visited with ⟨earlier, isSeen, rfl⟩
        have listed : earlier ∈ seen ++ entry :: rest := by
          rcases List.mem_append.mp isSeen with old | last
          · exact List.mem_append_left _ old
          · rw [List.mem_singleton.mp last]
            exact List.mem_append_right seen List.mem_cons_self
        exact ⟨earlier.2, near earlier listed, List.mem_append_left _ listed⟩
  case shortest =>
    intro other member length walk
    rcases List.mem_append.mp member with old | new
    · exact layered.shortest other old length walk
    · rw [List.mem_singleton.mp new] at walk ⊢
      rcases layered.frontier walk with ⟨label, _, visited⟩ | ⟨waiting, waits, within⟩
      · exact absurd (List.mem_map_of_mem visited) unseen
      · exact Nat.le_trans (least waiting waits) within
  case nodup =>
    rw [List.map_append, List.nodup_append]
    refine ⟨layered.nodup, List.nodup_singleton _, fun first member second last equal => ?_⟩
    rw [List.map_singleton, List.mem_singleton] at last
    exact unseen (last ▸ equal ▸ member)

/-- A search with an empty queue has visited what is reachable. -/
theorem complete (layered : Layered next head seen []) (vertex : Vertex) :
    vertex ∈ seen.map Prod.fst ↔ Reachable next head vertex := by
  constructor
  · intro member
    rcases List.mem_map.mp member with ⟨entry, isSeen, rfl⟩
    exact ⟨entry.2, layered.walks entry (List.mem_append_left _ isSeen)⟩
  · rintro ⟨length, walk⟩
    rcases layered.frontier walk with ⟨label, _, visited⟩ | ⟨entry, waits, _⟩
    · exact List.mem_map_of_mem visited
    · cases waits

/-- Vertices are visited in the order of their distance. -/
theorem ordered (layered : Layered next head seen queue) :
    (seen.map Prod.fst).Pairwise fun first second => ∀ near far,
      Distance next head first near → Distance next head second far → near ≤ far := by
  have labelled : ∀ entry ∈ seen, ∀ length, Distance next head entry.1 length →
      length = entry.2 := by
    intro entry member length distance
    have walk := layered.walks entry (List.mem_append_left _ member)
    exact Nat.le_antisymm (distance.2 _ walk) (layered.shortest entry member _ distance.1)
  rw [List.pairwise_map]
  refine (List.pairwise_append.mp layered.sorted).1.imp_of_mem ?_
  intro first second firstIn secondIn less near far nearest farthest
  rw [labelled first firstIn near nearest, labelled second secondIn far farthest]
  exact less

end Layered

end DataStructAlgorithm.Foundation
