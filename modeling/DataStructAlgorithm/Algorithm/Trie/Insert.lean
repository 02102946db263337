import DataStructAlgorithm.Algorithm.Trie.Labels

/-! # Inserting a path

The search leads to the node that the longest known beginning of the path leads to, but at the
root it does not look at the first child. The rest of the path becomes a chain of new nodes. -/

namespace DataStructAlgorithm.Algorithm.Trie

open Foundation DictionaryTree

/-- The child at a place of a node has the segment. -/
def ChildAt (heap : Store Node) (address place : Nat) (segment : List Byte) : Prop :=
  ∃ node below child, heap.cell address = some node ∧ node.next[place]? = some below ∧
    heap.cell below = some child ∧ child.file = segment

/-! ## The search -/

/-- What is known while the search goes on. -/
structure Searching (heap : Store Node) (root : Nat) (label : Nat → List (List Byte))
    (path : List (List Byte)) (search : Search) : Prop where
  node : ∃ node, heap.cell search.tmp = some node
  isLabel : label search.tmp = path.take search.idx
  idx : search.idx ≤ path.length
  start : search.idx = 0 → search.tmp = root
  passed : ∀ place < search.i, (search.idx = 0 → 1 ≤ place) → ∀ segment,
    path[search.idx]? = some segment → ¬ ChildAt heap search.tmp place segment
  first : 0 < search.idx → ∃ place segment, 1 ≤ place ∧ path[0]? = some segment ∧
    ChildAt heap root place segment

section Search

variable {heap : Store Node} {root : Nat} {label : Nat → List (List Byte)}
  {path : List (List Byte)} {search : Search}

/-- The search has come to a child that the path does not go on with. -/
theorem Searching.next (searching : Searching heap root label path search)
    (differs : ∀ segment, path[search.idx]? = some segment →
      ¬ ChildAt heap search.tmp search.i segment) :
    Searching heap root label path { search with i := search.i + 1 } where
  node := searching.node
  isLabel := searching.isLabel
  idx := searching.idx
  start := searching.start
  passed := by
    intro place placeLt fromSecond segment isSegment
    rcases Nat.lt_succ_iff_lt_or_eq.mp placeLt with before | isPlace
    · exact searching.passed place before fromSecond segment isSegment
    · rw [isPlace]
      exact differs segment isSegment
  first := searching.first

/-- The search goes down to a child. -/
theorem Searching.down (searching : Searching heap root label path search)
    (labelled : Labelled heap root label) (fromSecond : search.idx = 0 → 1 ≤ search.i)
    {node child : Node} {below : Nat} (found : heap.cell search.tmp = some node)
    (isBelow : node.next[search.i]? = some below) (childFound : heap.cell below = some child)
    (within : search.idx < path.length) (matched : path[search.idx]? = some child.file) :
    Searching heap root label path ⟨below, search.idx + 1, 0⟩ where
  node := ⟨child, childFound⟩
  isLabel := by
    rcases labelled.child search.tmp node found below (List.mem_of_getElem? isBelow) with
      ⟨same, sameFound, isLabel⟩
    rw [childFound] at sameFound
    cases sameFound
    rw [isLabel, searching.isLabel, List.take_add_one, matched]
    rfl
  idx := within
  start := nofun
  passed := fun place placeLt => absurd placeLt (Nat.not_lt_zero place)
  first := by
    intro _
    rcases Nat.eq_zero_or_pos search.idx with isStart | further
    · refine ⟨search.i, child.file, fromSecond isStart, ?_, ?_⟩
      · rw [← isStart]
        exact matched
      · rw [← searching.start isStart]
        exact ⟨node, below, child, found, isBelow, childFound, rfl⟩
    · exact searching.first further

/-- The passes that are left. -/
def searchBound (heap : Store Node) (path : List (List Byte)) (search : Search) : Nat :=
  (path.length - search.idx) * (heap.next + 2) + (heap.next + 1 - search.i)

theorem searchPass_spec (labelled : Labelled heap root label)
    (searching : Searching heap root label path search)
    (fromSecond : search.idx = 0 → 1 ≤ search.i) :
    (∃ next, searchPass heap path search = .ok (.again next) ∧
      searchBound heap path next < searchBound heap path search ∧
      Searching heap root label path next ∧ (next.idx = 0 → 1 ≤ next.i)) ∨
    (searchPass heap path search = .ok (.leave search) ∧
      ∀ node, heap.cell search.tmp = some node → node.next.length ≤ search.i) := by
  rcases searching.node with ⟨node, found⟩
  by_cases more : search.i < node.next.length
  · left
    have few := labelled.length_next_le found
    have isBelow := List.getElem?_eq_getElem more
    rcases labelled.child search.tmp node found _ (List.getElem_mem more) with
      ⟨child, childFound, _⟩
    have less : searchBound heap path { search with i := search.i + 1 } <
        searchBound heap path search := by
      simp only [searchBound]
      omega
    by_cases within : search.idx < path.length
    · by_cases matched : path[search.idx]? = some child.file
      · refine ⟨⟨node.next[search.i], search.idx + 1, 0⟩, ?_, ?_,
          searching.down labelled fromSecond found isBelow childFound within matched, nofun⟩
        · simp only [searchPass, Store.load_some found, Outcome.ok_bind, if_pos more, if_pos within,
            readAt_of_getElem? isBelow, Store.load_some childFound, if_pos matched]
          rfl
        · have left : path.length - search.idx = path.length - (search.idx + 1) + 1 := by omega
          simp only [searchBound, left, Nat.succ_mul]
          omega
      · refine ⟨{ search with i := search.i + 1 }, ?_, less, searching.next ?_, ?_⟩
        · simp only [searchPass, Store.load_some found, Outcome.ok_bind, if_pos more, if_pos within,
            readAt_of_getElem? isBelow, Store.load_some childFound, if_neg matched]
          rfl
        · rintro segment isSegment ⟨same, other, otherChild, sameFound, otherBelow, otherFound, rfl⟩
          rw [found] at sameFound
          cases sameFound
          rw [isBelow] at otherBelow
          cases otherBelow
          rw [childFound] at otherFound
          cases otherFound
          exact matched isSegment
        · exact fun _ => Nat.le_add_left 1 _
    · refine ⟨{ search with i := search.i + 1 }, ?_, less, searching.next ?_, ?_⟩
      · simp only [searchPass, Store.load_some found, Outcome.ok_bind, if_pos more, if_neg within]
        rfl
      · intro segment isSegment
        rw [List.getElem?_eq_none (Nat.le_of_not_lt within)] at isSegment
        cases isSegment
      · exact fun _ => Nat.le_add_left 1 _
  · right
    constructor
    · simp [searchPass, found, more]
    · intro same sameFound
      rw [found] at sameFound
      cases sameFound
      exact Nat.le_of_not_lt more

theorem search_spec (labelled : Labelled heap root label) (path : List (List Byte)) (fuel : Nat)
    (enough : searchBound heap path ⟨root, 0, 1⟩ < fuel) :
    ∃ found, repeatLoop (searchPass heap path) fuel ⟨root, 0, 1⟩ = .ok found ∧
      Searching heap root label path found ∧
      ∀ node, heap.cell found.tmp = some node → node.next.length ≤ found.i := by
  have start : Searching heap root label path ⟨root, 0, 1⟩ := by
    refine ⟨labelled.rootNode, labelled.rootLabel, Nat.zero_le _, fun _ => rfl, ?_, nofun⟩
    intro place placeLt fromSecond
    have low : 1 ≤ place := fromSecond rfl
    have high : place < 1 := placeLt
    omega
  refine repeatLoop_total
    (fun bound search => bound = searchBound heap path search ∧
      Searching heap root label path search ∧ (search.idx = 0 → 1 ≤ search.i)) _ ?_ fuel _ _
    ⟨rfl, start, fun _ => Nat.le_refl 1⟩ enough
  rintro bound search ⟨rfl, searching, fromSecond⟩
  rcases searchPass_spec labelled searching fromSecond with ⟨next, pass, less, kept⟩ | ⟨pass, all⟩
  · exact Or.inl ⟨next, _, pass, less, rfl, kept⟩
  · exact Or.inr ⟨search, pass, searching, all⟩

end Search

/-! ## The new nodes -/

section Grow

variable {heap : Store Node} {root : Nat} {label : Nat → List (List Byte)}
  {path : List (List Byte)} {tmp idx : Nat} {node : Node}

theorem growPass_attach (found : heap.cell tmp = some node) {file : List Byte}
    (isFile : path[idx]? = some file) :
    growPass path ⟨heap, tmp, idx⟩ =
      .ok (.again ⟨attach heap tmp file, heap.next, idx + 1⟩) := by
  have allocated : (heap.alloc (Node.new file)).cell tmp = some node := by
    rw [Store.cell_alloc_of_lt _ _ (Store.lt_next found), found]
  have stored := cell_attach_same file found
  have isLast : readAt (node.next ++ [heap.next]) ((node.next ++ [heap.next]).length - 1) =
      .ok heap.next := by
    apply readAt_of_getElem?
    rw [List.length_append, List.length_singleton, Nat.add_sub_cancel, List.getElem?_concat_length]
  rw [attach] at stored
  simp only [growPass, isFile, Store.assign_some _ allocated, Outcome.ok_bind,
    Store.load_some stored, isLast]
  rfl

/-- Nodes stay, with their segments and the children that they have had. -/
def Keeps (heap after : Store Node) : Prop :=
  ∀ address before, heap.cell address = some before →
    ∃ more, after.cell address = some ⟨before.file, before.next ++ more⟩

theorem Keeps.childAt {after : Store Node} (keeps : Keeps heap after) {address place : Nat}
    {segment : List Byte} (childAt : ChildAt heap address place segment) :
    ChildAt after address place segment := by
  rcases childAt with ⟨node, below, child, found, isBelow, childFound, isFile⟩
  rcases keeps address node found with ⟨more, stays⟩
  rcases keeps below child childFound with ⟨others, childStays⟩
  refine ⟨_, below, _, stays, ?_, childStays, isFile⟩
  rw [List.getElem?_append_left (List.getElem?_eq_some_iff.mp isBelow).1]
  exact isBelow

/-- What adding the rest of a path does. -/
structure Grown (heap : Store Node) (root : Nat) (label : Nat → List (List Byte))
    (path : List (List Byte)) (tmp idx : Nat) (after : Store Node)
    (afterLabel : Nat → List (List Byte)) : Prop where
  labelled : Labelled after root afterLabel
  present : ∀ segments, Present after afterLabel segments ↔ Present heap label segments ∨
    ∃ count, idx < count ∧ count ≤ path.length ∧ segments = path.take count
  distinct : Distinct heap label →
    (∀ segment, path[idx]? = some segment → Missing heap tmp segment) → Distinct after afterLabel
  keeps : Keeps heap after
  added : ∀ segment, path[idx]? = some segment → ∀ node, heap.cell tmp = some node →
    ChildAt after tmp node.next.length segment

theorem grow_spec (left idx : Nat) (labelled : Labelled heap root label)
    (found : heap.cell tmp = some node) (isLabel : label tmp = path.take idx)
    (all : idx + left = path.length) (fuel : Nat) (enough : left < fuel) :
    ∃ after afterLabel, repeatLoop (growPass path) fuel ⟨heap, tmp, idx⟩ = .ok after ∧
      Grown heap root label path tmp idx after afterLabel ∧ (left = 0 → after = heap) := by
  induction left generalizing heap label tmp node idx fuel with
  | zero =>
      rcases Nat.exists_eq_succ_of_ne_zero (Nat.ne_zero_of_lt enough) with ⟨fuel, rfl⟩
      have ended : path[idx]? = none := List.getElem?_eq_none (by omega)
      have pass : growPass path ⟨heap, tmp, idx⟩ = .ok (.leave heap) := by
        simp [growPass, ended]
      refine ⟨heap, label, repeatLoop_leave _ pass, ⟨labelled, ?_, fun kept _ => kept, ?_, ?_⟩,
        fun _ => rfl⟩
      · intro segments
        constructor
        · exact Or.inl
        · rintro (present | ⟨count, low, high, _⟩)
          · exact present
          · omega
      · exact fun address before stays => ⟨[], by rw [List.append_nil]; exact stays⟩
      · intro segment isSegment
        rw [ended] at isSegment
        cases isSegment
  | succ left induction =>
      rcases Nat.exists_eq_succ_of_ne_zero (Nat.ne_zero_of_lt enough) with ⟨fuel, rfl⟩
      have within : idx < path.length := by omega
      have isFile := List.getElem?_eq_getElem within
      have newFound := cell_attach_new path[idx] found
      have newLabel : attachLabel heap label tmp path[idx] heap.next = path.take (idx + 1) := by
        rw [attachLabel_new, isLabel, List.take_add_one, isFile]
        rfl
      rcases induction (idx + 1) (labelled.attach path[idx] found) newFound newLabel (by omega) fuel
        (by omega) with ⟨after, afterLabel, run, grown, _⟩
      have stays : Keeps heap (attach heap tmp path[idx]) := fun address before beforeFound =>
        ⟨_, attach_keeps path[idx] found beforeFound⟩
      refine ⟨after, afterLabel, ?_, ⟨grown.labelled, ?_, ?_, ?_, ?_⟩, nofun⟩
      · rw [repeatLoop_again _ (growPass_attach found isFile)]
        exact run
      · intro segments
        rw [grown.present, present_attach path[idx] found, isLabel]
        have next : path.take idx ++ [path[idx]] = path.take (idx + 1) := by
          rw [List.take_add_one, isFile]
          rfl
        rw [next]
        constructor
        · rintro ((present | rfl) | ⟨count, low, high, rfl⟩)
          · exact Or.inl present
          · exact Or.inr ⟨idx + 1, Nat.lt_succ_self idx, within, rfl⟩
          · exact Or.inr ⟨count, by omega, high, rfl⟩
        · rintro (present | ⟨count, low, high, rfl⟩)
          · exact Or.inl (Or.inl present)
          · rcases Nat.lt_or_ge (idx + 1) count with later | first
            · exact Or.inr ⟨count, later, high, rfl⟩
            · have isFirst : count = idx + 1 := by omega
              exact Or.inl (Or.inr (by rw [isFirst]))
      · intro kept missing
        apply grown.distinct (kept.attach path[idx] labelled found (missing _ isFile))
        intro segment _ same sameFound below member
        rw [newFound] at sameFound
        cases sameFound
        cases member
      · intro address before beforeFound
        rcases stays address before beforeFound with ⟨first, firstStays⟩
        rcases grown.keeps address _ firstStays with ⟨more, laterStays⟩
        exact ⟨first ++ more, by rw [laterStays, List.append_assoc]⟩
      · intro segment isSegment same sameFound
        rw [found] at sameFound
        cases sameFound
        rw [isFile] at isSegment
        cases isSegment
        apply grown.keeps.childAt
        exact ⟨_, heap.next, _, cell_attach_same path[idx] found, List.getElem?_concat_length,
          newFound, rfl⟩

end Grow

/-! ## A whole insertion -/

section Insertion

variable {heap : Store Node} {root : Nat} {label : Nat → List (List Byte)}

/-- What inserting a path does. The path begins with a child of the root behind the first one,
or with the first one if there has been none. -/
structure Inserted (heap : Store Node) (root : Nat) (label : Nat → List (List Byte))
    (path : List (List Byte)) (after : Store Node) (afterLabel : Nat → List (List Byte)) :
    Prop where
  labelled : Labelled after root afterLabel
  present : ∀ segments, Present after afterLabel segments ↔
    Present heap label segments ∨ segments <+: path
  distinct : Distinct heap label → (∀ segment, path[0]? = some segment →
    ¬ ChildAt heap root 0 segment) → Distinct after afterLabel
  keeps : Keeps heap after
  same : path = [] → after = heap
  begins : ∀ segment, path[0]? = some segment → ∀ node, heap.cell root = some node →
    ∃ place, (node.next = [] → place = 0) ∧ (node.next ≠ [] → 1 ≤ place) ∧
      ChildAt after root place segment

theorem inserted_of_grown {path : List (List Byte)} {found : Search} {after : Store Node}
    {afterLabel : Nat → List (List Byte)} (labelled : Labelled heap root label)
    (searching : Searching heap root label path found)
    (all : ∀ node, heap.cell found.tmp = some node → node.next.length ≤ found.i)
    (grown : Grown heap root label path found.tmp found.idx after afterLabel)
    (same : path.length - found.idx = 0 → after = heap) :
    Inserted heap root label path after afterLabel where
  labelled := grown.labelled
  present := by
    intro segments
    rw [grown.present]
    constructor
    · rintro (present | ⟨count, _, _, rfl⟩)
      · exact Or.inl present
      · exact Or.inr (List.take_prefix count path)
    · rintro (present | begins)
      · exact Or.inl present
      · have isTake := List.prefix_iff_eq_take.mp begins
        rcases Nat.lt_or_ge found.idx segments.length with beyond | within
        · exact Or.inr ⟨segments.length, beyond, begins.length_le, isTake⟩
        · rcases searching.node with ⟨node, nodeFound⟩
          apply Or.inl (labelled.present_of_prefix nodeFound _)
          rw [searching.isLabel, isTake]
          exact List.take_prefix_take_left within
  distinct := by
    intro kept apart
    apply grown.distinct kept
    intro segment isSegment node nodeFound below member child childFound isFile
    rcases List.getElem?_of_mem member with ⟨place, isBelow⟩
    have childAt : ChildAt heap found.tmp place segment :=
      ⟨node, below, child, nodeFound, isBelow, childFound, isFile⟩
    have placeLt : place < found.i :=
      Nat.lt_of_lt_of_le (List.getElem?_eq_some_iff.mp isBelow).1 (all node nodeFound)
    by_cases isFirst : found.idx = 0 ∧ place = 0
    · rw [isFirst.1] at isSegment
      rw [searching.start isFirst.1, isFirst.2] at childAt
      exact apart segment isSegment childAt
    · exact searching.passed place placeLt (by omega) segment isSegment childAt
  keeps := grown.keeps
  same := fun empty => same (by rw [empty]; exact Nat.zero_sub _)
  begins := by
    intro segment isSegment node nodeFound
    rcases Nat.eq_zero_or_pos found.idx with isStart | further
    · have isRoot := searching.start isStart
      have added := grown.added segment (by rw [isStart]; exact isSegment) node
        (by rw [isRoot]; exact nodeFound)
      rw [isRoot] at added
      refine ⟨node.next.length, fun empty => by rw [empty]; rfl, fun some => ?_, added⟩
      exact List.length_pos_iff.mpr some
    · rcases searching.first further with ⟨place, first, notFirst, isFirst, childAt⟩
      rw [isSegment] at isFirst
      cases isFirst
      refine ⟨place, fun empty => ?_, fun _ => notFirst, grown.keeps.childAt childAt⟩
      rcases childAt with ⟨same, below, child, sameFound, isBelow, _⟩
      rw [nodeFound] at sameFound
      cases sameFound
      rw [empty] at isBelow
      cases isBelow

/-- Inserting a URL into a tree that has a root. -/
theorem insertUrl_spec (labelled : Labelled heap root label) (url : List Byte) :
    ∃ bound after afterLabel, (∀ fuel, bound ≤ fuel →
        insertUrl fuel ⟨heap, some root⟩ url = .ok ⟨after, some root⟩) ∧
      Inserted heap root label (parsingPath url) after afterLabel := by
  have long := Nat.lt_succ_self (searchBound heap (parsingPath url) ⟨root, 0, 1⟩)
  rcases search_spec labelled (parsingPath url) _ long with ⟨found, search, searching, all⟩
  rcases searching.node with ⟨node, nodeFound⟩
  have parts := Nat.add_sub_of_le searching.idx
  rcases grow_spec _ _ labelled nodeFound searching.isLabel parts _ (Nat.lt_succ_self _) with
    ⟨after, afterLabel, grow, grown, same⟩
  refine ⟨searchBound heap (parsingPath url) ⟨root, 0, 1⟩ + 1 +
    ((parsingPath url).length - found.idx + 1), after, afterLabel, fun fuel enough => ?_,
    inserted_of_grown labelled searching all grown same⟩
  have searchMore := repeatLoop_mono search (by omega : _ ≤ fuel)
  have growMore := repeatLoop_mono grow (by omega : _ ≤ fuel)
  simp only [insertUrl, DictionaryTree.insert, ensureRoot, searchMore, Outcome.ok_bind, growMore]
  rfl

/-- Looking for a URL in a tree that has a root always gives the same answer. -/
theorem findUrl_spec (labelled : Labelled heap root label) (url : List Byte) :
    ∃ fuel, findUrl fuel ⟨heap, some root⟩ url = .ok (⟨heap, some root⟩, true) := by
  have long := Nat.lt_succ_self (searchBound heap (parsingPath url) ⟨root, 0, 1⟩)
  rcases search_spec labelled (parsingPath url) _ long with ⟨found, search, searching, _⟩
  refine ⟨searchBound heap (parsingPath url) ⟨root, 0, 1⟩ + 1, ?_⟩
  simp only [findUrl, DictionaryTree.insert, ensureRoot, search, Outcome.ok_bind, searching.idx,
    if_true]
  rfl

theorem findUrl_answer (labelled : Labelled heap root label) {url : List Byte} {fuel : Nat}
    {tree : DictionaryTree} {answer : Bool}
    (returned : findUrl fuel ⟨heap, some root⟩ url = .ok (tree, answer)) : answer = true := by
  rcases Outcome.bind_eq_ok returned with ⟨found, search, result⟩
  have long := Nat.lt_succ_self (searchBound heap (parsingPath url) ⟨root, 0, 1⟩)
  rcases search_spec labelled (parsingPath url) _ long with ⟨same, ran, searching, _⟩
  rw [repeatLoop_unique search ran] at result
  simp only [Bool.not_false, if_true, searching.idx] at result
  exact (Prod.mk.inj (Except.ok.inj result)).2.symm

end Insertion

end DataStructAlgorithm.Algorithm.Trie
