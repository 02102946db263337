import DataStructAlgorithm.Algorithm.Trie.Insert
import DataStructAlgorithm.Foundation.Transition

/-! # Dictionaries of URLs

A tree is compared with the set of the beginnings of the paths that have been inserted. -/

namespace DataStructAlgorithm.Algorithm.Trie

open Foundation DictionaryTree

/-- The node that some segments lead to from the root. -/
inductive Reached (tree : DictionaryTree) : List (List Byte) → Nat → Prop
  | root {root : Nat} {node : Node} (isRoot : tree.root = some root)
      (found : tree.heap.cell root = some node) : Reached tree [] root
  | child {segments : List (List Byte)} {address below : Nat} {node child : Node}
      (reached : Reached tree segments address) (found : tree.heap.cell address = some node)
      (member : below ∈ node.next) (childFound : tree.heap.cell below = some child) :
      Reached tree (segments ++ [child.file]) below

/-- The tree is a trie of the paths. -/
structure IsTrieOf (tree : DictionaryTree) (paths : List (List (List Byte))) : Prop where
  different : ∀ segments address node, Reached tree segments address →
    tree.heap.cell address = some node →
    (node.next.map fun below => (tree.heap.cell below).map Node.file).Nodup
  sequences : ∀ segments, (∃ address, Reached tree segments address) ↔
    ∃ path ∈ paths, segments <+: path

/-- No path that follows the first one with a segment begins with the segment that it begins
with. -/
def Unrepeated (paths : List (List (List Byte))) : Prop :=
  match paths.filterMap List.head? with
  | [] => True
  | first :: rest => first ∉ rest

instance (paths : List (List (List Byte))) : Decidable (Unrepeated paths) := by
  unfold Unrepeated
  split <;> infer_instance

section Reach

variable {heap : Store Node} {root : Nat} {label : Nat → List (List Byte)}

theorem reached_iff (labelled : Labelled heap root label) (segments : List (List Byte))
    (address : Nat) : Reached ⟨heap, some root⟩ segments address ↔
      (∃ node, heap.cell address = some node) ∧ label address = segments := by
  constructor
  · intro reached
    induction reached with
    | root isRoot found =>
        cases isRoot
        exact ⟨⟨_, found⟩, labelled.rootLabel⟩
    | child _ found member childFound induction =>
        rcases labelled.child _ _ found _ member with ⟨child, same, isLabel⟩
        rw [childFound] at same
        cases same
        exact ⟨⟨_, childFound⟩, by rw [isLabel, induction.2]⟩
  · rintro ⟨⟨node, found⟩, rfl⟩
    induction long : (label address).length generalizing address node with
    | zero =>
        by_cases isRoot : address = root
        · subst isRoot
          rw [labelled.rootLabel]
          exact .root rfl found
        · rcases labelled.above found isRoot with ⟨above, parent, _, _, isLabel⟩
          rw [isLabel, List.length_append] at long
          cases long
    | succ length induction =>
        have notRoot : address ≠ root := by
          intro isRoot
          rw [isRoot, labelled.rootLabel] at long
          cases long
        rcases labelled.above found notRoot with ⟨above, parent, parentFound, member, isLabel⟩
        rw [isLabel, List.length_append] at long
        rw [isLabel]
        exact .child (induction above parent parentFound (Nat.succ.inj long)) parentFound member found

end Reach

/-! ## What a sequence of insertions leaves -/

/-- The segments that the paths begin with. -/
def heads (paths : List (List (List Byte))) : List (List Byte) := paths.filterMap List.head?

theorem heads_concat (paths : List (List (List Byte))) (path : List (List Byte)) :
    heads (paths ++ [path]) = heads paths ++ path.head?.toList := by
  cases path with
  | nil => simp [heads]
  | cons segment path => simp [heads]

theorem unrepeated_of_nil {paths : List (List (List Byte))} (none : heads paths = []) :
    Unrepeated paths := by
  rw [heads] at none
  rw [Unrepeated, none]
  trivial

theorem unrepeated_iff {paths : List (List (List Byte))} {first : List Byte}
    {rest : List (List Byte)} (isHeads : heads paths = first :: rest) :
    Unrepeated paths ↔ first ∉ rest := by
  rw [heads] at isHeads
  rw [Unrepeated, isHeads]

theorem ChildAt.unique {heap : Store Node} {address place : Nat} {segment other : List Byte}
    (childAt : ChildAt heap address place segment) (otherAt : ChildAt heap address place other) :
    segment = other := by
  rcases childAt with ⟨node, below, child, found, isBelow, childFound, rfl⟩
  rcases otherAt with ⟨same, otherBelow, otherChild, sameFound, otherIs, otherFound, rfl⟩
  rw [found] at sameFound
  cases sameFound
  rw [isBelow] at otherIs
  cases otherIs
  rw [childFound] at otherFound
  cases otherFound
  rfl

/-- The tree after some paths have been inserted. -/
structure After (heap : Store Node) (root : Nat) (label : Nat → List (List Byte))
    (past : List (List (List Byte))) : Prop where
  labelled : Labelled heap root label
  present : ∀ segments, Present heap label segments ↔
    segments = [] ∨ ∃ path ∈ past, segments <+: path
  empty : heads past = [] → ∀ node, heap.cell root = some node → node.next = []
  begins : ∀ first rest, heads past = first :: rest → ChildAt heap root 0 first
  distinct : Unrepeated past → Distinct heap label
  doubled : ¬ Unrepeated past → ∃ segment place, 1 ≤ place ∧ ChildAt heap root 0 segment ∧
    ChildAt heap root place segment

section Steps

variable {heap after : Store Node} {root : Nat} {label afterLabel : Nat → List (List Byte)}
  {past : List (List (List Byte))} {path : List (List Byte)}

theorem After.present_step (holds : After heap root label past)
    (inserted : Inserted heap root label path after afterLabel) (segments : List (List Byte)) :
    Present after afterLabel segments ↔
      segments = [] ∨ ∃ other ∈ past ++ [path], segments <+: other := by
  rw [inserted.present, holds.present]
  simp only [List.mem_append, List.mem_singleton, or_and_right, exists_or, exists_eq_left, or_assoc]

/-- A path without segments changes nothing. -/
theorem After.step_nil (holds : After heap root label past)
    (inserted : Inserted heap root label [] after afterLabel) :
    After after root afterLabel (past ++ [[]]) := by
  have sameHeads : heads (past ++ [[]]) = heads past := by
    rw [heads_concat]
    exact List.append_nil _
  have sameUnrepeated : Unrepeated (past ++ [[]]) ↔ Unrepeated past := by
    rw [heads, heads] at sameHeads
    rw [Unrepeated, Unrepeated, sameHeads]
  refine ⟨inserted.labelled, holds.present_step inserted, ?_, ?_, ?_, ?_⟩
  · rw [sameHeads, inserted.same rfl]
    exact holds.empty
  · rw [sameHeads, inserted.same rfl]
    exact holds.begins
  · rw [sameUnrepeated]
    exact fun unrepeated => inserted.distinct (holds.distinct unrepeated) nofun
  · rw [sameUnrepeated, inserted.same rfl]
    exact holds.doubled

/-- The first path with a segment. -/
theorem After.step_first (holds : After heap root label past) {segment : List Byte}
    {rest : List (List Byte)}
    (inserted : Inserted heap root label (segment :: rest) after afterLabel)
    (none : heads past = []) : After after root afterLabel (past ++ [segment :: rest]) := by
  have isHeads : heads (past ++ [segment :: rest]) = [segment] := by
    rw [heads_concat, none]
    rfl
  rcases holds.labelled.rootNode with ⟨node, found⟩
  have empty := holds.empty none node found
  have unrepeated : Unrepeated (past ++ [segment :: rest]) := by
    rw [unrepeated_iff isHeads]
    exact List.not_mem_nil
  refine ⟨inserted.labelled, holds.present_step inserted, ?_, ?_, ?_, ?_⟩
  · rw [isHeads]
    exact nofun
  · intro first others same
    rw [isHeads] at same
    cases same
    rcases inserted.begins segment rfl node found with ⟨place, isFirst, _, childAt⟩
    rw [isFirst empty] at childAt
    exact childAt
  · intro _
    apply inserted.distinct (holds.distinct (unrepeated_of_nil none))
    rintro other _ ⟨same, below, child, sameFound, isBelow, _⟩
    rw [found] at sameFound
    cases sameFound
    rw [empty] at isBelow
    cases isBelow
  · exact fun repeated => absurd unrepeated repeated

/-- A later path with a segment. -/
theorem After.step_later (holds : After heap root label past) {segment first : List Byte}
    {rest others : List (List Byte)}
    (inserted : Inserted heap root label (segment :: rest) after afterLabel)
    (isFirst : heads past = first :: others) :
    After after root afterLabel (past ++ [segment :: rest]) := by
  have isHeads : heads (past ++ [segment :: rest]) = first :: (others ++ [segment]) := by
    rw [heads_concat, isFirst]
    rfl
  have unrepeated := unrepeated_iff isHeads
  rw [List.mem_append, List.mem_singleton, not_or] at unrepeated
  have firstAt := holds.begins first others isFirst
  refine ⟨inserted.labelled, holds.present_step inserted, ?_, ?_, ?_, ?_⟩
  · rw [isHeads]
    exact nofun
  · intro same more isSame
    rw [isHeads] at isSame
    cases isSame
    exact inserted.keeps.childAt firstAt
  · intro kept
    rcases unrepeated.mp kept with ⟨notBefore, notNow⟩
    apply inserted.distinct (holds.distinct ((unrepeated_iff isFirst).mpr notBefore))
    intro other isSegment otherAt
    cases isSegment
    exact notNow (firstAt.unique otherAt)
  · intro repeated
    by_cases before : first ∈ others
    · have notBefore : ¬ Unrepeated past := fun kept => (unrepeated_iff isFirst).mp kept before
      rcases holds.doubled notBefore with ⟨same, place, notZero, zeroAt, placeAt⟩
      exact ⟨same, place, notZero, inserted.keeps.childAt zeroAt, inserted.keeps.childAt placeAt⟩
    · have now : first = segment := by
        apply Classical.byContradiction
        intro notNow
        exact repeated (unrepeated.mpr ⟨before, notNow⟩)
      rcases holds.labelled.rootNode with ⟨node, found⟩
      rcases inserted.begins segment rfl node found with ⟨place, _, notZero, placeAt⟩
      have some : node.next ≠ [] := by
        rcases firstAt with ⟨same, below, child, sameFound, isBelow, _⟩
        rw [found] at sameFound
        cases sameFound
        intro none
        rw [none] at isBelow
        cases isBelow
      refine ⟨segment, place, notZero some, ?_, placeAt⟩
      rw [← now]
      exact inserted.keeps.childAt firstAt

theorem After.step (holds : After heap root label past)
    (inserted : Inserted heap root label path after afterLabel) :
    After after root afterLabel (past ++ [path]) := by
  cases path with
  | nil => exact holds.step_nil inserted
  | cons segment rest =>
      cases isHeads : heads past with
      | nil => exact holds.step_first inserted isHeads
      | cons first others => exact holds.step_later inserted isHeads

end Steps

theorem run_after {root : Nat} (urls : List (List Byte)) (past : List (List (List Byte)))
    (heap : Store Node) (label : Nat → List (List Byte)) (holds : After heap root label past) :
    ∃ bound after afterLabel,
      (∀ fuel, bound ≤ fuel →
        runAll (insertUrl fuel) ⟨heap, some root⟩ urls = .ok ⟨after, some root⟩) ∧
      After after root afterLabel (past ++ urls.map parsingPath) := by
  induction urls generalizing past heap label with
  | nil =>
      refine ⟨0, heap, label, fun _ _ => rfl, ?_⟩
      rw [List.map_nil, List.append_nil]
      exact holds
  | cons url urls induction =>
      rcases insertUrl_spec holds.labelled url with ⟨bound, middle, middleLabel, run, inserted⟩
      rcases induction (past ++ [parsingPath url]) middle middleLabel (holds.step inserted) with
        ⟨others, after, afterLabel, rest, result⟩
      rw [List.append_assoc] at result
      refine ⟨bound + others, after, afterLabel, fun fuel enough => ?_, result⟩
      rw [runAll, run fuel (by omega), Outcome.ok_bind]
      exact rest fuel (by omega)

/-- The heap with a root only. -/
def rootHeap : Store Node := Store.empty.alloc (.new (ascii "www.kujiale.com"))

theorem rootHeap_after : After rootHeap 0 (fun _ => []) [] := by
  have only : ∀ address node, rootHeap.cell address = some node →
      address = 0 ∧ node = .new (ascii "www.kujiale.com") := by
    intro address node found
    by_cases isRoot : address = 0
    · subst isRoot
      exact ⟨rfl, (Option.some.inj found).symm⟩
    · simp [rootHeap, Store.alloc, Store.empty, isRoot] at found
  refine ⟨⟨⟨_, rfl⟩, rfl, ?_, ?_, ?_⟩, ?_, ?_, fun _ _ equal => (by cases equal), ?_, ?_⟩
  · intro address node found below member
    rw [(only address node found).2] at member
    cases member
  · exact fun address node found => Or.inl (only address node found).1
  · intro address node found
    rw [(only address node found).2]
    exact List.nodup_nil
  · intro segments
    constructor
    · rintro ⟨_, _, _, rfl⟩
      exact Or.inl rfl
    · rintro (rfl | ⟨path, member, _⟩)
      · exact ⟨0, _, rfl, rfl⟩
      · cases member
  · intro _ node found
    rw [(only 0 node found).2]
    rfl
  · intro _ address node other otherNode found otherFound _
    rw [(only address node found).1, (only other otherNode otherFound).1]
  · exact fun repeated => absurd (unrepeated_of_nil rfl) repeated

/-- With a root, the tree is a trie exactly when no path repeats the segment that the first one
begins with. -/
theorem After.isTrieOf_iff {heap : Store Node} {root : Nat} {label : Nat → List (List Byte)}
    {past : List (List (List Byte))} (holds : After heap root label past) (nonempty : past ≠ []) :
    IsTrieOf ⟨heap, some root⟩ past ↔ Unrepeated past := by
  constructor
  · intro isTrie
    apply Classical.byContradiction
    intro repeated
    rcases holds.doubled repeated with ⟨segment, place, notZero, zeroAt, placeAt⟩
    rcases zeroAt with ⟨node, below, child, found, isBelow, childFound, rfl⟩
    rcases placeAt with ⟨same, other, otherChild, sameFound, otherIs, otherFound, sameFile⟩
    rw [found] at sameFound
    cases sameFound
    have nodup := isTrie.different [] root node (.root rfl found) found
    have first : (node.next.map fun below => (heap.cell below).map Node.file)[0]? =
        some (some child.file) := by
      rw [List.getElem?_map, isBelow, Option.map_some, childFound]
      rfl
    have second : (node.next.map fun below => (heap.cell below).map Node.file)[place]? =
        some (some child.file) := by
      rw [List.getElem?_map, otherIs, Option.map_some, otherFound, ← sameFile]
      rfl
    have within := (List.getElem?_eq_some_iff.mp first).1
    have isZero := (List.getElem?_inj within nodup).mp (first.trans second.symm)
    omega
  · intro unrepeated
    constructor
    · intro segments address node reached found
      exact holds.labelled.nodup_files (holds.distinct unrepeated) found
    · intro segments
      simp only [reached_iff holds.labelled]
      have present := holds.present segments
      constructor
      · rintro ⟨address, ⟨node, found⟩, isLabel⟩
        rcases present.mp ⟨address, node, found, isLabel⟩ with rfl | begins
        · rcases List.exists_mem_of_ne_nil past nonempty with ⟨path, member⟩
          exact ⟨path, member, List.nil_prefix⟩
        · exact begins
      · intro begins
        rcases present.mpr (Or.inr begins) with ⟨address, node, found, isLabel⟩
        exact ⟨address, ⟨node, found⟩, isLabel⟩

/-! ## Looking for a URL -/

/-- `FindUrl` says whether the path of a URL is the beginning of one of the paths, and leaves
the tree as it is. -/
def Answers (tree : DictionaryTree) (paths : List (List (List Byte))) (url : List Byte) : Prop :=
  ∃ fuel answer, findUrl fuel tree url = .ok (tree, answer) ∧
    (answer = true ↔ ∃ path ∈ paths, parsingPath url <+: path)

/-- Looking for a URL in an empty tree makes a root. -/
theorem not_answers_empty (paths : List (List (List Byte))) (url : List Byte) :
    ¬ Answers empty paths url := by
  rintro ⟨fuel, answer, found, _⟩
  rcases Outcome.bind_eq_ok found with ⟨search, _, result⟩
  simp only [Bool.not_false, if_true] at result
  split at result
  · exact nomatch congrArg DictionaryTree.root (congrArg Prod.fst (Except.ok.inj result))
  · exact nomatch congrArg DictionaryTree.root (congrArg Prod.fst (Except.ok.inj result))

end DataStructAlgorithm.Algorithm.Trie
