import DataStructAlgorithm.Algorithm.Trie.DictionaryTree
import Mathlib.Data.List.Nodup

/-! # Nodes and the segments that lead to them

A label of a node is the list of segments on the way from the root to it. Adding a child to a
node adds the label of the child and changes no other label. -/

namespace DataStructAlgorithm.Algorithm.Trie

open Foundation

structure Labelled (heap : Store Node) (root : Nat) (label : Nat → List (List Byte)) : Prop where
  rootNode : ∃ node, heap.cell root = some node
  rootLabel : label root = []
  child : ∀ address node, heap.cell address = some node → ∀ below ∈ node.next,
    ∃ child, heap.cell below = some child ∧ label below = label address ++ [child.file]
  parent : ∀ address node, heap.cell address = some node → address = root ∨
    ∃ above parent, heap.cell above = some parent ∧ address ∈ parent.next
  nodup : ∀ address node, heap.cell address = some node → node.next.Nodup

/-- Some node has the label. -/
def Present (heap : Store Node) (label : Nat → List (List Byte)) (segments : List (List Byte)) :
    Prop :=
  ∃ address node, heap.cell address = some node ∧ label address = segments

/-- No two nodes have one label. -/
def Distinct (heap : Store Node) (label : Nat → List (List Byte)) : Prop :=
  ∀ address node other otherNode, heap.cell address = some node →
    heap.cell other = some otherNode → label address = label other → address = other

/-- A node has no child with the segment. -/
def Missing (heap : Store Node) (address : Nat) (segment : List Byte) : Prop :=
  ∀ node, heap.cell address = some node → ∀ below ∈ node.next,
    ∀ child, heap.cell below = some child → child.file ≠ segment

namespace Labelled

variable {heap : Store Node} {root : Nat} {label : Nat → List (List Byte)}

theorem length_next_le (labelled : Labelled heap root label) {address : Nat} {node : Node}
    (found : heap.cell address = some node) : node.next.length ≤ heap.next := by
  have inRange : node.next ⊆ List.range heap.next := by
    intro below member
    rcases labelled.child address node found below member with ⟨child, childFound, _⟩
    exact List.mem_range.mpr (Store.lt_next childFound)
  have short := (labelled.nodup address node found).length_le_of_subset inRange
  rwa [List.length_range] at short

/-- A node that is not the root is a child of one whose label is shorter by a segment. -/
theorem above (labelled : Labelled heap root label) {address : Nat} {node : Node}
    (found : heap.cell address = some node) (notRoot : address ≠ root) :
    ∃ above parent, heap.cell above = some parent ∧ address ∈ parent.next ∧
      label address = label above ++ [node.file] := by
  rcases labelled.parent address node found with isRoot | ⟨above, parent, parentFound, member⟩
  · exact absurd isRoot notRoot
  · rcases labelled.child above parent parentFound address member with ⟨child, same, isLabel⟩
    rw [found] at same
    cases same
    exact ⟨above, parent, parentFound, member, isLabel⟩

/-- Whatever a label begins with is a label. -/
theorem present_of_prefix (labelled : Labelled heap root label) {segments : List (List Byte)}
    {address : Nat} {node : Node} (found : heap.cell address = some node)
    (begins : segments <+: label address) : Present heap label segments := by
  induction long : (label address).length generalizing address node with
  | zero =>
      have empty := List.eq_nil_of_length_eq_zero long
      rw [empty, List.prefix_nil] at begins
      exact ⟨address, node, found, by rw [empty, begins]⟩
  | succ length induction =>
      have notRoot : address ≠ root := by
        intro isRoot
        rw [isRoot, labelled.rootLabel] at long
        cases long
      rcases labelled.above found notRoot with ⟨above, parent, parentFound, _, isLabel⟩
      rw [isLabel, List.prefix_concat_iff] at begins
      rcases begins with whole | shorter
      · exact ⟨address, node, found, isLabel.trans whole.symm⟩
      · rw [isLabel, List.length_append] at long
        exact induction parentFound shorter (Nat.succ.inj long)

/-- In a tree without two nodes of one label, the children of a node have different segments. -/
theorem nodup_files (labelled : Labelled heap root label) (distinct : Distinct heap label)
    {address : Nat} {node : Node} (found : heap.cell address = some node) :
    (node.next.map fun below => (heap.cell below).map Node.file).Nodup := by
  apply List.Nodup.map_on _ (labelled.nodup address node found)
  intro below member other otherMember same
  rcases labelled.child address node found below member with ⟨child, childFound, isLabel⟩
  rcases labelled.child address node found other otherMember with
    ⟨otherChild, otherFound, otherLabel⟩
  rw [childFound, otherFound] at same
  have sameFile : child.file = otherChild.file := Option.some.inj same
  exact distinct below child other otherChild childFound otherFound
    (by rw [isLabel, otherLabel, sameFile])

end Labelled

/-! ## A new child -/

/-- The heap after a node with a segment has been made a child of another node. -/
def attach (heap : Store Node) (address : Nat) (segment : List Byte) : Store Node :=
  (heap.alloc (.new segment)).modify address fun node =>
    { node with next := node.next ++ [heap.next] }

def attachLabel (heap : Store Node) (label : Nat → List (List Byte)) (address : Nat)
    (segment : List Byte) : Nat → List (List Byte) :=
  fun other => if other = heap.next then label address ++ [segment] else label other

section Attach

variable {heap : Store Node} {root : Nat} {label : Nat → List (List Byte)} {address : Nat}
  {node : Node} (segment : List Byte)

theorem cell_attach_new (found : heap.cell address = some node) :
    (attach heap address segment).cell heap.next = some (.new segment) := by
  have different : heap.next ≠ address := Nat.ne_of_gt (Store.lt_next found)
  rw [attach, Store.cell_modify_of_ne _ _ different, Store.cell_alloc_next]

theorem cell_attach_same (found : heap.cell address = some node) :
    (attach heap address segment).cell address =
      some { node with next := node.next ++ [heap.next] } := by
  rw [attach, Store.cell_modify_same, Store.cell_alloc_of_lt _ _ (Store.lt_next found), found]
  rfl

theorem cell_attach_other {other : Nat} (notNew : other ≠ heap.next) (notSame : other ≠ address) :
    (attach heap address segment).cell other = heap.cell other := by
  rw [attach, Store.cell_modify_of_ne _ _ notSame]
  simp [Store.alloc, notNew]

/-- A node after the child has been added: it is the new one or has been there before. -/
theorem attach_cases (found : heap.cell address = some node) {other : Nat} {after : Node}
    (otherFound : (attach heap address segment).cell other = some after) :
    other = heap.next ∧ after = .new segment ∨ other ≠ heap.next ∧ ∃ before,
      heap.cell other = some before ∧ after.file = before.file ∧
        after.next = before.next ++ if other = address then [heap.next] else [] := by
  by_cases isNew : other = heap.next
  · subst isNew
    rw [cell_attach_new segment found] at otherFound
    cases otherFound
    exact Or.inl ⟨rfl, rfl⟩
  · refine Or.inr ⟨isNew, ?_⟩
    by_cases isSame : other = address
    · subst isSame
      rw [cell_attach_same segment found] at otherFound
      cases otherFound
      exact ⟨node, found, rfl, by rw [if_pos rfl]⟩
    · rw [cell_attach_other segment isNew isSame] at otherFound
      exact ⟨after, otherFound, rfl, by rw [if_neg isSame, List.append_nil]⟩

/-- Every node stays, with its segment and the children it has had. -/
theorem attach_keeps (found : heap.cell address = some node) {other : Nat} {before : Node}
    (otherFound : heap.cell other = some before) :
    (attach heap address segment).cell other = some ⟨before.file,
      before.next ++ if other = address then [heap.next] else []⟩ := by
  have notNew : other ≠ heap.next := Nat.ne_of_lt (Store.lt_next otherFound)
  by_cases isSame : other = address
  · subst isSame
    rw [found] at otherFound
    cases otherFound
    rw [cell_attach_same segment found, if_pos rfl]
  · rw [cell_attach_other segment notNew isSame, otherFound, if_neg isSame, List.append_nil]

theorem attachLabel_new : attachLabel heap label address segment heap.next =
    label address ++ [segment] :=
  if_pos rfl

theorem attachLabel_old {other : Nat} {before : Node} (found : heap.cell other = some before) :
    attachLabel heap label address segment other = label other :=
  if_neg (Nat.ne_of_lt (Store.lt_next found))

theorem Labelled.attach (labelled : Labelled heap root label)
    (found : heap.cell address = some node) :
    Labelled (attach heap address segment) root (attachLabel heap label address segment) where
  rootNode := by
    rcases labelled.rootNode with ⟨rootNode, rootFound⟩
    exact ⟨_, attach_keeps segment found rootFound⟩
  rootLabel := by
    rcases labelled.rootNode with ⟨rootNode, rootFound⟩
    rw [attachLabel_old segment rootFound, labelled.rootLabel]
  child := by
    intro other after otherFound below member
    rcases attach_cases segment found otherFound with ⟨_, rfl⟩ | ⟨_, before, beforeFound, _, isNext⟩
    · cases member
    · rw [isNext, List.mem_append] at member
      rcases member with old | isNew
      · rcases labelled.child other before beforeFound below old with ⟨child, childFound, isLabel⟩
        refine ⟨_, attach_keeps segment found childFound, ?_⟩
        rw [attachLabel_old segment childFound, attachLabel_old segment beforeFound, isLabel]
      · by_cases isSame : other = address
        · rw [if_pos isSame, List.mem_singleton] at isNew
          refine ⟨.new segment, by rw [isNew, cell_attach_new segment found], ?_⟩
          rw [isNew, attachLabel_new, isSame, attachLabel_old segment found]
          rfl
        · rw [if_neg isSame] at isNew
          cases isNew
  parent := by
    intro other after otherFound
    rcases attach_cases segment found otherFound with ⟨rfl, _⟩ | ⟨_, before, beforeFound, _⟩
    · refine Or.inr ⟨address, _, cell_attach_same segment found, ?_⟩
      exact List.mem_append_right _ (List.mem_singleton.mpr rfl)
    · rcases labelled.parent other before beforeFound with isRoot | ⟨above, parent, aboveFound, member⟩
      · exact Or.inl isRoot
      · exact Or.inr ⟨above, _, attach_keeps segment found aboveFound,
          List.mem_append_left _ member⟩
  nodup := by
    intro other after otherFound
    rcases attach_cases segment found otherFound with ⟨_, rfl⟩ | ⟨_, before, beforeFound, _, isNext⟩
    · exact List.nodup_nil
    · have old := labelled.nodup other before beforeFound
      have notIn : heap.next ∉ before.next := by
        intro member
        rcases labelled.child other before beforeFound heap.next member with ⟨child, childFound, _⟩
        exact Nat.lt_irrefl _ (Store.lt_next childFound)
      rw [isNext]
      by_cases isSame : other = address
      · rw [if_pos isSame]
        exact List.nodup_append.mpr ⟨old, List.nodup_singleton _,
          fun below member other isNew same =>
            notIn (List.mem_singleton.mp isNew ▸ same ▸ member)⟩
      · rw [if_neg isSame, List.append_nil]
        exact old

theorem present_attach (found : heap.cell address = some node) (segments : List (List Byte)) :
    Present (Trie.attach heap address segment) (attachLabel heap label address segment) segments ↔
      Present heap label segments ∨ segments = label address ++ [segment] := by
  constructor
  · rintro ⟨other, after, otherFound, isLabel⟩
    rcases attach_cases segment found otherFound with ⟨rfl, _⟩ | ⟨_, before, beforeFound, _⟩
    · rw [attachLabel_new] at isLabel
      exact Or.inr isLabel.symm
    · rw [attachLabel_old segment beforeFound] at isLabel
      exact Or.inl ⟨other, before, beforeFound, isLabel⟩
  · rintro (⟨other, before, beforeFound, isLabel⟩ | rfl)
    · exact ⟨other, _, attach_keeps segment found beforeFound,
        (attachLabel_old segment beforeFound).trans isLabel⟩
    · exact ⟨heap.next, _, cell_attach_new segment found, attachLabel_new segment⟩

/-- A child with a new segment has a label of its own. -/
theorem Distinct.attach (distinct : Distinct heap label) (labelled : Labelled heap root label)
    (found : heap.cell address = some node) (missing : Missing heap address segment) :
    Distinct (attach heap address segment) (attachLabel heap label address segment) := by
  have unused : ∀ other before, heap.cell other = some before →
      label other ≠ label address ++ [segment] := by
    intro other before otherFound same
    have notRoot : other ≠ root := by
      intro isRoot
      rw [isRoot, labelled.rootLabel] at same
      exact List.append_ne_nil_of_right_ne_nil _ (List.cons_ne_nil _ _) same.symm
    rcases labelled.above otherFound notRoot with ⟨above, parent, aboveFound, member, isLabel⟩
    rw [isLabel] at same
    have parts := List.append_inj' same rfl
    have isAbove := distinct above parent address node aboveFound found parts.1
    subst isAbove
    exact missing parent aboveFound other member before otherFound (List.cons.inj parts.2).1
  intro first firstNode second secondNode firstFound secondFound same
  rcases attach_cases segment found firstFound with ⟨rfl, _⟩ | ⟨_, firstBefore, firstOld, _⟩
  · rcases attach_cases segment found secondFound with ⟨rfl, _⟩ | ⟨_, before, old, _⟩
    · rfl
    · rw [attachLabel_new, attachLabel_old segment old] at same
      exact absurd same.symm (unused second before old)
  · rcases attach_cases segment found secondFound with ⟨rfl, _⟩ | ⟨_, before, old, _⟩
    · rw [attachLabel_new, attachLabel_old segment firstOld] at same
      exact absurd same (unused first firstBefore firstOld)
    · rw [attachLabel_old segment firstOld, attachLabel_old segment old] at same
      exact distinct first firstBefore second before firstOld old same

end Attach

end DataStructAlgorithm.Algorithm.Trie
