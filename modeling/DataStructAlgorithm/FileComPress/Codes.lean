import DataStructAlgorithm.FileComPress.Tables

/-! # The codes of a tree

The code of a leaf is the path to it. The walk over the tree with a stack gives every node
its code, and enters the codes of the leaves in the table. -/

namespace DataStructAlgorithm.FileComPress.FileCompress

open Foundation

def stepDown (digit : Char) (item : Byte × List Char) : Byte × List Char :=
  (item.1, digit :: item.2)

/-- The bytes of the leaves, each with the path to it. -/
def codes : AddrTree FileInformation → List (Byte × List Char)
  | .nil => []
  | .node .nil _ data .nil => [(data.ch, [])]
  | .node left _ _ right => (codes left).map (stepDown '0') ++ (codes right).map (stepDown '1')

theorem codes_inner {left right : AddrTree FileInformation}
    (inner : ¬(left.pointer = none ∧ right.pointer = none)) (address : Nat)
    (data : FileInformation) :
    codes (.node left address data right) =
      (codes left).map (stepDown '0') ++ (codes right).map (stepDown '1') := by
  rw [codes]
  intro leftNil rightNil
  exact inner ⟨congrArg AddrTree.pointer leftNil, congrArg AddrTree.pointer rightNil⟩

/-! ## The codes in the nodes -/

/-- No node has a code yet. -/
def Uncoded : AddrTree FileInformation → Prop
  | .nil => True
  | .node left _ data right => data.huffmanCode = [] ∧ Uncoded left ∧ Uncoded right

/-- The tree after its root has got a code. -/
def withCode (path : List Char) : AddrTree FileInformation → AddrTree FileInformation
  | .nil => .nil
  | .node left address data right => .node left address { data with huffmanCode := path } right

theorem withCode_nil {tree : AddrTree FileInformation} (uncoded : Uncoded tree) :
    withCode [] tree = tree := by
  cases tree with
  | nil => rfl
  | node left address data right => rw [withCode, ← uncoded.1]

/-- The parent's code and a digit are appended to the code of a child. -/
theorem extendChild_spec {nodes : Store (HuffmanNode FileInformation)} {parent : Nat}
    {node : HuffmanNode FileInformation} {child : AddrTree FileInformation}
    (found : nodes.cell parent = some node) (linked : Linked nodes (some parent) child)
    (uncoded : Uncoded child) (nodup : child.addresses.Nodup) (digit : Char) :
    ∃ after, extendChild nodes child.pointer digit = .ok after ∧
      Linked after (some parent) (withCode (node.data.huffmanCode ++ [digit]) child) ∧
      ∀ address, address ∉ child.addresses → after.cell address = nodes.cell address := by
  cases child with
  | nil => exact ⟨nodes, rfl, trivial, fun _ _ => rfl⟩
  | node left address data right =>
      rcases linked with ⟨here, leftLinked, rightLinked⟩
      simp only [AddrTree.addresses, List.nodup_append, List.nodup_cons, List.mem_cons] at nodup
      refine ⟨nodes.modify address (.updateData fun info =>
        { info with huffmanCode := info.huffmanCode ++ node.data.huffmanCode ++ [digit] }), ?_,
        ⟨?_, ?_, ?_⟩, ?_⟩
      · simp only [AddrTree.pointer_node, extendChild, extendCode, Store.load_some here,
          Store.load_some found, Outcome.ok_bind]
        exact Store.assign_some _ here
      · rw [Store.cell_modify_same, here, Option.map_some]
        simp only [TreeNode.updateData, uncoded.1, List.nil_append]
      · exact leftLinked.modify_of_not_mem _ fun member =>
          nodup.2.2 _ member _ (Or.inl rfl) rfl
      · exact rightLinked.modify_of_not_mem _ nodup.2.1.1
      · intro other outside
        apply Store.cell_modify_of_ne
        intro same
        apply outside
        rw [same]
        exact AddrTree.mem_addresses_of_pointer rfl

/-! ## One pass of the walk -/

theorem descendPass_some {nodes after : Store (HuffmanNode FileInformation)} {address : Nat}
    {node : HuffmanNode FileInformation} (found : nodes.cell address = some node)
    (extended : extendChild nodes node.left '0' = .ok after) (stack : List Nat) :
    descendPass (some address, stack, nodes) = .ok (.again (node.left, address :: stack, after)) := by
  simp only [descendPass, Store.load_some found, Outcome.ok_bind, extended]
  rfl

/-- The inner loop ends. -/
theorem descend_ends {nodes : Store (HuffmanNode FileInformation)} {parent : Ptr}
    {path : List Char} {tree : AddrTree FileInformation}
    (linked : Linked nodes parent (withCode path tree)) (uncoded : Uncoded tree)
    (nodup : tree.addresses.Nodup) (stack : List Nat) (fuel : Nat) (enough : tree.height < fuel) :
    ∃ result, repeatLoop descendPass fuel (tree.pointer, stack, nodes) = .ok result := by
  induction tree generalizing nodes parent path stack fuel with
  | nil =>
      rcases fuel with _ | fuel
      · omega
      exact ⟨(stack, nodes), repeatLoop_leave fuel rfl⟩
  | node left address data right leftInduction =>
      rcases fuel with _ | fuel
      · omega
      rcases linked with ⟨found, leftLinked, _⟩
      simp only [AddrTree.addresses, List.nodup_append] at nodup
      simp only [AddrTree.height] at enough
      rcases extendChild_spec found leftLinked uncoded.2.1 nodup.1 '0' with
        ⟨after, extended, coded, _⟩
      rw [AddrTree.pointer_node, repeatLoop_again fuel (descendPass_some found extended stack)]
      exact leftInduction coded uncoded.2.1 nodup.1 (address :: stack) fuel (by omega)

/-- The pass does the same when the first step down has been made. -/
theorem conversionPass_descend {nodes after : Store (HuffmanNode FileInformation)} {address : Nat}
    {node : HuffmanNode FileInformation} (found : nodes.cell address = some node)
    (extended : extendChild nodes node.left '0' = .ok after) (stack : List Nat) {fuel : Nat}
    (ends : ∃ result, repeatLoop descendPass fuel (node.left, address :: stack, after) =
      .ok result) (table : List FileInformation) :
    conversionPass (fuel + 1) ⟨some address, stack, nodes, table⟩ =
      conversionPass (fuel + 1) ⟨node.left, address :: stack, after, table⟩ := by
  rcases ends with ⟨result, ran⟩
  have started : repeatLoop descendPass (fuel + 1) (some address, stack, nodes) = .ok result := by
    rw [repeatLoop_again fuel (descendPass_some found extended stack)]
    exact ran
  have later := repeatLoop_mono ran (Nat.le_add_right fuel 1)
  simp only [conversionPass, Option.isNone_some, Bool.false_and, List.isEmpty_cons, Bool.and_false,
    Bool.false_eq_true, if_false, started, later]

theorem recordCode_spec (entries : Byte → FileInformation) (wt : FileInformation) :
    recordCode (tableOf entries) wt = .ok (tableOf (Function.update entries wt.ch
      { entries wt.ch with huffmanCode := wt.huffmanCode })) := by
  simp only [recordCode, readAt_tableOf, writeAt_tableOf, Outcome.ok_bind]

/-- The pass takes a node from the stack when there is nothing to go down to. -/
theorem conversionPass_pop {nodes after : Store (HuffmanNode FileInformation)} {front : Nat}
    {node : HuffmanNode FileInformation} (found : nodes.cell front = some node)
    (extended : extendChild nodes node.right '1' = .ok after) (stack : List Nat) (fuel : Nat)
    (entries : Byte → FileInformation) :
    conversionPass (fuel + 1) ⟨none, front :: stack, nodes, tableOf entries⟩ =
      .ok (.again ⟨node.right, stack, after, tableOf (
        if node.left = none ∧ node.right = none then Function.update entries node.data.ch
          { entries node.data.ch with huffmanCode := node.data.huffmanCode } else entries)⟩) := by
  have ended : repeatLoop descendPass (fuel + 1) (none, front :: stack, nodes) =
      .ok (front :: stack, nodes) := repeatLoop_leave fuel rfl
  simp only [conversionPass, Option.isNone_none, Bool.true_and, List.isEmpty_cons,
    Bool.false_eq_true, if_false, ended, Outcome.ok_bind, Store.load_some found]
  by_cases leaf : node.left = none ∧ node.right = none
  · simp only [if_pos leaf, recordCode_spec, Outcome.ok_bind, extended]
    rfl
  · simp only [if_neg leaf, Outcome.pure_bind', extended, Outcome.ok_bind]
    rfl

/-! ## The walk over a tree -/

def setCode (item : Byte × List Char) (entry : FileInformation) : FileInformation :=
  { entry with huffmanCode := item.2 }

/-- The table after the codes of a tree, whose root has a code, have been entered. -/
def recorded (entries : Byte → FileInformation) (path : List Char)
    (tree : AddrTree FileInformation) : Byte → FileInformation :=
  changeAll Prod.fst setCode entries ((codes tree).map fun item => (item.1, path ++ item.2))

/-- The codes of the left subtree are entered first, and then those of the right one. -/
theorem recorded_node (entries : Byte → FileInformation) (path : List Char)
    (left : AddrTree FileInformation) (address : Nat) (data : FileInformation)
    (right : AddrTree FileInformation) :
    recorded entries path (.node left address data right) =
      recorded (if left.pointer = none ∧ right.pointer = none then
        Function.update (recorded entries (path ++ ['0']) left) data.ch
          { recorded entries (path ++ ['0']) left data.ch with huffmanCode := path }
        else recorded entries (path ++ ['0']) left) (path ++ ['1']) right := by
  by_cases leaf : left.pointer = none ∧ right.pointer = none
  · rw [if_pos leaf]
    cases AddrTree.eq_nil_of_pointer leaf.1
    cases AddrTree.eq_nil_of_pointer leaf.2
    rw [recorded, codes, List.map_singleton, List.append_nil]
    rfl
  · rw [if_neg leaf, recorded, codes_inner leaf, List.map_append, changeAll_append, List.map_map,
      List.map_map]
    simp only [recorded, Function.comp_def, stepDown, List.append_assoc, List.singleton_append]

theorem walk_spec (tree : AddrTree FileInformation) (uncoded : Uncoded tree)
    (nodup : tree.addresses.Nodup) {nodes : Store (HuffmanNode FileInformation)} {parent : Ptr}
    {path : List Char} (linked : Linked nodes parent (withCode path tree)) {inner : Nat}
    (deep : tree.height < inner) (stack : List Nat) (entries : Byte → FileInformation) :
    ∃ after, (∀ address, address ∉ tree.addresses → after.cell address = nodes.cell address) ∧
      ∀ count, repeatLoop (conversionPass inner) (count + tree.addresses.length)
          ⟨tree.pointer, stack, nodes, tableOf entries⟩ =
        repeatLoop (conversionPass inner) count
          ⟨none, stack, after, tableOf (recorded entries path tree)⟩ := by
  induction tree generalizing nodes parent path stack entries with
  | nil => exact ⟨nodes, fun _ _ => rfl, fun _ => rfl⟩
  | node left address data right leftInduction rightInduction =>
      rcases linked with ⟨found, leftLinked, rightLinked⟩
      rcases uncoded with ⟨_, leftUncoded, rightUncoded⟩
      simp only [AddrTree.height] at deep
      rcases inner with _ | inner
      · omega
      have parts := nodup
      simp only [AddrTree.addresses, List.nodup_append, List.nodup_cons, List.mem_cons] at parts
      rcases parts with ⟨leftNodup, ⟨notRight, rightNodup⟩, apart⟩
      have notLeft : address ∉ left.addresses := fun member => apart _ member _ (Or.inl rfl) rfl
      have disjoint : ∀ other ∈ right.addresses, other ∉ left.addresses :=
        fun other inRight inLeft => apart _ inLeft _ (Or.inr inRight) rfl
      -- The left child gets its code, and its subtree is walked.
      rcases extendChild_spec found leftLinked leftUncoded leftNodup '0' with
        ⟨second, extended, leftCoded, secondSame⟩
      have ends := descend_ends leftCoded leftUncoded leftNodup (address :: stack) inner (by omega)
      rcases leftInduction leftUncoded leftNodup leftCoded (by omega) (address :: stack) entries with
        ⟨third, thirdSame, leftWalk⟩
      have foundThird : third.cell address =
          some ⟨{ data with huffmanCode := path }, left.pointer, right.pointer, parent⟩ := by
        rw [thirdSame address notLeft, secondSame address notLeft]
        exact found
      have rightThird : Linked third (some address) right := by
        apply rightLinked.congr
        intro other member
        rw [thirdSame other (disjoint other member), secondSame other (disjoint other member)]
      -- The node itself is taken from the stack, and the right subtree is walked.
      rcases extendChild_spec foundThird rightThird rightUncoded rightNodup '1' with
        ⟨fourth, rightExtended, rightCoded, fourthSame⟩
      rcases rightInduction rightUncoded rightNodup rightCoded (by omega) stack
        (if left.pointer = none ∧ right.pointer = none then
          Function.update (recorded entries (path ++ ['0']) left) data.ch
            { recorded entries (path ++ ['0']) left data.ch with huffmanCode := path }
          else recorded entries (path ++ ['0']) left) with ⟨after, afterSame, rightWalk⟩
      refine ⟨after, ?_, ?_⟩
      · intro other outside
        simp only [AddrTree.addresses, List.mem_append, List.mem_cons, not_or] at outside
        rw [afterSame other outside.2.2, fourthSame other outside.2.2, thirdSame other outside.1,
          secondSame other outside.1]
      · intro count
        have split : count + (AddrTree.node left address data right).addresses.length =
            count + right.addresses.length + 1 + left.addresses.length := by
          simp only [AddrTree.addresses, List.length_append, List.length_cons]
          omega
        have popped := conversionPass_pop foundThird rightExtended stack inner
          (recorded entries (path ++ ['0']) left)
        rw [split, AddrTree.pointer_node, recorded_node, ← rightWalk count,
          ← repeatLoop_again _ popped, ← leftWalk]
        have same := conversionPass_descend found extended stack ends (tableOf entries)
        rw [Nat.add_right_comm _ 1, repeatLoop, repeatLoop, same]

theorem conversion_spec {tree : HuffmanTree FileInformation} {shown : AddrTree FileInformation}
    (represents : Represents tree.heap tree.root shown) (uncoded : Uncoded shown)
    (nonempty : tree.root ≠ none) (entries : Byte → FileInformation) (fuel : Nat)
    (enough : shown.addresses.length < fuel) :
    conversion fuel tree (tableOf entries) = .ok (tableOf (recorded entries [] shown)) := by
  have low : shown.height < fuel := shown.height_le_addresses.trans_lt enough
  have linked : Linked tree.heap none (withCode [] shown) := by
    rw [withCode_nil uncoded]
    exact represents.linked
  rcases walk_spec shown uncoded represents.nodup linked low [] entries with ⟨after, _, walk⟩
  have split : ∃ count, fuel = count + 1 + shown.addresses.length :=
    ⟨fuel - 1 - shown.addresses.length, by omega⟩
  rcases split with ⟨count, sum⟩
  have ended : conversionPass fuel ⟨none, [], after, tableOf (recorded entries [] shown)⟩ =
      .ok (.leave (tableOf (recorded entries [] shown))) := rfl
  have ran := walk (count + 1)
  rw [← sum, repeatLoop_leave count ended, ← represents.root_eq] at ran
  cases isRoot : tree.root with
  | none => exact absurd isRoot nonempty
  | some root =>
      rw [isRoot] at ran
      simp only [conversion, isRoot]
      exact ran

end DataStructAlgorithm.FileComPress.FileCompress
