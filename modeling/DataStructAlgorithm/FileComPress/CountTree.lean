import Mathlib.Algebra.BigOperators.Group.List.Lemmas
import DataStructAlgorithm.FileComPress.Codes
import DataStructAlgorithm.FileComPress.HuffmanTree
import DataStructAlgorithm.FileComPress.Optimality
import DataStructAlgorithm.Foundation.Simulation

/-! # Trees of changed weights

The constructor compares weights and adds them. A change that both do not see gives the
same tree, with changed weights in its nodes. -/

namespace DataStructAlgorithm.FileComPress

open Foundation

variable {T : Type}

/-- The operators do not see a change of the weights. -/
structure Operators.Ignores (weight : Operators T) (change : T → T) : Prop where
  lt : ∀ left right, weight.lt (change left) (change right) = weight.lt left right
  ne : ∀ left right, weight.ne (change left) (change right) = weight.ne left right
  add : ∀ left right, weight.add (change left) (change right) = change (weight.add left right)

namespace HuffmanTree

variable {weight : Operators T} {change : T → T}

def map (change : T → T) (tree : HuffmanTree T) : HuffmanTree T :=
  ⟨tree.heap.map (TreeNode.map change), tree.root⟩

def Building.map (change : T → T) (state : Building T) : Building T :=
  ⟨state.nodes.map (TreeNode.map change), state.queue⟩

theorem smallHeap_map (ignores : weight.Ignores change) (nodes : Store (HuffmanNode T)) :
    smallHeap weight (nodes.map (TreeNode.map change)) = smallHeap weight nodes := by
  funext left right
  simp only [smallHeap, Store.load_map, Outcome.bind_map, TreeNode.map, ignores.lt]

theorem pushEntry_map (ignores : weight.Ignores change) (fuel : Nat) (invalue : T)
    (state : Building T) (entry : T) :
    pushEntry weight fuel (change invalue) (state.map change) (change entry) =
      (pushEntry weight fuel invalue state entry).map (Building.map change) := by
  rw [pushEntry, pushEntry, ignores.ne]
  by_cases valid : weight.ne entry invalue = true
  · have grown : (state.nodes.map (TreeNode.map change)).alloc (newNode (change entry)) =
        (state.nodes.alloc (newNode entry)).map (TreeNode.map change) :=
      Store.map_alloc _ _ (newNode entry)
    rw [if_pos valid, if_pos valid]
    simp only [Building.map, grown, smallHeap_map ignores, Store.next_map, Outcome.map_bind]
    rfl
  · rw [if_neg valid, if_neg valid]
    rfl

theorem joinNodes_map (ignores : weight.Ignores change) (nodes : Store (HuffmanNode T))
    (left right : Nat) :
    joinNodes weight (nodes.map (TreeNode.map change)) left right =
      (joinNodes weight nodes left right).map (Store.map (TreeNode.map change)) := by
  have grown : ∀ first second, (nodes.map (TreeNode.map change)).alloc
      (newNode (weight.add (change first) (change second))) =
        (nodes.alloc (newNode (weight.add first second))).map (TreeNode.map change) := by
    intro first second
    rw [ignores.add]
    exact Store.map_alloc _ _ (newNode (weight.add first second))
  have linked : ∀ (store : Store (HuffmanNode T)) (pointer : Ptr) (side : Side) (child : Ptr),
      (store.map (TreeNode.map change)).assign pointer (.setChild side child) =
        (store.assign pointer (.setChild side child)).map (Store.map (TreeNode.map change)) := by
    intro store pointer side child
    apply Store.assign_map
    intro node
    cases side <;> rfl
  have placed : ∀ (store : Store (HuffmanNode T)) (pointer parent : Ptr),
      (store.map (TreeNode.map change)).assign pointer (.setParent parent) =
        (store.assign pointer (.setParent parent)).map (Store.map (TreeNode.map change)) := by
    intro store pointer parent
    apply Store.assign_map
    intro node
    rfl
  simp only [joinNodes, Store.load_map, Outcome.bind_map, TreeNode.map, Outcome.map_bind]
  apply bind_congr
  intro leftNode
  apply bind_congr
  intro rightNode
  simp only [grown, linked, placed, Store.next_map, Outcome.bind_map]

theorem mergePass_map (ignores : weight.Ignores change) (fuel : Nat) (state : Building T) :
    mergePass weight fuel (state.map change) = (mergePass weight fuel state).map
      (Pass.map (Building.map change) (Building.map change)) := by
  rw [mergePass, mergePass]
  by_cases several : state.queue.length > 1
  · rw [if_pos several, if_pos (show (state.map change).queue.length > 1 from several)]
    simp only [Building.map, smallHeap_map ignores, joinNodes_map ignores, Outcome.map_bind,
      Outcome.bind_map, Store.next_map]
    rfl
  · rw [if_neg several, if_neg (show ¬(state.map change).queue.length > 1 from several)]
    rfl

theorem ofArray_map (ignores : weight.Ignores change) (fuel : Nat) (a : List T) (invalue : T) :
    ofArray weight fuel (a.map change) (change invalue) =
      (ofArray weight fuel a invalue).map (HuffmanTree.map change) := by
  have pushed := runAll_map (pushEntry_map ignores fuel invalue) a ⟨.empty, []⟩
  have merged := repeatLoop_map (mergePass_map ignores fuel) fuel
  rw [ofArray, ofArray, List.isEmpty_map]
  cases a.isEmpty with
  | true => rfl
  | false =>
      simp only [Bool.false_eq_true, if_false]
      rw [show (⟨.empty, []⟩ : Building T) = Building.map change ⟨.empty, []⟩ from rfl, pushed]
      simp only [Outcome.bind_map, Outcome.map_bind, merged]
      rfl

end HuffmanTree

end DataStructAlgorithm.FileComPress

/-! ## The tree of the counts

The tree depends on the counts alone, so that the codes that stand in a table do not change
it. Its leaves are the bytes of the file. -/

namespace DataStructAlgorithm.FileComPress.FileCompress

open Foundation DataStruct HuffmanTree

/-! ## Codes and leaves -/

theorem shape_eq_nil {tree : AddrTree FileInformation} :
    shape tree = .nil ↔ tree.pointer = none := by
  cases tree <;> simp [shape]

theorem map_fst_codes (depth : Nat) (tree : AddrTree FileInformation) :
    (codes tree).map Prod.fst = (leavesAt depth (shape tree)).map fun leaf => leaf.1.ch := by
  induction tree generalizing depth with
  | nil => rfl
  | node left address data right leftInduction rightInduction =>
      by_cases leaf : left.pointer = none ∧ right.pointer = none
      · cases AddrTree.eq_nil_of_pointer leaf.1
        cases AddrTree.eq_nil_of_pointer leaf.2
        rfl
      · have inner : ¬(shape left = .nil ∧ shape right = .nil) := by
          rw [shape_eq_nil, shape_eq_nil]
          exact leaf
        rw [codes_inner leaf, shape, leavesAt_inner inner, List.map_append, List.map_append,
          List.map_map, List.map_map, ← leftInduction, ← rightInduction]
        rfl

theorem codes_perm {tree : AddrTree FileInformation} {kept : List FileInformation}
    (sameLeaves : (leaves (shape tree)).Perm kept) :
    ((codes tree).map Prod.fst).Perm (kept.map FileInformation.ch) := by
  have each := sameLeaves.map FileInformation.ch
  rw [leaves, List.map_map] at each
  rw [map_fst_codes 0]
  exact each

/-- A code is shorter than the number of nodes. -/
theorem length_code {tree : AddrTree FileInformation} {byte : Byte} {code : List Char}
    (member : (byte, code) ∈ codes tree) : code.length < tree.addresses.length := by
  induction tree generalizing code with
  | nil => cases member
  | node left address data right leftInduction rightInduction =>
      rw [AddrTree.addresses, List.length_append, List.length_cons]
      by_cases leaf : left.pointer = none ∧ right.pointer = none
      · cases AddrTree.eq_nil_of_pointer leaf.1
        cases AddrTree.eq_nil_of_pointer leaf.2
        rw [codes, List.mem_singleton, Prod.mk.injEq] at member
        rw [member.2]
        exact Nat.zero_lt_succ _
      · rw [codes_inner leaf] at member
        rcases List.mem_append.mp member with inLeft | inRight
        · rcases List.mem_map.mp inLeft with ⟨⟨other, rest⟩, inChild, same⟩
          cases same
          have shorter := leftInduction inChild
          simp only [List.length_cons]
          omega
        · rcases List.mem_map.mp inRight with ⟨⟨other, rest⟩, inChild, same⟩
          cases same
          have shorter := rightInduction inChild
          simp only [List.length_cons]
          omega

theorem length_addresses {tree : AddrTree FileInformation} (full : Full (shape tree))
    (nonempty : tree.pointer ≠ none) :
    tree.addresses.length + 1 = 2 * (leaves (shape tree)).length := by
  induction tree with
  | nil => exact absurd rfl nonempty
  | node left address data right leftInduction rightInduction =>
      rcases full with ⟨both, leftFull, rightFull⟩
      rw [shape_eq_nil, shape_eq_nil] at both
      by_cases leftNone : left.pointer = none
      · cases AddrTree.eq_nil_of_pointer (both.mp leftNone)
        cases AddrTree.eq_nil_of_pointer leftNone
        rfl
      · have rightSome : right.pointer ≠ none := fun rightNone => leftNone (both.mpr rightNone)
        have leftCount := leftInduction leftFull leftNone
        have rightCount := rightInduction rightFull rightSome
        rw [shape, leaves_join data fun leftNil => leftNone (shape_eq_nil.mp leftNil),
          AddrTree.addresses, List.length_append, List.length_append, List.length_cons]
        omega

/-! ## The weights without the codes -/

/-- An entry whose code is taken away. -/
def erase (info : FileInformation) : FileInformation :=
  { info with huffmanCode := [] }

theorem ignores_erase : FileInformation.operators.Ignores erase where
  lt := fun _ _ => rfl
  ne := fun _ _ => rfl
  add := fun _ _ => rfl

theorem uncoded_of_map {nodes : Store (HuffmanNode FileInformation)} {parent : Ptr}
    {tree : AddrTree FileInformation} (linked : Linked nodes parent tree)
    (same : nodes.map (TreeNode.map erase) = nodes) : Uncoded tree := by
  induction tree generalizing parent with
  | nil => trivial
  | node left address data right leftInduction rightInduction =>
      rcases linked with ⟨found, leftLinked, rightLinked⟩
      refine ⟨?_, leftInduction leftLinked, rightInduction rightLinked⟩
      have erased := congrArg (fun store => store.cell address) same
      simp only [Store.cell_map, found, Option.map_some, Option.some.injEq] at erased
      have unchanged : erase data = data := congrArg TreeNode.data erased
      rw [← unchanged]
      rfl

/-- The number of the root is the sum of the leaves in a `size_t`. -/
theorem number_mod {tree : BinaryTree FileInformation} (full : Full tree)
    (combines : Combines FileInformation.operators.add tree) {label : FileInformation}
    (isRoot : rootLabel tree = some label) :
    label.appearenceNumber % 2 ^ 64 =
      ((leaves tree).map FileInformation.appearenceNumber).sum % 2 ^ 64 := by
  induction tree generalizing label with
  | nil => cases isRoot
  | node own left right leftInduction rightInduction =>
      cases isRoot
      rcases full with ⟨both, leftFull, rightFull⟩
      rcases combines with ⟨isSum, leftCombines, rightCombines⟩
      cases left with
      | nil =>
          rw [both.mp rfl]
          simp [leaves, leavesAt]
      | node leftLabel leftLeft leftRight =>
          cases right with
          | nil => cases both.mpr rfl
          | node rightLabel rightLeft rightRight =>
              have inner : BinaryTree.node leftLabel leftLeft leftRight ≠ .nil := by simp
              have leftNumber := leftInduction leftFull leftCombines rfl
              have rightNumber := rightInduction rightFull rightCombines rfl
              have number : own.appearenceNumber =
                  (leftLabel.appearenceNumber + rightLabel.appearenceNumber) % 2 ^ 64 :=
                congrArg FileInformation.appearenceNumber (isSum leftLabel rightLabel rfl rfl)
              rw [leaves_join own inner, List.map_append, List.sum_append, number]
              omega

/-! ## The tree -/

/-- The entries that the file gives. -/
def counts (bytes : List Byte) : Byte → FileInformation :=
  counted (fun byte => ⟨0, [], byte⟩) bytes

theorem counts_eq (bytes : List Byte) (byte : Byte) :
    counts bytes byte = ⟨bytes.count byte, [], byte⟩ := by
  rw [counts, counted, Nat.zero_add]

/-- The bytes of the entries that are used are the bytes of the file. -/
theorem map_ch_filter {entries : Byte → FileInformation} (bytes : List Byte)
    (places : ∀ byte, (entries byte).ch = byte)
    (numbers : ∀ byte, (entries byte).appearenceNumber = bytes.count byte) :
    ((tableOf entries).filter appears).map FileInformation.ch =
      allBytes.filter fun byte => decide (byte ∈ bytes) := by
  have same : (fun byte => appears (entries byte)) = fun byte => decide (byte ∈ bytes) := by
    funext byte
    rw [appears, numbers, Bool.eq_iff_iff, decide_eq_true_eq, decide_eq_true_eq,
      ← List.count_pos_iff]
    exact Nat.pos_iff_ne_zero.symm
  rw [tableOf, List.filter_map, List.map_map]
  rw [show appears ∘ entries = fun byte => decide (byte ∈ bytes) from same,
    show FileInformation.ch ∘ entries = id from funext places, List.map_id]

theorem nodup_present (bytes : List Byte) :
    (allBytes.filter fun byte => decide (byte ∈ bytes)).Nodup :=
  nodup_allBytes.filter _

theorem sum_counts (bytes : List Byte) :
    ((allBytes.filter fun byte => decide (byte ∈ bytes)).map fun byte => bytes.count byte).sum =
      bytes.length := by
  have same : (allBytes.filter fun byte => decide (byte ∈ bytes)).Perm bytes.dedup := by
    rw [List.perm_ext_iff_of_nodup (nodup_present bytes) (List.nodup_dedup bytes)]
    intro byte
    simp
  rw [(same.map _).sum_eq]
  exact List.sum_map_count_dedup_eq_length bytes

/-! ## The tree of a table -/

/-- The entries that the tree is made of. -/
def used (entries : Byte → FileInformation) : List FileInformation :=
  (tableOf entries).filter appears

theorem used_eq (entries : Byte → FileInformation) : (tableOf entries).filter
    (fun entry => FileInformation.operators.ne entry (.ofNumber 0)) = used entries := by
  apply List.filter_congr
  intro entry _
  rw [Bool.eq_iff_iff, FileInformation.operators.ne_iff, appears, decide_eq_true_eq]
  rfl

theorem length_used (entries : Byte → FileInformation) : (used entries).length ≤ 256 :=
  (List.length_filter_le _ _).trans (length_tableOf _).le

/-- What is known about the tree that is made of a table. -/
structure TableTree (entries : Byte → FileInformation) (built : HuffmanTree FileInformation)
    (tree : AddrTree FileInformation) : Prop where
  represents : Represents built.heap built.root tree
  full : Full (shape tree)
  sameLeaves : (leaves (shape tree)).Perm (used entries)
  nonNil : tree.pointer ≠ none
  total : ∃ root, built.heap.load built.root = .ok root ∧ root.data.appearenceNumber % 2 ^ 64 =
    ((used entries).map FileInformation.appearenceNumber).sum % 2 ^ 64

theorem tableTree_spec {entries : Byte → FileInformation} (nonempty : used entries ≠ [])
    (fuel : Nat) (enough : 512 ≤ fuel) :
    ∃ built tree, ofArray FileInformation.operators fuel (tableOf entries) (.ofNumber 0) =
      .ok built ∧ TableTree entries built tree := by
  have valid : ∃ entry ∈ tableOf entries,
      FileInformation.operators.ne entry (.ofNumber 0) = true := by
    rcases List.exists_mem_of_ne_nil _ nonempty with ⟨entry, member⟩
    rw [← used_eq, List.mem_filter] at member
    exact ⟨entry, member⟩
  rcases ofArray_merges FileInformation.operators (tableOf entries) (.ofNumber 0) valid fuel
    (by rw [length_tableOf]; omega) with
    ⟨built, tree, trees, made, represents, full, combines, merges, shapes⟩
  have sameLeaves := merges.leaves_perm.trans (leaves_of_shapes shapes)
  rw [used_eq] at sameLeaves
  cases tree with
  | nil => exact absurd sameLeaves.symm.eq_nil nonempty
  | node left address data right =>
      refine ⟨built, .node left address data right, made, represents, full, sameLeaves, nofun,
        ⟨data, left.pointer, right.pointer, none⟩, ?_, ?_⟩
      · rw [represents.root_eq]
        exact Store.load_some represents.linked.1
      · have number := number_mod full combines rfl
        rw [(sameLeaves.map FileInformation.appearenceNumber).sum_eq] at number
        exact number

/-- A tree with one leaf is that leaf. -/
theorem eq_leaf_of_length {tree : AddrTree FileInformation} (full : Full (shape tree))
    (nonNil : tree.pointer ≠ none) (single : (leaves (shape tree)).length ≤ 1) :
    ∃ address data, tree = .node .nil address data .nil := by
  have size := length_addresses full nonNil
  cases tree with
  | nil => exact absurd rfl nonNil
  | node left address data right =>
      rw [AddrTree.addresses, List.length_append, List.length_cons] at size
      have noLeft : left = .nil := by
        cases left with
        | nil => rfl
        | node first other label second =>
            rw [AddrTree.addresses, List.length_append, List.length_cons] at size
            omega
      have noRight : right = .nil := by
        cases right with
        | nil => rfl
        | node first other label second =>
            rw [AddrTree.addresses, List.length_append, List.length_cons] at size
            omega
      rw [noLeft, noRight]
      exact ⟨address, data, rfl⟩

/-! ## The tree of a file -/

/-- What is known about the tree of a file. -/
structure CountTree (bytes : List Byte) (built : HuffmanTree FileInformation)
    (tree : AddrTree FileInformation) : Prop where
  represents : Represents built.heap built.root tree
  full : Full (shape tree)
  uncoded : Uncoded tree
  erased : built.map erase = built
  few : tree.addresses.length < 512
  present : ((codes tree).map Prod.fst).Perm (allBytes.filter fun byte => decide (byte ∈ bytes))
  total : ∃ root, built.heap.load built.root = .ok root ∧
    root.data.appearenceNumber % 2 ^ 64 = bytes.length % 2 ^ 64

theorem countTree_spec {bytes : List Byte} (nonempty : bytes ≠ []) (fuel : Nat)
    (enough : 512 ≤ fuel) :
    ∃ built tree, ofArray FileInformation.operators fuel (tableOf (counts bytes)) (.ofNumber 0) =
      .ok built ∧ CountTree bytes built tree := by
  have numbers : ∀ byte, (counts bytes byte).appearenceNumber = bytes.count byte :=
    fun byte => by rw [counts_eq]
  have places : ∀ byte, (counts bytes byte).ch = byte := fun byte => by rw [counts_eq]
  have someUsed : used (counts bytes) ≠ [] := by
    rcases List.exists_mem_of_ne_nil bytes nonempty with ⟨byte, member⟩
    have appeared : appears (counts bytes byte) = true := by
      rw [appears, decide_eq_true_eq, numbers]
      exact Nat.ne_of_gt (List.count_pos_iff.mpr member)
    exact List.ne_nil_of_mem
      (List.mem_filter.mpr ⟨List.mem_map_of_mem (mem_allBytes byte), appeared⟩)
  rcases tableTree_spec someUsed fuel enough with ⟨built, tree, made, known⟩
  have erased : built.map erase = built := by
    have again := ofArray_map ignores_erase fuel (tableOf (counts bytes)) (.ofNumber 0)
    rw [map_tableOf, made] at again
    have same : (fun byte => erase (counts bytes byte)) = counts bytes := by
      funext byte
      rw [counts_eq]
      rfl
    rw [same, show erase (.ofNumber 0) = .ofNumber 0 from rfl, made] at again
    exact (Except.ok.inj again).symm
  have present := codes_perm known.sameLeaves
  rw [used, map_ch_filter bytes places numbers] at present
  refine ⟨built, tree, made, known.represents, known.full, ?_, erased, ?_, present, ?_⟩
  · exact uncoded_of_map known.represents.linked (congrArg HuffmanTree.heap erased)
  · have length := length_addresses known.full known.nonNil
    have leafCount := known.sameLeaves.length_eq
    have few := length_used (counts bytes)
    omega
  · rcases known.total with ⟨root, loaded, number⟩
    refine ⟨root, loaded, ?_⟩
    rw [number, ← sum_counts, ← map_ch_filter bytes places numbers, List.map_map, used]
    apply congrArg (fun list => List.sum list % 2 ^ 64)
    apply List.map_congr_left
    intro entry member
    rcases List.mem_map.mp (List.mem_of_mem_filter member) with ⟨byte, _, rfl⟩
    rw [Function.comp_apply, numbers, places]

/-- The tree of a file with one value is a leaf. -/
theorem CountTree.leaf_of_same {bytes : List Byte} {built : HuffmanTree FileInformation}
    {tree : AddrTree FileInformation} (known : CountTree bytes built tree)
    (same : ∀ first ∈ bytes, ∀ second ∈ bytes, first = second) :
    ∃ address data, tree = .node .nil address data .nil := by
  rcases known.total with ⟨root, loaded, _⟩
  have nonNil : tree.pointer ≠ none := by
    intro isNone
    rw [known.represents.root_eq, isNone] at loaded
    cases loaded
  have few : (allBytes.filter fun byte => decide (byte ∈ bytes)).length ≤ 1 := by
    rcases present : allBytes.filter fun byte => decide (byte ∈ bytes) with
      _ | ⟨first, _ | ⟨second, rest⟩⟩
    · exact Nat.zero_le 1
    · exact Nat.le_refl 1
    · have nodup := nodup_present bytes
      have inBytes : ∀ byte ∈ first :: second :: rest, byte ∈ bytes := by
        intro byte member
        rw [← present, List.mem_filter] at member
        exact of_decide_eq_true member.2
      rw [present, List.nodup_cons] at nodup
      have equal := same first (inBytes first List.mem_cons_self) second
        (inBytes second (List.mem_cons_of_mem first List.mem_cons_self))
      rw [equal] at nodup
      exact absurd List.mem_cons_self nodup.1
  have counted := known.present.length_eq
  rw [map_fst_codes 0, List.length_map] at counted
  have leafCount : (leaves (shape tree)).length ≤ 1 := by
    rw [leaves, List.length_map, counted]
    exact few
  exact eq_leaf_of_length known.full nonNil leafCount

end DataStructAlgorithm.FileComPress.FileCompress
