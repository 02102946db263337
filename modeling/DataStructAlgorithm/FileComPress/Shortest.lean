import Mathlib.Algebra.BigOperators.Group.Finset.Basic
import DataStructAlgorithm.Foundation.PrefixCode
import DataStructAlgorithm.FileComPress.CodeWords
import DataStructAlgorithm.FileComPress.Optimality

/-! # How long the compressed file is

The counts of a file are added in a `size_t`. As long as they do not overflow, the tree is one of
greedy merging, and its codes are a shortest prefix code for the bytes of the file. -/

namespace DataStructAlgorithm.FileComPress

open Foundation DataStruct HuffmanTree

/-- The operators, with sums that do not overflow. -/
def FileInformation.exact : Weight FileInformation :=
  { FileInformation.operators with
    add := fun left right => ofNumber (left.appearenceNumber + right.appearenceNumber)
    value_add := fun _ _ => rfl }

/-- The store determines the tree at a pointer. -/
theorem Linked.eq_of_pointer {Data : Type} {store : Store (TreeNode Data)} {parent other : Ptr}
    {first second : AddrTree Data} (firstLinked : Linked store parent first)
    (secondLinked : Linked store other second) (same : first.pointer = second.pointer) :
    first = second := by
  induction first generalizing parent other second with
  | nil => exact (AddrTree.eq_nil_of_pointer same.symm).symm
  | node left address data right leftInduction rightInduction =>
      cases second with
      | nil => cases same
      | node otherLeft otherAddress otherData otherRight =>
          cases same
          rcases firstLinked with ⟨found, leftLinked, rightLinked⟩
          rcases secondLinked with ⟨otherFound, otherLeftLinked, otherRightLinked⟩
          rw [found] at otherFound
          rcases TreeNode.mk.inj (Option.some.inj otherFound) with ⟨rfl, sameLeft, sameRight, _⟩
          rw [leftInduction leftLinked otherLeftLinked sameLeft,
            rightInduction rightLinked otherRightLinked sameRight]

namespace HuffmanTree

/-- The sum of the leaves. -/
def mass (tree : AddrTree FileInformation) : Nat :=
  ((leaves (shape tree)).map FileInformation.appearenceNumber).sum

theorem combines_exact {tree : BinaryTree FileInformation} (full : Full tree)
    (combines : Combines FileInformation.operators.add tree)
    (small : ((leaves tree).map FileInformation.appearenceNumber).sum < 2 ^ 64) :
    Combines FileInformation.exact.add tree := by
  induction tree with
  | nil => trivial
  | node own left right leftInduction rightInduction =>
      rcases full with ⟨both, leftFull, rightFull⟩
      rcases combines with ⟨isSum, leftCombines, rightCombines⟩
      cases left with
      | nil =>
          rw [both.mp rfl]
          exact ⟨nofun, trivial, trivial⟩
      | node leftLabel leftLeft leftRight =>
          cases right with
          | nil => cases both.mpr rfl
          | node rightLabel rightLeft rightRight =>
              have inner : BinaryTree.node leftLabel leftLeft leftRight ≠ .nil := nofun
              rw [leaves_join own inner, List.map_append, List.sum_append] at small
              have leftExact := leftInduction leftFull leftCombines (by omega)
              have rightExact := rightInduction rightFull rightCombines (by omega)
              refine ⟨?_, leftExact, rightExact⟩
              intro first second isFirst isSecond
              cases isFirst
              cases isSecond
              have leftSum := sum_leaves leftFull
                (leftExact.sums FileInformation.exact.value_add) rfl
              have rightSum := sum_leaves rightFull
                (rightExact.sums FileInformation.exact.value_add) rfl
              have total : leftLabel.appearenceNumber + rightLabel.appearenceNumber < 2 ^ 64 := by
                have leftSum : _ = leftLabel.appearenceNumber := leftSum
                have rightSum : _ = rightLabel.appearenceNumber := rightSum
                rw [← leftSum, ← rightSum]
                exact small
              rw [isSum leftLabel rightLabel rfl rfl]
              exact congrArg FileInformation.ofNumber (Nat.mod_eq_of_lt total)

/-- Without an overflow the loop merges as if the sums were exact. -/
theorem Merges.exact {trees : List (AddrTree FileInformation)} {final : AddrTree FileInformation}
    (merges : Merges FileInformation.operators trees final)
    (small : (trees.map mass).sum < 2 ^ 64) : Merges FileInformation.exact trees final := by
  induction merges with
  | single tree => exact .single tree
  | @join trees others first second final address data parts firstRoot secondRoot firstLeast
      secondLeast full combines merges induction =>
      have total := (parts.map mass).sum_eq
      have joined : mass (.node first address data second) = mass first + mass second := by
        rw [mass, shape, leaves_join data firstRoot, List.map_append, List.sum_append]
        rfl
      rw [List.map_cons, List.map_cons, List.sum_cons, List.sum_cons] at total
      refine .join parts firstRoot secondRoot firstLeast secondLeast full
        (combines_exact full combines ?_) (induction ?_)
      · show mass (.node first address data second) < 2 ^ 64
        omega
      · rw [List.map_cons, List.sum_cons]
        omega

end HuffmanTree

namespace FileCompress

/-! ## The tree of a file -/

section Codes

variable {bytes : List Byte} {built : HuffmanTree FileInformation}
  {tree : AddrTree FileInformation}

theorem appearenceNumber_counts (bytes : List Byte) (byte : Byte) :
    (counts bytes byte).appearenceNumber = bytes.count byte := by
  rw [counts_eq]

theorem ch_counts (bytes : List Byte) (byte : Byte) : (counts bytes byte).ch = byte := by
  rw [counts_eq]

/-- The bytes that occur, in the order of the table. -/
def present (bytes : List Byte) : List Byte := allBytes.filter fun byte => decide (byte ∈ bytes)

theorem map_ch_used (bytes : List Byte) :
    (used (counts bytes)).map FileInformation.ch = present bytes :=
  map_ch_filter bytes (ch_counts bytes) (appearenceNumber_counts bytes)

theorem used_counts (bytes : List Byte) : ∀ entry ∈ used (counts bytes),
    entry.appearenceNumber = bytes.count entry.ch := by
  intro entry member
  rcases List.mem_map.mp (List.mem_of_mem_filter member) with ⟨byte, _, rfl⟩
  rw [appearenceNumber_counts, ch_counts]

theorem sum_used (bytes : List Byte) :
    ((used (counts bytes)).map FileInformation.appearenceNumber).sum = bytes.length := by
  rw [List.map_congr_left (used_counts bytes), ← sum_counts bytes, ← present, ← map_ch_used,
    List.map_map]
  rfl

/-- The tree of a file whose counts do not overflow is one of greedy merging. -/
theorem greedy_tree (nonempty : bytes ≠ []) (small : bytes.length < 2 ^ 64) {fuel : Nat}
    (enough : 512 ≤ fuel)
    (made : ofArray FileInformation.operators fuel (tableOf (counts bytes)) (.ofNumber 0) =
      .ok built) (known : CountTree bytes built tree) :
    (leaves (shape tree)).Perm (used (counts bytes)) ∧
      Greedy ((leaves (shape tree)).map FileInformation.appearenceNumber)
        (weightedPathLength FileInformation.appearenceNumber (shape tree)) := by
  have valid : ∃ entry ∈ tableOf (counts bytes),
      FileInformation.operators.ne entry (.ofNumber 0) = true := by
    rcases List.exists_mem_of_ne_nil bytes nonempty with ⟨byte, member⟩
    refine ⟨counts bytes byte, List.mem_map_of_mem (mem_allBytes byte), ?_⟩
    rw [FileInformation.operators.ne_iff]
    show (counts bytes byte).appearenceNumber ≠ 0
    rw [appearenceNumber_counts]
    exact Nat.ne_of_gt (List.count_pos_iff.mpr member)
  rcases ofArray_merges FileInformation.operators (tableOf (counts bytes)) (.ofNumber 0) valid fuel
    (by rw [length_tableOf]; omega) with
    ⟨other, final, trees, madeOther, represents, full, combines, merges, shapes⟩
  rw [made] at madeOther
  cases madeOther
  have sameTree : final = tree := Linked.eq_of_pointer represents.linked known.represents.linked
    (represents.root_eq.symm.trans known.represents.root_eq)
  subst sameTree
  have sameLeaves := merges.leaves_perm.trans (leaves_of_shapes shapes)
  rw [used_eq] at sameLeaves shapes
  refine ⟨sameLeaves, (merges.exact ?_).greedy_leaves shapes⟩
  have masses := shapes.map fun tree => ((leaves tree).map FileInformation.appearenceNumber).sum
  rw [List.map_map, List.map_map] at masses
  have single : ((fun tree => ((leaves tree).map FileInformation.appearenceNumber).sum) ∘
      fun entry => BinaryTree.node entry .nil .nil) = FileInformation.appearenceNumber := by
    funext entry
    simp [leaves, leavesAt]
  rw [single] at masses
  have total : (trees.map mass).sum = bytes.length := masses.sum_eq.trans (sum_used bytes)
  rw [total]
  exact small

/-- The codes are the paths to the leaves. -/
theorem map_length_codes (depth : Nat) (tree : AddrTree FileInformation) :
    (codes tree).map (fun item => (item.1, depth + item.2.length)) =
      (leavesAt depth (shape tree)).map fun leaf => (leaf.1.ch, leaf.2) := by
  induction tree generalizing depth with
  | nil => rfl
  | node left address data right leftInduction rightInduction =>
      by_cases leaf : left.pointer = none ∧ right.pointer = none
      · cases AddrTree.eq_nil_of_pointer leaf.1
        cases AddrTree.eq_nil_of_pointer leaf.2
        rfl
      · have inner : ¬(shape left = .nil ∧ shape right = .nil) := by
          rw [shape_eq_nil, shape_eq_nil]
          exact leaf
        have deeper : ∀ digit, (fun item : Byte × List Char => (item.1, depth + item.2.length)) ∘
            stepDown digit = fun item => (item.1, depth + 1 + item.2.length) := by
          intro digit
          funext item
          simp only [Function.comp_apply, stepDown, List.length_cons, Prod.mk.injEq, true_and]
          omega
        rw [codes_inner leaf, shape, leavesAt_inner inner, List.map_append, List.map_append,
          List.map_map, List.map_map, deeper, deeper, leftInduction, rightInduction]

/-! ## Lengths -/

theorem perm_codes (known : CountTree bytes built tree) :
    ((codes tree).map Prod.fst).Perm (present bytes) := known.present

/-- The code in the table is the path to the leaf. -/
theorem code_of_item (known : CountTree bytes built tree) (several : ∃ first ∈ bytes,
    ∃ second ∈ bytes, first ≠ second) {item : Byte × List Char} (member : item ∈ codes tree) :
    item.2 = (compressed bytes tree item.1).huffmanCode := by
  have isPresent := (perm_codes known).mem_iff.mp (List.mem_map_of_mem member)
  have inBytes : item.1 ∈ bytes := of_decide_eq_true (List.mem_filter.mp isPresent).2
  have nodup : ((codes tree).map Prod.fst).Nodup :=
    (perm_codes known).nodup_iff.mpr (nodup_present bytes)
  have same := List.inj_on_of_nodup_map nodup member (code_of_mem known several inBytes).1 rfl
  exact congrArg Prod.snd same

/-- A sum over the bytes of a file, byte value by byte value. -/
theorem sum_map_present (bytes : List Byte) (length : Byte → Nat) :
    (bytes.map length).sum =
      ((present bytes).map fun byte => bytes.count byte * length byte).sum := by
  have same : (present bytes).toFinset = bytes.toFinset := by
    ext byte
    simp [present, mem_allBytes]
  have nodup : (present bytes).Nodup := nodup_present bytes
  rw [Finset.sum_list_map_count, ← same, List.sum_toFinset _ nodup]
  rfl

theorem length_digits_eq (known : CountTree bytes built tree) (several : ∃ first ∈ bytes,
    ∃ second ∈ bytes, first ≠ second)
    (sameLeaves : (leaves (shape tree)).Perm (used (counts bytes))) :
    (digits (compressed bytes tree) bytes).length =
      weightedPathLength FileInformation.appearenceNumber (shape tree) := by
  have numbers : ∀ leaf ∈ leavesAt 0 (shape tree),
      leaf.1.appearenceNumber * leaf.2 = bytes.count leaf.1.ch * leaf.2 := by
    intro leaf member
    have inLeaves : leaf.1 ∈ leaves (shape tree) := List.mem_map_of_mem member
    rw [used_counts bytes leaf.1 (sameLeaves.mem_iff.mp inLeaves)]
  have paths := congrArg (fun items => (items.map fun item : Byte × Nat =>
    bytes.count item.1 * item.2).sum) (map_length_codes 0 tree)
  rw [List.map_map, List.map_map] at paths
  have items : ((codes tree).map fun item =>
        bytes.count item.1 * (compressed bytes tree item.1).huffmanCode.length).sum =
      ((codes tree).map fun item => bytes.count item.1 * item.2.length).sum := by
    refine congrArg List.sum (List.map_congr_left fun item member => ?_)
    rw [code_of_item known several member]
  have overPresent := ((perm_codes known).map fun byte =>
    bytes.count byte * (compressed bytes tree byte).huffmanCode.length).sum_eq
  rw [List.map_map] at overPresent
  rw [digits, List.length_flatMap, sum_map_present, weightedPathLength,
    List.map_congr_left numbers, ← overPresent]
  refine items.trans (Eq.trans ?_ paths)
  simp only [Function.comp_def, Nat.zero_add]

theorem leavesAt_ne_nil (depth : Nat) {shape : BinaryTree FileInformation}
    (nonempty : shape ≠ .nil) : leavesAt depth shape ≠ [] := by
  induction shape generalizing depth with
  | nil => exact absurd rfl nonempty
  | node label left right leftInduction rightInduction =>
      by_cases leaf : left = .nil ∧ right = .nil
      · rw [leaf.1, leaf.2]
        exact List.cons_ne_nil _ _
      · rw [leavesAt_inner leaf]
        by_cases leftNil : left = .nil
        · exact List.append_ne_nil_of_right_ne_nil _
            (rightInduction (depth + 1) fun rightNil => leaf ⟨leftNil, rightNil⟩)
        · exact List.append_ne_nil_of_left_ne_nil (leftInduction (depth + 1) leftNil) _

/-- No leaf of a tree without single children is as deep as there are leaves. -/
theorem depth_lt {shape : BinaryTree FileInformation} (full : Full shape) (depth : Nat) :
    ∀ leaf ∈ leavesAt depth shape, leaf.2 < depth + (leavesAt depth shape).length := by
  induction shape generalizing depth with
  | nil => exact fun _ member => absurd member List.not_mem_nil
  | node label left right leftInduction rightInduction =>
      rcases full with ⟨both, leftFull, rightFull⟩
      intro leaf member
      by_cases single : left = .nil
      · rw [single, both.mp single] at member ⊢
        rw [leavesAt, List.mem_singleton] at member
        rw [member, leavesAt, List.length_singleton]
        exact Nat.lt_succ_self depth
      · have inner : ¬(left = .nil ∧ right = .nil) := fun nils => single nils.1
        have leftSome : 0 < (leavesAt (depth + 1) left).length :=
          List.length_pos_iff.mpr (leavesAt_ne_nil _ single)
        have rightSome : 0 < (leavesAt (depth + 1) right).length :=
          List.length_pos_iff.mpr (leavesAt_ne_nil _ fun isNil => single (both.mpr isNil))
        rw [leavesAt_inner inner] at member ⊢
        rw [List.length_append]
        rcases List.mem_append.mp member with inLeft | inRight
        · have below := leftInduction leftFull (depth + 1) leaf inLeft
          omega
        · have below := rightInduction rightFull (depth + 1) leaf inRight
          omega

/-- Not even the code of the byte 255, which is packed at the end, has more than 255 digits. -/
theorem length_code_le (known : CountTree bytes built tree) (several : ∃ first ∈ bytes,
    ∃ second ∈ bytes, first ≠ second)
    (sameLeaves : (leaves (shape tree)).Perm (used (counts bytes))) (byte : Byte) :
    (compressed bytes tree byte).huffmanCode.length ≤ 255 := by
  by_cases member : byte ∈ bytes
  · have item := List.mem_map_of_mem (f := fun item : Byte × List Char =>
      (item.1, 0 + item.2.length)) (code_of_mem known several member).1
    rw [map_length_codes] at item
    rcases List.mem_map.mp item with ⟨leaf, inLeaves, same⟩
    have below := depth_lt known.full 0 leaf inLeaves
    have count := sameLeaves.length_eq
    have few := length_used (counts bytes)
    have depth : leaf.2 = 0 + (compressed bytes tree byte).huffmanCode.length :=
      congrArg Prod.snd same
    rw [leaves, List.length_map] at count
    omega
  · rw [code_of_not_mem known member]
    exact Nat.zero_le _

/-- The codes are a prefix code. -/
theorem prefixFree_codes {tree : AddrTree FileInformation} {first second : Byte × List Char}
    (firstMem : first ∈ codes tree) (secondMem : second ∈ codes tree)
    (begins : first.2.map isOne <+: second.2.map isOne) : first.1 = second.1 := by
  induction tree generalizing first second with
  | nil => cases firstMem
  | node left address data right leftInduction rightInduction =>
      by_cases leaf : left.pointer = none ∧ right.pointer = none
      · cases AddrTree.eq_nil_of_pointer leaf.1
        cases AddrTree.eq_nil_of_pointer leaf.2
        rw [codes, List.mem_singleton] at firstMem secondMem
        rw [firstMem, secondMem]
      · rw [codes_inner leaf] at firstMem secondMem
        rcases List.mem_append.mp firstMem with inLeft | inRight
        · rcases List.mem_map.mp inLeft with ⟨firstRest, firstRestMem, rfl⟩
          rcases List.mem_append.mp secondMem with otherLeft | otherRight
          · rcases List.mem_map.mp otherLeft with ⟨secondRest, secondRestMem, rfl⟩
            have same := leftInduction firstRestMem secondRestMem
              (List.cons_prefix_cons.mp begins).2
            exact same
          · rcases List.mem_map.mp otherRight with ⟨secondRest, _, rfl⟩
            exact absurd (List.cons_prefix_cons.mp begins).1 (by decide)
        · rcases List.mem_map.mp inRight with ⟨firstRest, firstRestMem, rfl⟩
          rcases List.mem_append.mp secondMem with otherLeft | otherRight
          · rcases List.mem_map.mp otherLeft with ⟨secondRest, _, rfl⟩
            exact absurd (List.cons_prefix_cons.mp begins).1 (by decide)
          · rcases List.mem_map.mp otherRight with ⟨secondRest, secondRestMem, rfl⟩
            have same := rightInduction firstRestMem secondRestMem
              (List.cons_prefix_cons.mp begins).2
            exact same

/-- No prefix code gives the file fewer digits. -/
theorem length_digits_le (known : CountTree bytes built tree) (several : ∃ first ∈ bytes,
    ∃ second ∈ bytes, first ≠ second)
    (sameLeaves : (leaves (shape tree)).Perm (used (counts bytes)))
    (greedy : Greedy ((leaves (shape tree)).map FileInformation.appearenceNumber)
      (weightedPathLength FileInformation.appearenceNumber (shape tree)))
    {code : Byte → List Bool} (prefixFree : PrefixFree code bytes) :
    (digits (compressed bytes tree) bytes).length ≤ (bytes.flatMap code).length := by
  have frequencies : (used (counts bytes)).map FileInformation.appearenceNumber =
      (present bytes).map bytes.count := by
    rw [List.map_congr_left (used_counts bytes), ← map_ch_used, List.map_map]
    rfl
  have greedyPresent : Greedy ((present bytes).map bytes.count)
      (weightedPathLength FileInformation.appearenceNumber (shape tree)) := by
    rw [← frequencies]
    exact greedy.perm (sameLeaves.map FileInformation.appearenceNumber).symm
  have inBytes : ∀ byte ∈ present bytes, byte ∈ bytes := fun byte member =>
    of_decide_eq_true (List.mem_filter.mp member).2
  have nonempty : present bytes ≠ [] := by
    rcases several with ⟨first, member, _⟩
    exact List.ne_nil_of_mem
      (List.mem_filter.mpr ⟨mem_allBytes first, decide_eq_true member⟩)
  have bounded := greedyPresent.le_prefixCode nonempty (nodup_present bytes)
    fun first firstMem second secondMem =>
      prefixFree first (inBytes first firstMem) second (inBytes second secondMem)
  rw [length_digits_eq known several sameLeaves, List.length_flatMap, sum_map_present]
  exact bounded

end Codes

/-! ## The file -/

theorem length_present (bytes : List Byte) : (present bytes).length = bytes.dedup.length := by
  have same : (present bytes).Perm bytes.dedup := by
    refine (List.perm_ext_iff_of_nodup (nodup_present bytes) (List.nodup_dedup bytes)).mpr ?_
    intro byte
    simp [mem_allBytes]
  exact same.length_eq

variable {size : Nat} (layout : Layout ConfigInfo size)

theorem length_configuration (unset : ConfigInfo) (bytes : List Byte)
    (tree : AddrTree FileInformation) :
    (configurationFileInformation layout unset (tableOf (compressed bytes tree))).length =
      size * (bytes.dedup.length + 1) := by
  rcases configurationFileInformation_eq layout unset (tableOf (compressed bytes tree)) with
    ⟨ch, config⟩
  have stored : ((tableOf (compressed bytes tree)).filter appears).length = bytes.dedup.length := by
    have places : ∀ byte, (compressed bytes tree byte).ch = byte := fun byte =>
      (congrArg FileInformation.ch (erase_compressed bytes tree byte)).trans (ch_counts bytes byte)
    have numbers : ∀ byte, (compressed bytes tree byte).appearenceNumber = bytes.count byte :=
      fun byte => (congrArg FileInformation.appearenceNumber
        (erase_compressed bytes tree byte)).trans (appearenceNumber_counts bytes byte)
    have names := congrArg List.length (map_ch_filter bytes places numbers)
    rw [List.length_map] at names
    exact names.trans (length_present bytes)
  have records : ∀ entries : List FileInformation,
      (entries.flatMap (configBytes layout)).length = size * entries.length := by
    intro entries
    induction entries with
    | nil => rfl
    | cons entry entries induction =>
        rw [List.flatMap_cons, List.length_append, induction, configBytes, layout.length_toBytes,
          List.length_cons, Nat.mul_succ, Nat.add_comm]
  rw [config, List.length_append, records, stored, layout.length_toBytes, Nat.mul_succ]

end FileCompress

end DataStructAlgorithm.FileComPress
