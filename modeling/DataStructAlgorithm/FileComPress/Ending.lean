import DataStructAlgorithm.FileComPress.RoundTrip

/-! # Which files are decompressed to an end

The content of the file can be anything. The header loop needs the record that ends the
counts, and the decoding loop needs a tree with two leaves and a count that is positive. -/

namespace DataStructAlgorithm.FileComPress.FileCompress

open Foundation DataStruct HuffmanTree

/-! ## The header -/

section Header

variable {size : Nat} (layout : Layout ConfigInfo size)

/-- A record needs a byte, because there are two of them. -/
theorem size_pos (layout : Layout ConfigInfo size) : 0 < size := by
  rcases Nat.eq_zero_or_pos size with rfl | positive
  · have noBytes : ∀ value, layout.toBytes value = [] :=
      fun value => List.eq_nil_of_length_eq_zero (layout.length_toBytes value)
    have first := layout.ofBytes_toBytes ⟨0, 0⟩
    have second := layout.ofBytes_toBytes ⟨1, 0⟩
    rw [noBytes] at first second
    exact absurd (first.symm.trans second) (by decide)
  · exact positive

/-- The records that some bytes begin with. -/
def records : (count : Nat) → List Byte → List ConfigInfo
  | 0, _ => []
  | count + 1, bytes => layout.ofBytes (bytes.take size) :: records count (bytes.drop size)

/-- All records of a file. Bytes that do not make a record are left out. -/
def allRecords (content : List Byte) : List ConfigInfo :=
  records layout (content.length / size) content

/-- A record ends the counts, or the variable that no record is read to does. -/
def Terminated (unset : ConfigInfo) (content : List Byte) : Prop :=
  (∃ info ∈ allRecords layout content, info.count = -1) ∨
    allRecords layout content = [] ∧ unset.count = -1

instance (unset : ConfigInfo) (content : List Byte) :
    Decidable (Terminated layout unset content) :=
  inferInstanceAs (Decidable (_ ∨ _))

/-- The table after some records have been read. -/
def afterRecords (entries : Byte → FileInformation) (stored : List ConfigInfo) :
    Byte → FileInformation :=
  changeAll ConfigInfo.ch enter entries (stored.takeWhile fun info => info.count ≠ -1)

variable {layout} {entries : Byte → FileInformation} {file : InFile} {bytes : List Byte}
  {info : ConfigInfo}

/-- A record that does not end the counts is entered. -/
theorem configPass_record (entries : Byte → FileInformation) (info : ConfigInfo)
    (ahead : file.rest = bytes) (whole : size ≤ bytes.length) {next : ConfigInfo}
    (isNext : layout.ofBytes (bytes.take size) = next) (counts : next.count ≠ -1) :
    ∃ after : InFile, configPass layout (tableOf entries, file, info) = .ok (.again
        (tableOf (Function.update entries next.ch (enter next (entries next.ch))), after, next)) ∧
      after.rest = bytes.drop size := by
  subst ahead
  rcases file.fread_eq size with ⟨after, got, rest⟩
  refine ⟨after, configPass_again layout got ?_ counts, rest⟩
  rw [readInfo, if_pos (List.length_take_of_le whole), isNext]

theorem headerLoop_ends (count : Nat) (long : count * size ≤ bytes.length)
    (ends : ∃ info ∈ records layout count bytes, info.count = -1) (ahead : file.rest = bytes)
    (fuel : Nat) (enough : count ≤ fuel) :
    ∃ after, repeatLoop (configPass layout) fuel (tableOf entries, file, info) =
      .ok (tableOf (afterRecords entries (records layout count bytes)), after) := by
  induction count generalizing bytes entries file info fuel with
  | zero =>
      rcases ends with ⟨info, member, _⟩
      cases member
  | succ count induction =>
      rcases fuel with _ | fuel
      · omega
      rw [Nat.succ_mul] at long
      by_cases isLast : (layout.ofBytes (bytes.take size)).count = -1
      · subst ahead
        rcases file.fread_eq size with ⟨after, got, _⟩
        have read : readInfo layout (file.rest.take size) info = _ :=
          if_pos (List.length_take_of_le (by omega))
        refine ⟨after, ?_⟩
        rw [repeatLoop_leave fuel (configPass_last layout got (by rw [read]; exact isLast)),
          records, afterRecords, List.takeWhile_cons_of_neg (by simpa using isLast)]
        rfl
      · rcases configPass_record entries info ahead (by omega) rfl isLast with
          ⟨after, pass, rest⟩
        have later : ∃ info ∈ records layout count (bytes.drop size), info.count = -1 := by
          rcases ends with ⟨last, member, isEnd⟩
          rcases List.mem_cons.mp member with rfl | later
          · exact absurd isEnd isLast
          · exact ⟨last, later, isEnd⟩
        rw [repeatLoop_again fuel pass, records, afterRecords,
          List.takeWhile_cons_of_pos (by simpa using isLast)]
        exact induction (by rw [List.length_drop]; omega) later rest fuel (by omega)

/-- At the end of the file the same record is entered for ever. -/
theorem headerLoop_stuck (short : file.rest.length < size) (counts : info.count ≠ -1)
    (entries : Byte → FileInformation) (fuel : Nat) :
    repeatLoop (configPass layout) fuel (tableOf entries, file, info) = .error .outOfFuel := by
  apply repeatLoop_endless fun state => ∃ entries file, state = (tableOf entries, file, info) ∧
    file.rest.length < size
  · rintro _ ⟨entries, file, rfl, short⟩
    rcases file.fread_eq size with ⟨after, got, rest⟩
    have partly : readInfo layout (file.rest.take size) info = info := by
      rw [readInfo, if_neg]
      rw [List.length_take]
      omega
    refine ⟨_, configPass_again layout got partly counts, _, _, rfl, ?_⟩
    rw [rest, List.length_drop]
    omega
  · exact ⟨entries, file, rfl, short⟩

theorem headerLoop_endless (count : Nat) (long : count * size ≤ bytes.length)
    (short : bytes.length < (count + 1) * size)
    (none : ∀ info ∈ records layout count bytes, info.count ≠ -1)
    (start : count = 0 → info.count ≠ -1) (ahead : file.rest = bytes)
    (entries : Byte → FileInformation) (fuel : Nat) :
    repeatLoop (configPass layout) fuel (tableOf entries, file, info) = .error .outOfFuel := by
  induction count generalizing bytes entries file info fuel with
  | zero =>
      rw [Nat.zero_add, Nat.one_mul] at short
      exact headerLoop_stuck (by rw [ahead]; exact short) (start rfl) entries fuel
  | succ count induction =>
      rw [Nat.succ_mul] at long short
      rcases fuel with _ | fuel
      · rfl
      rcases List.forall_mem_cons.mp none with ⟨counts, others⟩
      rcases configPass_record entries info ahead (by omega) rfl counts with
        ⟨after, pass, rest⟩
      rw [repeatLoop_again fuel pass]
      exact induction (by rw [List.length_drop]; omega) (by rw [List.length_drop]; omega) others
        (fun _ => counts) rest _ fuel

variable (layout) (entries)

/-- The header loop ends when the records do. -/
theorem header_ends {unset : ConfigInfo} {content : List Byte}
    (terminated : Terminated layout unset content) (fuel : Nat) (enough : content.length < fuel) :
    ∃ after, repeatLoop (configPass layout) fuel (tableOf entries, .opened content, unset) =
      .ok (tableOf (afterRecords entries (allRecords layout content)), after) := by
  have few := Nat.div_le_self content.length size
  rcases terminated with ends | ⟨isNil, isLast⟩
  · exact headerLoop_ends _ (Nat.div_mul_le_self _ _) ends rfl fuel (by omega)
  · have short : content.length < size := by
      have noRecord : content.length / size = 0 := by
        rw [allRecords] at isNil
        rcases count : content.length / size with _ | count
        · rfl
        · rw [count] at isNil
          cases isNil
      exact (Nat.div_eq_zero_iff_lt (size_pos layout)).mp noRecord
    rcases fuel with _ | fuel
    · omega
    rcases (InFile.opened content).fread_eq size with ⟨after, got, _⟩
    refine ⟨after, ?_⟩
    rw [isNil, repeatLoop_leave fuel (configPass_last layout got _)]
    · rfl
    · rw [readInfo, if_neg]
      · exact isLast
      · rw [InFile.rest_opened, List.length_take]
        omega

/-- It does not end otherwise. -/
theorem header_endless {unset : ConfigInfo} {content : List Byte}
    (notTerminated : ¬Terminated layout unset content) (fuel : Nat) :
    repeatLoop (configPass layout) fuel (tableOf entries, .opened content, unset) =
      .error .outOfFuel := by
  rw [Terminated, not_or] at notTerminated
  have positive := size_pos layout
  refine headerLoop_endless (content.length / size) (Nat.div_mul_le_self _ _)
    ((Nat.div_lt_iff_lt_mul positive).mp (Nat.lt_succ_self _)) ?_ ?_ rfl entries fuel
  · intro info member isLast
    exact notTerminated.1 ⟨info, member, isLast⟩
  · intro noRecord isLast
    apply notTerminated.2
    rw [allRecords, noRecord]
    exact ⟨rfl, isLast⟩

end Header

/-! ## The decoding loop -/

section Decode

variable {nodes : Store (HuffmanNode FileInformation)} {tree : AddrTree FileInformation}

/-- What a pass that reaches a leaf can do. -/
theorem symbolPass_cases (root : Ptr) (state : Decoding) (byte : Byte) :
    (state.totalNum = -2 ^ 63 ∧ symbolPass root state byte = .error .outOfRange) ∨
    (state.totalNum = 1 ∧ symbolPass root state byte = .ok (.leave (state.output ++ [byte]))) ∨
    state.totalNum ≠ -2 ^ 63 ∧ state.totalNum ≠ 1 ∧
      symbolPass root state byte = .ok (.again (afterSymbol root state byte)) := by
  rw [symbolPass]
  by_cases least : state.totalNum = -2 ^ 63
  · exact Or.inl ⟨least, if_pos least⟩
  · rw [if_neg least]
    by_cases last : state.totalNum - 1 = 0
    · exact Or.inr (Or.inl ⟨by omega, if_pos last⟩)
    · exact Or.inr (Or.inr ⟨least, by omega, if_neg last⟩)

/-- The decoding stands at a node with two children. -/
structure Standing (nodes : Store (HuffmanNode FileInformation)) (state : Decoding)
    (tree : AddrTree FileInformation) : Prop where
  linked : ∃ parent, Linked nodes parent tree
  full : Full (shape tree)
  inner : 2 ≤ (leaves (shape tree)).length
  here : state.cur = tree.pointer

/-- The next pass reaches a leaf, or a node that is lower in the tree. -/
theorem Standing.pass {state : Decoding} (standing : Standing nodes state tree) (root : Ptr) :
    (∃ byte, decodePass nodes root state = symbolPass root state byte) ∨
    ∃ child, decodePass nodes root state = .ok (.again (steppedDown state child.pointer)) ∧
      child.height < tree.height ∧ Standing nodes (steppedDown state child.pointer) child := by
  rcases standing with ⟨⟨parent, linked⟩, full, inner, here⟩
  cases tree with
  | nil => simp [shape, leaves, leavesAt] at inner
  | node left address data right =>
      rcases linked with ⟨found, leftLinked, rightLinked⟩
      have loaded : nodes.load state.cur = .ok ⟨data, left.pointer, right.pointer, parent⟩ := by
        rw [here]
        exact Store.load_some found
      rcases full with ⟨both, leftFull, rightFull⟩
      have leftSome : left.pointer ≠ none := by
        intro isNone
        have leftNil := shape_eq_nil.mpr isNone
        rw [shape, leftNil, both.mp leftNil] at inner
        simp [leaves, leavesAt] at inner
      have rightSome : right.pointer ≠ none :=
        fun isNone => leftSome (shape_eq_nil.mp (both.mpr (shape_eq_nil.mpr isNone)))
      have taken : ∃ child : AddrTree FileInformation, child.pointer ≠ none ∧
          (if bitAt state.value state.pos.toNat then right.pointer else left.pointer) =
            child.pointer ∧ Linked nodes (some address) child ∧ Full (shape child) ∧
          child.height < (AddrTree.node left address data right).height := by
        rw [AddrTree.height]
        by_cases bit : bitAt state.value state.pos.toNat = true
        · exact ⟨right, rightSome, if_pos bit, rightLinked, rightFull, by omega⟩
        · exact ⟨left, leftSome, if_neg bit, leftLinked, leftFull, by omega⟩
      rcases taken with ⟨child, someChild, moves, childLinked, childFull, lower⟩
      by_cases single : (leaves (shape child)).length ≤ 1
      · rcases eq_leaf_of_length childFull someChild single with ⟨childAddress, childData, rfl⟩
        exact Or.inl ⟨childData.ch, decodePass_leaf root loaded moves childLinked.1⟩
      · refine Or.inr ⟨child, ?_, lower, ⟨⟨some address, childLinked⟩, childFull, by omega,
          cur_refill _⟩⟩
        cases child with
        | nil => exact absurd rfl someChild
        | node childLeft childAddress childData childRight =>
            refine decodePass_inner root loaded moves childLinked.1 ?_
            rintro ⟨leftNone, rightNone⟩
            cases AddrTree.eq_nil_of_pointer leftNone
            cases AddrTree.eq_nil_of_pointer rightNone
            exact single (Nat.le_refl 1)

/-- What is left to do until the count comes down to a number. -/
def Remaining (nodes : Store (HuffmanNode FileInformation)) (tree : AddrTree FileInformation)
    (floor : Int) (bound : Nat) (state : Decoding) : Prop :=
  floor ≤ state.totalNum ∧ ∃ subtree, Standing nodes state subtree ∧
    subtree.height ≤ tree.height ∧
    bound = (state.totalNum - floor).toNat * (tree.height + 1) + subtree.height

theorem remaining_start {state : Decoding} (standing : Standing nodes state tree) {floor : Int}
    (above : floor ≤ state.totalNum) : Remaining nodes tree floor
      ((state.totalNum - floor).toNat * (tree.height + 1) + tree.height) state :=
  ⟨above, tree, standing, Nat.le_refl _, rfl⟩

/-- A pass of the loop brings the count nearer to the number, unless it is there. -/
theorem Remaining.pass {start state : Decoding} (whole : Standing nodes start tree) {floor : Int}
    {bound : Nat} (remaining : Remaining nodes tree floor bound state) :
    (∃ byte, decodePass nodes tree.pointer state = symbolPass tree.pointer state byte ∧
      (floor < state.totalNum → ∃ smaller < bound,
        Remaining nodes tree floor smaller (afterSymbol tree.pointer state byte))) ∨
    ∃ next, decodePass nodes tree.pointer state = .ok (.again next) ∧
      ∃ smaller < bound, Remaining nodes tree floor smaller next := by
  rcases remaining with ⟨above, subtree, standing, low, rfl⟩
  rcases standing.pass tree.pointer with ⟨byte, symbol⟩ | ⟨child, down, lower, next⟩
  · refine Or.inl ⟨byte, symbol, ?_⟩
    intro more
    have total : (afterSymbol tree.pointer state byte).totalNum = state.totalNum - 1 :=
      totalNum_refill _
    refine ⟨_, ?_, remaining_start ⟨whole.linked, whole.full, whole.inner, cur_refill _⟩
      (by omega)⟩
    have split : (state.totalNum - floor).toNat =
        ((afterSymbol tree.pointer state byte).totalNum - floor).toNat + 1 := by omega
    rw [split, Nat.succ_mul]
    omega
  · have total : (steppedDown state child.pointer).totalNum = state.totalNum := totalNum_refill _
    refine Or.inr ⟨_, down, _, ?_, by omega, child, next, by omega, rfl⟩
    rw [total]
    omega

variable {state : Decoding} (standing : Standing nodes state tree)

include standing

/-- The loop ends, though it may be with a count that cannot be counted down. -/
theorem decodeLoop_ends (least : -2 ^ 63 ≤ state.totalNum) (fuel : Nat)
    (enough : (state.totalNum + 2 ^ 63).toNat * (tree.height + 1) + tree.height < fuel) :
    repeatLoop (decodePass nodes tree.pointer) fuel state ≠ .error .outOfFuel := by
  refine repeatLoop_ends (Remaining nodes tree (-2 ^ 63)) ?_ fuel _ state
    (remaining_start standing least) (by rw [Int.sub_neg]; exact enough)
  intro bound state remaining
  rcases remaining.pass standing with ⟨byte, symbol, later⟩ | ⟨next, down, smaller, less, lower⟩
  · rw [symbol]
    rcases symbolPass_cases tree.pointer state byte with
      ⟨_, fault⟩ | ⟨_, left⟩ | ⟨notLeast, _, goesOn⟩
    · rw [fault]
      exact ⟨by simp, by simp⟩
    · rw [left]
      exact ⟨by simp, by simp⟩
    · rw [goesOn]
      refine ⟨by simp, ?_⟩
      intro next again
      cases again
      have above := remaining.1
      exact later (by omega)
  · rw [down]
    refine ⟨by simp, ?_⟩
    intro other same
    cases same
    exact ⟨smaller, less, lower⟩

/-- With a positive count it returns. -/
theorem decodeLoop_returns (positive : 0 < state.totalNum) (fuel : Nat)
    (enough : (state.totalNum + 2 ^ 63).toNat * (tree.height + 1) + tree.height < fuel) :
    ∃ output, repeatLoop (decodePass nodes tree.pointer) fuel state = .ok output := by
  have fewer : (state.totalNum - 1).toNat * (tree.height + 1) + tree.height < fuel := by
    have less : (state.totalNum - 1).toNat ≤ (state.totalNum + 2 ^ 63).toNat := by omega
    have product := Nat.mul_le_mul_right (tree.height + 1) less
    omega
  have step : ∀ bound state, Remaining nodes tree 1 bound state →
      (∃ next smaller, decodePass nodes tree.pointer state = .ok (.again next) ∧
        smaller < bound ∧ Remaining nodes tree 1 smaller next) ∨
      ∃ output, decodePass nodes tree.pointer state = .ok (.leave output) ∧ True := by
    intro bound state remaining
    have above := remaining.1
    rcases remaining.pass standing with ⟨byte, symbol, later⟩ | ⟨next, down, smaller, less, lower⟩
    · rw [symbol]
      rcases symbolPass_cases tree.pointer state byte with
        ⟨least, _⟩ | ⟨_, left⟩ | ⟨_, notLast, goesOn⟩
      · omega
      · exact Or.inr ⟨_, left, trivial⟩
      · rcases later (by omega) with ⟨smaller, less, next⟩
        exact Or.inl ⟨_, smaller, goesOn, less, next⟩
    · exact Or.inl ⟨next, smaller, down, less, lower⟩
  rcases repeatLoop_total _ _ step fuel _ state (remaining_start standing (by omega)) fewer with
    ⟨output, returned, _⟩
  exact ⟨output, returned⟩

/-- Without one it does not. -/
theorem decodeLoop_never (notPositive : state.totalNum ≤ 0) (fuel : Nat) (output : List Byte) :
    repeatLoop (decodePass nodes tree.pointer) fuel state ≠ .ok output := by
  intro returned
  refine repeatLoop_partial (fun state => state.totalNum ≤ 0 ∧
    ∃ subtree, Standing nodes state subtree) (fun _ => False) ?_ ?_ fuel state output
    ⟨notPositive, tree, standing⟩ returned
  · rintro state next ⟨few, subtree, stands⟩ again
    rcases stands.pass tree.pointer with ⟨byte, symbol⟩ | ⟨child, down, _, lower⟩
    · rw [again] at symbol
      rcases symbolPass_cases tree.pointer state byte with
        ⟨_, fault⟩ | ⟨_, left⟩ | ⟨_, _, goesOn⟩
      · cases symbol.trans fault
      · cases symbol.trans left
      · cases symbol.trans goesOn
        have total : (afterSymbol tree.pointer state byte).totalNum = state.totalNum - 1 :=
          totalNum_refill _
        exact ⟨by omega, tree, standing.linked, standing.full, standing.inner, cur_refill _⟩
    · rw [again] at down
      cases down
      exact ⟨(totalNum_refill _).le.trans few, child, lower⟩
  · rintro state result ⟨few, subtree, stands⟩ leave
    rcases stands.pass tree.pointer with ⟨byte, symbol⟩ | ⟨child, down, _⟩
    · rw [leave] at symbol
      rcases symbolPass_cases tree.pointer state byte with
        ⟨_, fault⟩ | ⟨last, _⟩ | ⟨_, _, goesOn⟩
      · cases symbol.trans fault
      · omega
      · cases symbol.trans goesOn
    · rw [leave] at down
      cases down

end Decode

/-! ## The tree of any table -/

/-- Two entries are used, and the sum of the counts is positive as a `long long`. -/
def Countable (entries : Byte → FileInformation) : Prop :=
  2 ≤ (used entries).length ∧
    0 < (Int64.ofNat ((used entries).map FileInformation.appearenceNumber).sum).toInt

/-- The decoding loop ends with any tree, and returns when the counts allow it. -/
theorem TableTree.decodes {entries : Byte → FileInformation}
    {built : HuffmanTree FileInformation} {tree : AddrTree FileInformation}
    (known : TableTree entries built tree) {state : Decoding} (atRoot : state.cur = built.root)
    (total : state.totalNum =
      (Int64.ofNat ((used entries).map FileInformation.appearenceNumber).sum).toInt)
    (fuel : Nat) (enough : 2 ^ 74 ≤ fuel) :
    repeatLoop (decodePass built.heap built.root) fuel state ≠ .error .outOfFuel ∧
      ((∃ output, repeatLoop (decodePass built.heap built.root) fuel state = .ok output) ↔
        Countable entries) := by
  have leafCount := known.sameLeaves.length_eq
  rw [known.represents.root_eq] at atRoot ⊢
  by_cases several : 2 ≤ (used entries).length
  · have standing : Standing built.heap state tree :=
      ⟨⟨none, known.represents.linked⟩, known.full, by omega, atRoot⟩
    have least := Int64.le_toInt
      (Int64.ofNat ((used entries).map FileInformation.appearenceNumber).sum)
    have most := Int64.toInt_lt
      (Int64.ofNat ((used entries).map FileInformation.appearenceNumber).sum)
    rw [← total] at least most
    have steps : (state.totalNum + 2 ^ 63).toNat * (tree.height + 1) + tree.height < fuel := by
      have low := tree.height_le_addresses
      have size := length_addresses known.full known.nonNil
      have few := length_used entries
      have product : (state.totalNum + 2 ^ 63).toNat * (tree.height + 1) ≤ 2 ^ 64 * 512 :=
        Nat.mul_le_mul (by omega) (by omega)
      omega
    refine ⟨decodeLoop_ends standing least fuel steps, ?_⟩
    rw [Countable, ← total, and_iff_right several]
    constructor
    · rintro ⟨output, returned⟩
      by_contra notPositive
      exact decodeLoop_never standing (by omega) fuel output returned
    · intro positive
      exact decodeLoop_returns standing positive fuel steps
  · rcases eq_leaf_of_length known.full known.nonNil (by omega) with ⟨address, data, rfl⟩
    rcases fuel with _ | fuel
    · omega
    have found : built.heap.load state.cur = .ok ⟨data, none, none, none⟩ := by
      rw [atRoot]
      exact Store.load_some known.represents.linked.1
    rw [repeatLoop_error fuel (decodePass_childless _ found rfl rfl)]
    exact ⟨by decide, iff_of_false (Outcome.error_not_returned _)
      fun countable => several countable.1⟩

/-! ## The whole call -/

section Calls

variable {size : Nat} (layout : Layout ConfigInfo size)

/-- The name is taken for the one of a compressed file. -/
def Accepts (filename : List Char) : Prop :=
  ∃ p, filename.findIdx? (fun char => char = '.') = some p ∧
    (filename.drop p).take 4 = ".hzp".toList

/-- With enough fuel the call does not run out of it. -/
def Ends (unset : ConfigInfo) (entries : Byte → FileInformation) (filename : List Char)
    (content : List Byte) : Prop :=
  ∃ enough, ∀ fuel, enough ≤ fuel →
    unCompress layout fuel unset (tableOf entries) filename content ≠ .error .outOfFuel

/-- With enough fuel the call returns. -/
def Returns (unset : ConfigInfo) (entries : Byte → FileInformation) (filename : List Char)
    (content : List Byte) : Prop :=
  ∃ enough, ∀ fuel, enough ≤ fuel →
    ∃ result, unCompress layout fuel unset (tableOf entries) filename content = .ok result

variable {layout} {unset : ConfigInfo} {entries : Byte → FileInformation} {filename : List Char}
  {content : List Byte}

/-- What the call does after the header. -/
theorem unCompress_terminated (entries : Byte → FileInformation) (accepts : Accepts filename)
    (terminated : Terminated layout unset content) (fuel : Nat)
    (enough : content.length + 2 ^ 74 ≤ fuel) :
    unCompress layout fuel unset (tableOf entries) filename content ≠ .error .outOfFuel ∧
    ((∃ result, unCompress layout fuel unset (tableOf entries) filename content = .ok result) ↔
      Countable (afterRecords entries (allRecords layout content))) := by
  rcases accepts with ⟨p, dot, suffix⟩
  rcases header_ends layout entries terminated fuel (by omega) with ⟨file, header⟩
  by_cases noEntry : used (afterRecords entries (allRecords layout content)) = []
  · -- The heap is empty when the root is taken from it.
    have unused : ∀ entry ∈ tableOf (afterRecords entries (allRecords layout content)),
        ¬FileInformation.operators.ne entry (.ofNumber 0) = true := by
      rw [← used_eq, List.filter_eq_nil_iff] at noEntry
      exact noEntry
    have failed : unCompress layout fuel unset (tableOf entries) filename content =
        .error .assertion := by
      simp only [unCompress, dot, suffix, ne_eq, not_true_eq_false, if_false, header,
        Outcome.ok_bind, ofArray_unused unused (show 0 < fuel by omega)]
      rfl
    rw [failed, Countable, noEntry]
    refine ⟨by decide, iff_of_false (Outcome.error_not_returned _) ?_⟩
    exact fun countable => absurd countable.1 (by decide)
  · rcases tableTree_spec noEntry fuel (by omega) with ⟨built, tree, made, known⟩
    rcases known.total with ⟨root, loaded, total⟩
    rw [unCompress_built layout dot suffix header made loaded, ofNat_mod total,
      Outcome.map_returns, ne_eq, Outcome.map_eq_error]
    exact known.decodes rfl rfl fuel (by omega)

theorem unCompress_notTerminated (entries : Byte → FileInformation) (accepts : Accepts filename)
    (notTerminated : ¬Terminated layout unset content) (fuel : Nat) :
    unCompress layout fuel unset (tableOf entries) filename content = .error .outOfFuel := by
  rcases accepts with ⟨p, dot, suffix⟩
  simp only [unCompress, dot, suffix, ne_eq, not_true_eq_false, if_false,
    header_endless layout entries notTerminated fuel]
  rfl

variable (layout) (unset) (entries) (content)

theorem unCompress_notAccepted (named : ".hzp".toList <:+ filename) (other : ¬Accepts filename)
    (fuel : Nat) : unCompress layout fuel unset (tableOf entries) filename content =
      .ok (tableOf entries, none) := by
  have hasDot : ∃ p, filename.findIdx? (fun char => char = '.') = some p := by
    rcases named with ⟨front, rfl⟩
    rw [← Option.isSome_iff_exists, List.findIdx?_isSome, List.any_append]
    simp
  rcases hasDot with ⟨p, dot⟩
  have different : (filename.drop p).take 4 ≠ ".hzp".toList := fun same => other ⟨p, dot, same⟩
  simp only [unCompress, dot, if_pos different]

/-- Decompressing a file ends when a record ends the counts. It returns when the counts can
be counted down with a tree that is not a leaf, too. -/
theorem unCompress_ends_iff (named : ".hzp".toList <:+ filename) :
    (Ends layout unset entries filename content ↔
      (Accepts filename → Terminated layout unset content)) ∧
    (Returns layout unset entries filename content ↔
      (Accepts filename → Terminated layout unset content ∧
        Countable (afterRecords entries (allRecords layout content)))) := by
  by_cases accepts : Accepts filename
  · rw [forall_prop_of_true accepts, forall_prop_of_true accepts]
    by_cases terminated : Terminated layout unset content
    · have known := unCompress_terminated entries accepts terminated
      rw [iff_true_right terminated, and_iff_right terminated]
      refine ⟨⟨_, fun fuel enough => (known fuel enough).1⟩, ?_⟩
      constructor
      · rintro ⟨most, returns⟩
        have both := Nat.le_max_left (content.length + 2 ^ 74) most
        exact (known _ both).2.mp (returns _ (Nat.le_max_right _ _))
      · intro countable
        exact ⟨_, fun fuel enough => (known fuel enough).2.mpr countable⟩
    · have known := unCompress_notTerminated entries accepts terminated
      refine ⟨iff_of_false ?_ terminated, iff_of_false ?_ fun both => terminated both.1⟩
      · rintro ⟨most, ends⟩
        exact ends most (Nat.le_refl _) (known most)
      · rintro ⟨most, returns⟩
        rcases returns most (Nat.le_refl _) with ⟨result, returned⟩
        rw [known most] at returned
        cases returned
  · have known := unCompress_notAccepted layout unset entries content named accepts
    refine ⟨iff_of_true ⟨0, fun fuel _ => ?_⟩ (absurd · accepts),
      iff_of_true ⟨0, fun fuel _ => ⟨_, known fuel⟩⟩ (absurd · accepts)⟩
    rw [known fuel]
    simp

end Calls

theorem unCompress_ends_empty :
    (Ends ConfigInfo.layout ⟨0, 0⟩ (fun byte => ⟨0, [], byte⟩) "a.hzp".toList [] ↔
      (Accepts "a.hzp".toList → Terminated ConfigInfo.layout ⟨0, 0⟩ [])) ∧
    (Returns ConfigInfo.layout ⟨0, 0⟩ (fun byte => ⟨0, [], byte⟩) "a.hzp".toList [] ↔
      (Accepts "a.hzp".toList → Terminated ConfigInfo.layout ⟨0, 0⟩ [] ∧
        Countable (afterRecords (fun byte => ⟨0, [], byte⟩) (allRecords ConfigInfo.layout [])))) :=
  unCompress_ends_iff ConfigInfo.layout ⟨0, 0⟩ (fun byte => ⟨0, [], byte⟩) [] ⟨['a'], rfl⟩

/-- A file that was cut off after its first record. -/
theorem unCompress_cutOff :
    ¬Ends ConfigInfo.layout ⟨0, 0⟩ (fun byte => ⟨0, [], byte⟩) "a.hzp".toList
      (ConfigInfo.layout.toBytes ⟨97, 1⟩) := by
  have accepts : Accepts "a.hzp".toList := ⟨1, by decide, by decide⟩
  have notTerminated : ¬Terminated ConfigInfo.layout ⟨0, 0⟩
      (ConfigInfo.layout.toBytes ⟨97, 1⟩) := by decide +kernel
  rintro ⟨enough, ends⟩
  exact ends enough (Nat.le_refl enough) (unCompress_notTerminated _ accepts notTerminated enough)

end DataStructAlgorithm.FileComPress.FileCompress
