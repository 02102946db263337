import DataStructAlgorithm.FileComPress.RoundTrip

/-! # Which bits the codes give

The tree of a file with a single value is a leaf, and its code has no digit. A file with two
values gives every one of them a code, and the end of the file is packed like the byte 255. -/

namespace DataStructAlgorithm.FileComPress.FileCompress

open Foundation DataStruct HuffmanTree

/-! ## The shape of the tree -/

section Shape

variable {bytes : List Byte} {built : HuffmanTree FileInformation}
  {tree : AddrTree FileInformation}

/-- A leaf is the only tree that gives a byte of the file no digit. -/
theorem code_eq_nil_iff (known : CountTree bytes built tree) {byte : Byte} (member : byte ∈ bytes) :
    (compressed bytes tree byte).huffmanCode = [] ↔
      ¬∃ first ∈ bytes, ∃ second ∈ bytes, first ≠ second := by
  constructor
  · intro isEmpty several
    exact (code_of_mem known several member).2 isEmpty
  · intro same
    push Not at same
    rcases known.leaf_of_same same with ⟨address, data, rfl⟩
    have onlyLeaf : compressed bytes (.node .nil address data .nil) =
        Function.update (counts bytes) data.ch (setCode (data.ch, []) (counts bytes data.ch)) := rfl
    rw [onlyLeaf]
    by_cases isLeaf : byte = data.ch
    · rw [isLeaf, Function.update_self]
      rfl
    · rw [Function.update_of_ne isLeaf, counts_eq]

/-- A byte that does not occur has no code. -/
theorem code_of_not_mem (known : CountTree bytes built tree) {byte : Byte}
    (absent : byte ∉ bytes) : (compressed bytes tree byte).huffmanCode = [] := by
  have noLeaf : byte ∉ ((codes tree).map fun item => (item.1, [] ++ item.2)).map Prod.fst := by
    rw [List.map_map]
    intro member
    have listed := known.present.mem_iff.mp member
    exact absent (of_decide_eq_true (List.mem_filter.mp listed).2)
  rw [compressed, recorded, changeAll_of_not_mem noLeaf, counts_eq]

/-- The decoding loop goes down from a leaf. -/
theorem decodeLoop_leaf (known : CountTree bytes built tree)
    (same : ∀ first ∈ bytes, ∀ second ∈ bytes, first = second) {state : Decoding}
    (atRoot : state.cur = built.root) {fuel : Nat} (positive : 0 < fuel) :
    repeatLoop (decodePass built.heap built.root) fuel state = .error .nullPointer := by
  rcases known.leaf_of_same same with ⟨address, data, rfl⟩
  rcases fuel with _ | fuel
  · omega
  have found : built.heap.load state.cur = .ok ⟨data, none, none, none⟩ := by
    rw [atRoot, known.represents.root_eq]
    exact Store.load_some known.represents.linked.1
  exact repeatLoop_error fuel (decodePass_childless built.root found rfl rfl)

end Shape

/-! ## Codes that are followed -/

section Following

variable {size : Nat} (layout : Layout ConfigInfo size)

/-- After the constructor the bytes of the file have codes that are not empty. -/
def Coded (fuel : Nat) (unset : ConfigInfo) (filePath : List Char) (bytes : List Byte) : Prop :=
  ∀ object newfile content,
    compress layout fuel unset filePath bytes = .ok (object, newfile, content) →
    ∀ byte ∈ bytes, ∃ info, readAt object byte.toNat = .ok info ∧ info.huffmanCode ≠ []

/-- Decompressing the file, with the object that compressed it or with a new one, follows no
missing link. -/
def Followed (fuel : Nat) (unset uncompressUnset : ConfigInfo) (filePath : List Char)
    (bytes : List Byte) : Prop :=
  ∀ object newfile content,
    compress layout fuel unset filePath bytes = .ok (object, newfile, content) →
    ∀ target, target = object ∨ target = new →
      unCompress layout fuel uncompressUnset target newfile content ≠ .error .nullPointer

/-- The constructor does not come to the codes when it empties the file. -/
theorem compress_emptied (unset : ConfigInfo) {filePath : List Char}
    (own : compressFileName filePath = filePath) (bytes : List Byte) {fuel : Nat}
    (positive : 0 < fuel) : compress layout fuel unset filePath bytes = .error .assertion := by
  rcases countBytes_spec [] (fun byte => ⟨0, [], byte⟩) fuel positive with ⟨file, ran, _⟩
  have unused : ∀ entry ∈ tableOf (counted (fun byte => ⟨0, [], byte⟩) []),
      ¬FileInformation.operators.ne entry (.ofNumber 0) = true := by
    intro entry member
    rcases List.mem_map.mp member with ⟨byte, _, rfl⟩
    rw [FileInformation.operators.ne_iff]
    exact fun different => different rfl
  rw [compress, if_pos own, new_eq, ran, Outcome.ok_bind]
  dsimp only
  rw [ofArray_unused unused positive]
  rfl

section Compressed

variable {bytes : List Byte} (nonempty : bytes ≠ []) {fuel : Nat}
  (enough : 512 * (bytes.length + 1) ≤ fuel)

include nonempty enough

theorem coded_iff (unset : ConfigInfo) {filePath : List Char}
    (other : compressFileName filePath ≠ filePath) :
    Coded layout fuel unset filePath bytes ↔ ∃ first ∈ bytes, ∃ second ∈ bytes, first ≠ second := by
  rcases compress_spec layout unset filePath other nonempty fuel enough with
    ⟨built, tree, packed, made, known, ran, _⟩
  constructor
  · intro coded
    rcases List.exists_mem_of_ne_nil bytes nonempty with ⟨byte, member⟩
    rcases coded _ _ _ ran byte member with ⟨info, isEntry, long⟩
    rw [readAt_tableOf] at isEntry
    cases isEntry
    by_contra same
    exact long ((code_eq_nil_iff known member).mpr same)
  · intro several object newfile content compressedFile byte member
    rw [ran] at compressedFile
    cases compressedFile
    exact ⟨_, readAt_tableOf _ byte, (code_of_mem known several member).2⟩

theorem followed_iff (unset uncompressUnset : ConfigInfo) {filePath : List Char}
    (other : compressFileName filePath ≠ filePath) (small : bytes.length < 2 ^ 63) :
    Followed layout fuel unset uncompressUnset filePath bytes ↔
      ∃ first ∈ bytes, ∃ second ∈ bytes, first ≠ second := by
  rcases compress_spec layout unset filePath other nonempty fuel enough with
    ⟨built, tree, packed, made, known, ran, count, _, packedBits⟩
  constructor
  · intro followed
    by_contra same
    push Not at same
    rcases unCompress_decodes layout uncompressUnset filePath nonempty small enough made known
      packed unset (reads_new bytes) with ⟨file, after, newfile, _, decodes⟩
    apply followed _ _ _ ran new (Or.inr rfl)
    rw [new_eq, decodes, decodeLoop_leaf known same rfl (by omega)]
    rfl
  · intro several object newfile content compressedFile target isTarget
    rw [ran] at compressedFile
    cases compressedFile
    rw [digits_last, List.map_append, List.append_assoc] at packedBits
    have restores : ∃ entries, target = tableOf entries ∧ Reads bytes entries := by
      rcases isTarget with rfl | rfl
      · exact ⟨_, rfl, reads_compressed bytes tree⟩
      · exact ⟨_, new_eq, reads_new bytes⟩
    rcases restores with ⟨entries, rfl, reads⟩
    rcases unCompress_spec layout uncompressUnset filePath several small enough made known
      packedBits unset reads with ⟨after, newfile, decoded⟩
    rw [decoded]
    simp

/-- The codes are there and can be followed when the file holds two values. -/
theorem coded_and_followed_iff (unset uncompressUnset : ConfigInfo) (filePath : List Char)
    (small : bytes.length < 2 ^ 63) :
    (Coded layout fuel unset filePath bytes ↔ (compressFileName filePath ≠ filePath →
      ∃ first ∈ bytes, ∃ second ∈ bytes, first ≠ second)) ∧
    (Followed layout fuel unset uncompressUnset filePath bytes ↔
      (compressFileName filePath ≠ filePath →
        ∃ first ∈ bytes, ∃ second ∈ bytes, first ≠ second)) := by
  by_cases other : compressFileName filePath = filePath
  · have failed := compress_emptied layout unset other bytes (show 0 < fuel by omega)
    refine ⟨iff_of_true ?_ (absurd other), iff_of_true ?_ (absurd other)⟩
    · intro object newfile content ran
      rw [failed] at ran
      cases ran
    · intro object newfile content ran
      rw [failed] at ran
      cases ran
  · rw [forall_prop_of_true other]
    exact ⟨coded_iff layout nonempty enough unset other,
      followed_iff layout nonempty enough unset uncompressUnset other small⟩

end Compressed

theorem coded_and_followed_two :
    (Coded ConfigInfo.layout 1536 ⟨0, 0⟩ "a.txt".toList [97, 98] ↔
      (compressFileName "a.txt".toList ≠ "a.txt".toList →
        ∃ first ∈ ([97, 98] : List Byte), ∃ second ∈ [97, 98], first ≠ second)) ∧
    (Followed ConfigInfo.layout 1536 ⟨0, 0⟩ ⟨0, 0⟩ "a.txt".toList [97, 98] ↔
      (compressFileName "a.txt".toList ≠ "a.txt".toList →
        ∃ first ∈ ([97, 98] : List Byte), ∃ second ∈ [97, 98], first ≠ second)) :=
  coded_and_followed_iff ConfigInfo.layout (List.cons_ne_nil 97 [98]) (Nat.le_refl 1536) ⟨0, 0⟩
    ⟨0, 0⟩ "a.txt".toList (by decide)

/-- A file with one byte: its code is empty, and decompressing goes down from the leaf. -/
theorem compress_one_byte :
    ∃ object content, compress ConfigInfo.layout 20 ⟨0, 0⟩ "a.txt".toList [97] =
        .ok (object, "a.hzp".toList, content) ∧
      readAt object 97 = .ok ⟨1, [], 97⟩ ∧
      unCompress ConfigInfo.layout 20 ⟨0, 0⟩ new "a.hzp".toList content =
        .error .nullPointer := by
  refine ⟨tableOf fun byte => if byte = 97 then ⟨1, [], 97⟩ else ⟨0, [], byte⟩,
    ConfigInfo.layout.toBytes ⟨97, 1⟩ ++ ConfigInfo.layout.toBytes ⟨97, -1⟩, ?_, ?_, ?_⟩
  · decide +kernel
  · decide +kernel
  · decide +kernel

end Following

/-! ## The symbol at the end of the file -/

/-- The packed bytes hold the codes of the bytes, and zeros that complete the last byte. -/
def Exact (entries : Byte → FileInformation) (bytes packed : List Byte) : Prop :=
  ∃ count < 8, stream packed = (digits entries bytes).map isOne ++ List.replicate count false

instance (entries : Byte → FileInformation) (bytes packed : List Byte) :
    Decidable (Exact entries bytes packed) :=
  inferInstanceAs (Decidable (∃ count < 8, _))

/-- After some bits a code looks like the zeros that complete the last byte. -/
def Hidden (code : List Char) (length : Nat) : Prop :=
  (∀ digit ∈ code, digit ≠ '1') ∧ code.length ≤ (8 - length % 8) % 8

theorem exact_iff {entries : Byte → FileInformation} {bytes packed : List Byte} {count : Nat}
    (few : count < 8) (packedBits : stream packed =
      (digits entries (bytes ++ [255])).map isOne ++ List.replicate count false) :
    Exact entries bytes packed ↔
      Hidden (entries 255).huffmanCode (digits entries bytes).length := by
  rw [digits_last, List.map_append, List.append_assoc] at packedBits
  have total := congrArg List.length packedBits
  rw [length_stream, List.length_append, List.length_append, List.length_map, List.length_map,
    List.length_replicate] at total
  constructor
  · rintro ⟨other, otherFew, otherBits⟩
    have same := List.append_cancel_left (packedBits.symm.trans otherBits)
    have lengths := congrArg List.length same
    rw [List.length_append, List.length_map, List.length_replicate, List.length_replicate]
      at lengths
    refine ⟨?_, by omega⟩
    intro digit member isOneDigit
    have isBit : isOne digit ∈ List.replicate other false := by
      rw [← same]
      exact List.mem_append_left _ (List.mem_map_of_mem member)
    rw [isOneDigit] at isBit
    exact absurd (List.eq_of_mem_replicate isBit) (by decide)
  · rintro ⟨zeros, short⟩
    have asZeros : (entries 255).huffmanCode.map isOne =
        List.replicate (entries 255).huffmanCode.length false := by
      rw [List.eq_replicate_iff, List.length_map]
      refine ⟨rfl, ?_⟩
      intro bit member
      rcases List.mem_map.mp member with ⟨digit, inCode, rfl⟩
      exact decide_eq_false (zeros digit inCode).symm
    refine ⟨(entries 255).huffmanCode.length + count, by omega, ?_⟩
    rw [packedBits, asZeros, List.replicate_append_replicate]

/-- What is packed is the file when the symbol that is read at its end cannot be seen. The
codes of the constructor give that symbol no digit when its byte is missing or alone. -/
theorem compressToFile_exact_iff {size : Nat} (layout : Layout ConfigInfo size)
    (unset : ConfigInfo) (fuel : Nat) :
    (∀ (entries : Byte → FileInformation) (file : InFile), file.content.length + 1 < fuel →
      ∃ packed, compressToFile fuel (tableOf entries) file = .ok packed ∧
        (Exact entries file.content packed ↔
          Hidden (entries 255).huffmanCode (digits entries file.content).length)) ∧
    ∀ (filePath : List Char) (bytes : List Byte), compressFileName filePath ≠ filePath →
      bytes ≠ [] → 512 * (bytes.length + 1) ≤ fuel →
      ∃ entries packed, compress layout fuel unset filePath bytes =
          .ok (tableOf entries, compressFileName filePath,
            configurationFileInformation layout unset (tableOf entries) ++ packed) ∧
        (Exact entries bytes packed ↔
          Hidden (entries 255).huffmanCode (digits entries bytes).length) ∧
        ((entries 255).huffmanCode = [] ↔
          255 ∉ bytes ∨ ¬∃ first ∈ bytes, ∃ second ∈ bytes, first ≠ second) := by
  constructor
  · intro entries file enough
    rcases compressToFile_spec entries rfl fuel enough with ⟨packed, ran, count, few, packedBits⟩
    exact ⟨packed, ran, exact_iff few packedBits⟩
  · intro filePath bytes other nonempty enough
    rcases compress_spec layout unset filePath other nonempty fuel enough with
      ⟨built, tree, packed, _, known, ran, count, few, packedBits⟩
    refine ⟨compressed bytes tree, packed, ran, exact_iff few packedBits, ?_⟩
    by_cases present : 255 ∈ bytes
    · rw [code_eq_nil_iff known present, or_iff_right (not_not_intro present)]
    · exact iff_of_true (code_of_not_mem known present) (Or.inl present)

theorem compressToFile_exact_small :
    ∃ packed, compressToFile 4 (tableOf fun _ => ⟨1, [], 0⟩) (.opened [97, 98]) = .ok packed ∧
      (Exact (fun _ => ⟨1, [], 0⟩) [97, 98] packed ↔
        Hidden [] (digits (fun _ => ⟨1, [], 0⟩) [97, 98]).length) :=
  (compressToFile_exact_iff ConfigInfo.layout ⟨0, 0⟩ 4).1 (fun _ => ⟨1, [], 0⟩) (.opened [97, 98])
    (Nat.le_refl 4)

/-- The bytes 0 and 255 have the codes `0` and `1`. The packed bits are `011`. -/
theorem compressToFile_packs_end :
    ∃ entries, compress ConfigInfo.layout 20 ⟨0, 0⟩ "a.txt".toList [0, 255] =
        .ok (tableOf entries, "a.hzp".toList,
          configurationFileInformation ConfigInfo.layout ⟨0, 0⟩ (tableOf entries) ++ [96]) ∧
      ¬Exact entries [0, 255] [96] := by
  refine ⟨fun byte => if byte = 0 then ⟨1, ['0'], 0⟩ else if byte = 255 then ⟨1, ['1'], 255⟩
    else ⟨0, [], byte⟩, ?_, ?_⟩
  · decide +kernel
  · decide

end DataStructAlgorithm.FileComPress.FileCompress
