import Mathlib.Algebra.Order.BigOperators.Group.List
import Mathlib.Data.List.TakeWhile
import DataStructAlgorithm.FileComPress.CountTree
import DataStructAlgorithm.FileComPress.Decoding

/-! # Compressing and decompressing a file

The object that reads a compressed file builds the tree from the stored counts. It is the
tree of the file, so that the codes lead to the right leaves. -/

namespace DataStructAlgorithm.FileComPress.FileCompress

open Foundation DataStruct HuffmanTree

/-! ## The codes of the file -/

section Codes

variable {bytes : List Byte} {built : HuffmanTree FileInformation}
  {tree : AddrTree FileInformation}

/-- The table of the object that has compressed the file. -/
def compressed (bytes : List Byte) (tree : AddrTree FileInformation) : Byte → FileInformation :=
  recorded (counts bytes) [] tree

theorem erase_compressed (bytes : List Byte) (tree : AddrTree FileInformation) (byte : Byte) :
    erase (compressed bytes tree byte) = counts bytes byte := by
  have kept : erase (compressed bytes tree byte) = erase (counts bytes byte) :=
    changeAll_keeps erase fun _ _ => rfl
  rw [kept, counts_eq]
  rfl

/-- Every byte of the file has got the code of its leaf, which is not empty. -/
theorem code_of_mem (known : CountTree bytes built tree) (several : ∃ first ∈ bytes,
    ∃ second ∈ bytes, first ≠ second) {byte : Byte} (member : byte ∈ bytes) :
    (byte, (compressed bytes tree byte).huffmanCode) ∈ codes tree ∧
      (compressed bytes tree byte).huffmanCode ≠ [] := by
  have present : ∀ other ∈ bytes, other ∈ (codes tree).map Prod.fst := by
    intro other otherMem
    rw [known.present.mem_iff, List.mem_filter]
    exact ⟨mem_allBytes other, decide_eq_true otherMem⟩
  have nodup : ((codes tree).map Prod.fst).Nodup :=
    known.present.nodup_iff.mpr (nodup_present bytes)
  rcases List.mem_map.mp (present byte member) with ⟨⟨other, code⟩, inCodes, same⟩
  cases same
  have entered : compressed bytes tree other = setCode (other, code) (counts bytes other) := by
    have listed : (other, code) ∈ (codes tree).map fun item => (item.1, [] ++ item.2) :=
      List.mem_map.mpr ⟨(other, code), inCodes, rfl⟩
    apply changeAll_of_mem _ listed
    rw [List.map_map]
    exact nodup
  rw [entered]
  refine ⟨inCodes, ?_⟩
  intro isEmpty
  rw [show code = [] from isEmpty] at inCodes
  rcases leaf_of_mem inCodes with ⟨address, data, rfl, _⟩
  rcases several with ⟨first, firstMem, second, secondMem, different⟩
  have firstEq := present first firstMem
  have secondEq := present second secondMem
  simp only [codes, List.map_singleton, List.mem_singleton] at firstEq secondEq
  exact different (firstEq.trans secondEq.symm)

theorem length_digits (known : CountTree bytes built tree) (several : ∃ first ∈ bytes,
    ∃ second ∈ bytes, first ≠ second) :
    (digits (compressed bytes tree) bytes).length ≤ 512 * bytes.length := by
  have each : ∀ byte ∈ bytes, (compressed bytes tree byte).huffmanCode.length ≤ 512 := by
    intro byte member
    have short := length_code (code_of_mem known several member).1
    have few := known.few
    omega
  rw [digits, List.length_flatMap]
  have bound := List.sum_le_card_nsmul
    (bytes.map fun byte => (compressed bytes tree byte).huffmanCode.length) 512 (by
      intro length member
      rcases List.mem_map.mp member with ⟨byte, inBytes, rfl⟩
      exact each byte inBytes)
  rw [List.length_map, nsmul_eq_mul, Nat.cast_id, Nat.mul_comm] at bound
  exact bound

end Codes

/-! ## Compressing -/

variable {size : Nat} (layout : Layout ConfigInfo size)

/-- The compressed file holds the counts and then the packed codes. -/
theorem compress_spec (unset : ConfigInfo) (filePath : List Char)
    (other : compressFileName filePath ≠ filePath) {bytes : List Byte} (nonempty : bytes ≠ [])
    (fuel : Nat) (enough : 512 * (bytes.length + 1) ≤ fuel) :
    ∃ built tree packed, ofArray FileInformation.operators fuel
        (tableOf (counts bytes)) (.ofNumber 0) = .ok built ∧ CountTree bytes built tree ∧
      compress layout fuel unset filePath bytes = .ok (tableOf (compressed bytes tree),
        compressFileName filePath,
        configurationFileInformation layout unset (tableOf (compressed bytes tree)) ++ packed) ∧
      ∃ count < 8, stream packed = (digits (compressed bytes tree) (bytes ++ [255])).map isOne ++
        List.replicate count false := by
  have positive : 0 < bytes.length := List.length_pos_iff.mpr nonempty
  rcases countBytes_spec bytes (fun byte => ⟨0, [], byte⟩) fuel (by omega) with
    ⟨file, countRan, content⟩
  rcases countTree_spec nonempty fuel (by omega) with ⟨built, tree, made, known⟩
  rcases known.total with ⟨root, loaded, _⟩
  have rooted : built.root ≠ none := by
    intro isNone
    rw [isNone] at loaded
    cases loaded
  have few := known.few
  have converted := conversion_spec known.represents known.uncoded rooted (counts bytes) fuel
    (by omega)
  rcases compressToFile_spec (compressed bytes tree) content fuel (by omega) with
    ⟨packed, packRan, packedBits⟩
  refine ⟨built, tree, packed, made, known, ?_, packedBits⟩
  rw [compress, if_neg other, new_eq, countRan, Outcome.ok_bind]
  dsimp only
  rw [← counts, made, Outcome.ok_bind, converted, Outcome.ok_bind, ← compressed, packRan,
    Outcome.ok_bind]
  rfl

/-! ## Decompressing -/

/-- A table that can read the counts of a file. -/
def Reads (bytes : List Byte) (entries : Byte → FileInformation) : Prop :=
  ∀ byte, (entries byte).ch = byte ∧ (byte ∉ bytes → (entries byte).appearenceNumber = 0)

theorem reads_compressed (bytes : List Byte) (tree : AddrTree FileInformation) :
    Reads bytes (compressed bytes tree) := by
  intro byte
  have same := erase_compressed bytes tree byte
  rw [counts_eq] at same
  refine ⟨congrArg FileInformation.ch same, fun absent => ?_⟩
  rw [← List.count_eq_zero] at absent
  exact (congrArg FileInformation.appearenceNumber same).trans absent

theorem reads_new (bytes : List Byte) : Reads bytes fun byte => ⟨0, [], byte⟩ :=
  fun _ => ⟨rfl, fun _ => rfl⟩

/-- After the counts have been read, the table has the counts of the file. -/
theorem erase_restored {bytes : List Byte} {entries target : Byte → FileInformation}
    (same : ∀ byte, erase (entries byte) = counts bytes byte) (reads : Reads bytes target) :
    (tableOf (changeAll FileInformation.ch restore target
      ((tableOf entries).filter appears))).map erase = tableOf (counts bytes) := by
  have places : ∀ byte, (entries byte).ch = byte := by
    intro byte
    have erased := congrArg FileInformation.ch (same byte)
    rw [counts_eq] at erased
    exact erased
  have numbers : ∀ byte, (entries byte).appearenceNumber = bytes.count byte := by
    intro byte
    have erased := congrArg FileInformation.appearenceNumber (same byte)
    rw [counts_eq] at erased
    exact erased
  have stored := map_ch_filter bytes places numbers
  rw [map_tableOf]
  apply congrArg
  funext byte
  rw [counts_eq]
  by_cases present : byte ∈ bytes
  · have appeared : appears (entries byte) = true := by
      rw [appears, decide_eq_true_eq, numbers]
      exact Nat.ne_of_gt (List.count_pos_iff.mpr present)
    have member : entries byte ∈ (tableOf entries).filter appears :=
      List.mem_filter.mpr ⟨List.mem_map_of_mem (mem_allBytes byte), appeared⟩
    have written : changeAll FileInformation.ch restore target _ (entries byte).ch = _ :=
      changeAll_of_mem (by rw [stored]; exact nodup_present bytes) member
    rw [places] at written
    rw [written, restore, erase, places, numbers]
  · have absent : byte ∉ ((tableOf entries).filter appears).map FileInformation.ch := by
      rw [stored]
      simp [present]
    rcases reads byte with ⟨place, zero⟩
    rw [changeAll_of_not_mem absent, erase, place, zero present, List.count_eq_zero.mpr present]

theorem decodePass_erase (nodes : Store (HuffmanNode FileInformation)) (root : Ptr) :
    decodePass (nodes.map (TreeNode.map erase)) root = decodePass nodes root := by
  funext state
  simp only [decodePass, Store.load_map, Outcome.bind_map, TreeNode.map, erase]
  rfl

/-- The name of the compressed file is taken apart at its first dot. -/
theorem compressFileName_parts (filePath : List Char) :
    ∃ p, (compressFileName filePath).findIdx? (fun char => char = '.') = some p ∧
      ((compressFileName filePath).drop p).take 4 = ".hzp".toList := by
  have noDot : (filePath.takeWhile fun char => char ≠ '.').findIdx? (fun char => char = '.') =
      none := by
    rw [List.findIdx?_eq_none_iff]
    intro char member
    have kept := List.mem_takeWhile_imp member
    simpa using kept
  refine ⟨(filePath.takeWhile fun char => char ≠ '.').length, ?_, ?_⟩
  · have atStart : ".hzp".toList.findIdx? (fun char => char = '.') = some 0 := by decide
    rw [compressFileName, List.findIdx?_append, noDot, Option.none_or, atStart, Option.map_some,
      Nat.zero_add]
  · rw [compressFileName, List.drop_left']
    · rfl
    · rfl

/-- What is left to do when the counts have been read and the tree has been built. -/
theorem unCompress_built {filename : List Char} {p : Nat}
    (dot : filename.findIdx? (fun char => char = '.') = some p)
    (suffix : (filename.drop p).take 4 = ".hzp".toList) {fuel : Nat} {unset : ConfigInfo}
    {fileinfo table : List FileInformation} {content : List Byte} {file : InFile}
    (header : repeatLoop (configPass layout) fuel (fileinfo, .opened content, unset) =
      .ok (table, file)) {built : HuffmanTree FileInformation}
    (made : ofArray FileInformation.operators fuel table (.ofNumber 0) = .ok built)
    {rt : HuffmanNode FileInformation} (loaded : built.heap.load built.root = .ok rt) :
    unCompress layout fuel unset fileinfo filename content =
      (repeatLoop (decodePass built.heap built.root) fuel
        ⟨built.root, (Int64.ofNat rt.data.appearenceNumber).toInt, 7, toChar file.fgetc.1,
          file.fgetc.2, []⟩).map fun output =>
        (table, some (filename.take p ++ "1.txt".toList, output)) := by
  simp only [unCompress, dot, suffix, ne_eq, not_true_eq_false, if_false, header,
    Outcome.ok_bind, made, loaded]
  rfl

/-- The same for a file that has been compressed. -/
theorem unCompress_decodes (unset : ConfigInfo) (filePath : List Char) {bytes : List Byte}
    (nonempty : bytes ≠ []) (small : bytes.length < 2 ^ 63)
    {built : HuffmanTree FileInformation} {tree : AddrTree FileInformation} {fuel : Nat}
    (enough : 512 * (bytes.length + 1) ≤ fuel)
    (made : ofArray FileInformation.operators fuel (tableOf (counts bytes)) (.ofNumber 0) =
      .ok built) (known : CountTree bytes built tree) (packed : List Byte)
    (compressUnset : ConfigInfo)
    {target : Byte → FileInformation} (reads : Reads bytes target) :
    ∃ (file : InFile) (after : List FileInformation) (newfile : List Char), file.rest = packed ∧
      unCompress layout fuel unset (tableOf target) (compressFileName filePath)
        (configurationFileInformation layout compressUnset (tableOf (compressed bytes tree)) ++
          packed) =
        (repeatLoop (decodePass built.heap built.root) fuel ⟨built.root, bytes.length, 7,
          toChar file.fgetc.1, file.fgetc.2, []⟩).map fun output =>
            (after, some (newfile, output)) := by
  rcases compressFileName_parts filePath with ⟨p, dot, suffix⟩
  have positive : 0 < bytes.length := List.length_pos_iff.mpr nonempty
  rcases configurationFileInformation_eq layout compressUnset (tableOf (compressed bytes tree)) with
    ⟨ch, config⟩
  rw [config]
  -- The counts are read.
  have storedSmall : ∀ entry ∈ (tableOf (compressed bytes tree)).filter appears,
      entry.appearenceNumber < 2 ^ 63 := by
    intro entry member
    rcases List.mem_map.mp (List.mem_of_mem_filter member) with ⟨byte, _, rfl⟩
    have same := congrArg FileInformation.appearenceNumber (erase_compressed bytes tree byte)
    rw [counts_eq] at same
    rw [show (compressed bytes tree byte).appearenceNumber = bytes.count byte from same]
    exact Nat.lt_of_le_of_lt List.count_le_length small
  have storedFew : ((tableOf (compressed bytes tree)).filter appears).length < fuel := by
    have bound := List.length_filter_le appears (tableOf (compressed bytes tree))
    rw [length_tableOf] at bound
    omega
  have opened := InFile.rest_opened
    (((tableOf (compressed bytes tree)).filter appears).flatMap (configBytes layout) ++
      layout.toBytes ⟨ch, -1⟩ ++ packed)
  rcases configLoop_spec layout _ storedSmall target opened unset fuel storedFew with
    ⟨file, configRan, ahead⟩
  -- The same tree is built.
  have again := ofArray_map ignores_erase fuel (tableOf (changeAll FileInformation.ch restore
    target ((tableOf (compressed bytes tree)).filter appears))) (.ofNumber 0)
  rw [erase_restored (erase_compressed bytes tree) reads,
    show erase (.ofNumber 0) = .ofNumber 0 from rfl, made] at again
  rcases Outcome.map_eq_ok again.symm with ⟨rebuilt, remade, rfl⟩
  rcases known.total with ⟨root, loaded, total⟩
  have rootLoaded : (rebuilt.heap.load rebuilt.root).map (TreeNode.map erase) = .ok root := by
    rw [← Store.load_map]
    exact loaded
  rcases Outcome.map_eq_ok rootLoaded with ⟨rt, rtLoaded, rfl⟩
  have isTotal : (Int64.ofNat rt.data.appearenceNumber).toInt = bytes.length := by
    have number : rt.data.appearenceNumber % 2 ^ 64 = bytes.length % 2 ^ 64 := total
    rw [ofNat_mod number, Int64.toInt_ofNat_of_lt small]
  refine ⟨file, tableOf (changeAll FileInformation.ch restore target
    ((tableOf (compressed bytes tree)).filter appears)),
    (compressFileName filePath).take p ++ "1.txt".toList, ahead, ?_⟩
  rw [show (rebuilt.map erase).root = rebuilt.root from rfl,
    show (rebuilt.map erase).heap = rebuilt.heap.map (TreeNode.map erase) from rfl,
    decodePass_erase, unCompress_built layout dot suffix configRan remade rtLoaded, isTotal]

/-- What a table reads from the compressed file is the file. -/
theorem unCompress_spec (unset : ConfigInfo) (filePath : List Char)
    {bytes : List Byte} (several : ∃ first ∈ bytes, ∃ second ∈ bytes, first ≠ second)
    (small : bytes.length < 2 ^ 63) {built : HuffmanTree FileInformation}
    {tree : AddrTree FileInformation} {fuel : Nat} (enough : 512 * (bytes.length + 1) ≤ fuel)
    (made : ofArray FileInformation.operators fuel (tableOf (counts bytes)) (.ofNumber 0) =
      .ok built) (known : CountTree bytes built tree) {packed : List Byte} {padding : List Bool}
    (packedBits : stream packed = (digits (compressed bytes tree) bytes).map isOne ++ padding)
    (compressUnset : ConfigInfo) {target : Byte → FileInformation} (reads : Reads bytes target) :
    ∃ after newfile, unCompress layout fuel unset (tableOf target) (compressFileName filePath)
      (configurationFileInformation layout compressUnset (tableOf (compressed bytes tree)) ++
        packed) = .ok (after, some (newfile, bytes)) := by
  have nonempty : bytes ≠ [] := by
    rcases several with ⟨first, firstMem, _⟩
    exact List.ne_nil_of_mem firstMem
  rcases unCompress_decodes layout unset filePath nonempty small enough made known packed
    compressUnset reads with ⟨file, after, newfile, ahead, decodes⟩
  have more : packed ≠ [] := by
    intro isNil
    rw [isNil, stream_nil] at packedBits
    have noDigits := (List.append_eq_nil_iff.mp packedBits.symm).1
    rcases List.exists_mem_of_ne_nil bytes nonempty with ⟨first, firstMem⟩
    have code := code_of_mem known several firstMem
    have isEmpty := List.flatMap_eq_nil_iff.mp (List.map_eq_nil_iff.mp noDigits) first firstMem
    exact code.2 isEmpty
  rcases List.exists_cons_of_ne_nil more with ⟨byte, rest, rfl⟩
  rcases InFile.fgetc_of_cons ahead with ⟨next, got, nextAhead, _⟩
  have available : Available ⟨built.root, bytes.length, 7, byte, next, []⟩
      ((digits (compressed bytes tree) bytes).map isOne ++ padding) := by
    have whole : upcoming ⟨built.root, bytes.length, 7, byte, next, []⟩ = stream (byte :: rest) := by
      rw [stream_cons, ← nextAhead]
      rfl
    refine ⟨Int.natCast_nonneg 7, Int.le_refl 7, ?_⟩
    rw [whole, packedBits]
  have decodeEnough : (digits (compressed bytes tree) bytes).length ≤ fuel := by
    have bound := length_digits known several
    omega
  have decoded := decodeLoop_spec known.represents.linked nonempty
    (fun other member => code_of_mem known several member) known.represents.root_eq rfl available
    fuel decodeEnough
  rw [← known.represents.root_eq] at decoded
  refine ⟨after, newfile, ?_⟩
  rw [decodes, got, toChar_toNat, decoded]
  rfl

/-- Decompressing a compressed file gives the file, with the object that compressed it and
with a new one. -/
theorem unCompress_compress (unset uncompressUnset : ConfigInfo)
    (filePath : List Char) (other : compressFileName filePath ≠ filePath) (bytes : List Byte)
    (several : ∃ first ∈ bytes, ∃ second ∈ bytes, first ≠ second) (small : bytes.length < 2 ^ 63)
    (fuel : Nat) (enough : 512 * (bytes.length + 1) ≤ fuel) :
    ∃ object content, compress layout fuel unset filePath bytes =
        .ok (object, compressFileName filePath, content) ∧
      ∀ target, target = object ∨ target = new →
        ∃ after newfile, unCompress layout fuel uncompressUnset target (compressFileName filePath)
          content = .ok (after, some (newfile, bytes)) := by
  have nonempty : bytes ≠ [] := by
    rcases several with ⟨first, firstMem, _⟩
    exact List.ne_nil_of_mem firstMem
  rcases compress_spec layout unset filePath other nonempty fuel enough with
    ⟨built, tree, packed, made, known, ran, count, _, packedBits⟩
  rw [digits_last, List.map_append, List.append_assoc] at packedBits
  refine ⟨_, _, ran, ?_⟩
  intro target isTarget
  rcases isTarget with rfl | rfl
  · exact unCompress_spec layout uncompressUnset filePath several small enough made known packedBits
      unset (reads_compressed bytes tree)
  · rw [new_eq]
    exact unCompress_spec layout uncompressUnset filePath several small enough made known packedBits
      unset (reads_new bytes)

theorem unCompress_compress_small :
    ∃ object content, compress ConfigInfo.layout 4096 ⟨0, 0⟩ "a.txt".toList [97, 98, 97] =
        .ok (object, compressFileName "a.txt".toList, content) ∧
      ∀ target, target = object ∨ target = new →
        ∃ after newfile, unCompress ConfigInfo.layout 4096 ⟨0, 0⟩ target (compressFileName "a.txt".toList)
          content = .ok (after, some (newfile, [97, 98, 97])) :=
  unCompress_compress ConfigInfo.layout ⟨0, 0⟩ ⟨0, 0⟩ "a.txt".toList (by decide) [97, 98, 97]
    ⟨97, by decide, 98, by decide, by decide⟩ (by decide) 4096 (by decide)

end DataStructAlgorithm.FileComPress.FileCompress
