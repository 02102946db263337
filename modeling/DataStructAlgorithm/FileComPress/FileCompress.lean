import DataStructAlgorithm.Foundation.Bits
import DataStructAlgorithm.Foundation.InFile
import DataStructAlgorithm.FileComPress.HuffmanTree

/-! # The file compression of `FileComPress/filecompress.h`

A file is the list of its bytes and two files with different names are different. A code
is the list of its characters. The destructor of the tree is left out. -/

namespace DataStructAlgorithm.FileComPress

open Foundation

structure FileInformation where
  appearenceNumber : Nat
  huffmanCode : List Char
  ch : Byte
  deriving DecidableEq, Repr

namespace FileInformation

/-- `FileInformation(size_t)` -/
def ofNumber (sz : Nat) : FileInformation :=
  ⟨sz, [], 0⟩

/-- The operators of the class, which are those of the numbers. A sum is a `size_t`. -/
def operators : Operators FileInformation where
  lt := fun left right => decide (left.appearenceNumber < right.appearenceNumber)
  add := fun left right =>
    ofNumber ((left.appearenceNumber + right.appearenceNumber) % 2 ^ 64)
  ne := fun left right => left.appearenceNumber != right.appearenceNumber
  value := FileInformation.appearenceNumber
  lt_iff := by simp
  ne_iff := by simp

end FileInformation

structure ConfigInfo where
  ch : Byte
  count : Int64
  deriving DecidableEq

/-- The layout of a 64-bit machine, with seven bytes of padding. -/
def ConfigInfo.layout : Layout ConfigInfo 16 where
  toBytes := fun info => info.ch :: (List.replicate 7 0 ++ Layout.littleEndian.toBytes info.count)
  ofBytes := fun bytes => ⟨bytes.headD 0, Layout.littleEndian.ofBytes (bytes.drop 8)⟩
  length_toBytes := by simp [Layout.length_toBytes]
  ofBytes_toBytes := by
    intro info
    rw [List.drop_succ_cons, List.drop_left' List.length_replicate, Layout.ofBytes_toBytes]
    rfl

namespace FileCompress

variable {size : Nat} (layout : Layout ConfigInfo size)

/-- The member `_fileinfo` after `FileCompress()`. -/
def new : List FileInformation :=
  (List.range 256).map fun i => ⟨0, [], UInt8.ofNat i⟩

/-! ## Counting -/

/-- One pass of the loop that counts the bytes of the file. -/
def countPass (state : List FileInformation × InFile × Byte) :
    Outcome (Pass (List FileInformation × InFile × Byte) (List FileInformation × InFile)) :=
  match state with
  | (fileinfo, file, ch) =>
      if file.eof then .ok (.leave (fileinfo, file))
      else do
        let info ← readAt fileinfo ch.toNat
        let fileinfo ← writeAt fileinfo ch.toNat
          { info with appearenceNumber := info.appearenceNumber + 1 }
        let (value, file) := file.fgetc
        pure (.again (fileinfo, file, toChar value))

def countBytes (fuel : Nat) (fileinfo : List FileInformation) (file : InFile) :
    Outcome (List FileInformation × InFile) :=
  let (value, file) := file.fgetc
  repeatLoop countPass fuel (fileinfo, file, toChar value)

/-! ## Codes -/

/-- `node->_wt._huffman_code += node->_prev->_wt._huffman_code` and the digit after it. -/
def extendCode (nodes : Store (HuffmanNode FileInformation)) (address : Nat) (digit : Char) :
    Outcome (Store (HuffmanNode FileInformation)) := do
  let node ← nodes.load (some address)
  let prev ← nodes.load node.parent
  nodes.assign (some address) (.updateData fun info =>
    { info with huffmanCode := info.huffmanCode ++ prev.data.huffmanCode ++ [digit] })

/-- The same for a child that can be missing. -/
def extendChild (nodes : Store (HuffmanNode FileInformation)) (child : Ptr) (digit : Char) :
    Outcome (Store (HuffmanNode FileInformation)) :=
  match child with
  | none => .ok nodes
  | some address => extendCode nodes address digit

/-- The variables of `Conversion`. -/
structure Walking where
  node : Ptr
  stack : List Nat
  nodes : Store (HuffmanNode FileInformation)
  fileinfo : List FileInformation

/-- One pass of the inner loop, which follows the left links. -/
def descendPass (state : Ptr × List Nat × Store (HuffmanNode FileInformation)) :
    Outcome (Pass (Ptr × List Nat × Store (HuffmanNode FileInformation))
      (List Nat × Store (HuffmanNode FileInformation))) :=
  match state with
  | (none, stack, nodes) => .ok (.leave (stack, nodes))
  | (some address, stack, nodes) => do
      let node ← nodes.load (some address)
      let nodes ← extendChild nodes node.left '0'
      pure (.again (node.left, address :: stack, nodes))

/-- `_fileinfo[value]._huffman_code = huffman_node->_wt._huffman_code` -/
def recordCode (fileinfo : List FileInformation) (wt : FileInformation) :
    Outcome (List FileInformation) := do
  let info ← readAt fileinfo wt.ch.toNat
  writeAt fileinfo wt.ch.toNat { info with huffmanCode := wt.huffmanCode }

/-- One pass of `while (huffman_node || !s_hf.empty())`. -/
def conversionPass (fuel : Nat) (state : Walking) :
    Outcome (Pass Walking (List FileInformation)) :=
  if state.node.isNone && state.stack.isEmpty then .ok (.leave state.fileinfo)
  else do
    match ← repeatLoop descendPass fuel (state.node, state.stack, state.nodes) with
    | ([], _) => .error .outOfRange
    | (front :: stack, nodes) => do
        let node ← nodes.load (some front)
        let fileinfo ←
          (if node.left = none ∧ node.right = none then recordCode state.fileinfo node.data
          else pure state.fileinfo)
        let nodes ← extendChild nodes node.right '1'
        pure (.again ⟨node.right, stack, nodes, fileinfo⟩)

/-- `Conversion` -/
def conversion (fuel : Nat) (tree : HuffmanTree FileInformation)
    (fileinfo : List FileInformation) : Outcome (List FileInformation) :=
  match tree.root with
  | none => .ok fileinfo
  | some _ => repeatLoop (conversionPass fuel) fuel ⟨tree.root, [], tree.heap, fileinfo⟩

/-! ## The compressed file -/

/-- The body of the loop of `ConfigurationFileInformation`: the variable `info` and the
bytes written. -/
def configStep (state : ConfigInfo × List Byte) (entry : FileInformation) :
    ConfigInfo × List Byte :=
  if entry.appearenceNumber ≠ 0 then
    let info := ⟨entry.ch, Int64.ofNat entry.appearenceNumber⟩
    (info, state.2 ++ layout.toBytes info)
  else state

/-- `ConfigurationFileInformation`; `unset` is what the variable `info` holds at first. -/
def configurationFileInformation (unset : ConfigInfo)
    (fileinfo : List FileInformation) : List Byte :=
  let (info, bytes) := fileinfo.foldl (configStep layout) (unset, [])
  bytes ++ layout.toBytes { info with count := -1 }

/-- The variables `current_value` and `pos` of `CompressToFile`, and the bytes written. -/
structure Packing where
  currentValue : Byte
  pos : Nat
  output : List Byte

/-- One pass of the loop over the characters of a code. -/
def packDigit (state : Packing) (digit : Char) : Packing :=
  let currentValue :=
    if '1' = digit then shiftBy state.currentValue 1 ||| 1 else shiftBy state.currentValue 1
  if state.pos + 1 = 8 then ⟨0, 0, state.output ++ [currentValue]⟩
  else ⟨currentValue, state.pos + 1, state.output⟩

/-- One pass of `while (!feof(fop))`. -/
def packPass (fileinfo : List FileInformation) (state : InFile × Packing) :
    Outcome (Pass (InFile × Packing) Packing) :=
  match state with
  | (file, packing) =>
      if file.eof then .ok (.leave packing)
      else do
        let (value, file) := file.fgetc
        let info ← readAt fileinfo (toChar value).toNat
        pure (.again (file, info.huffmanCode.foldl packDigit packing))

/-- The last byte of `CompressToFile`. -/
def finishPacking (state : Packing) : List Byte :=
  if state.pos ≠ 0 then state.output ++ [shiftBy state.currentValue (8 - state.pos)]
  else state.output

/-- `CompressToFile` -/
def compressToFile (fuel : Nat) (fileinfo : List FileInformation) (file : InFile) :
    Outcome (List Byte) := do
  let packing ← repeatLoop (packPass fileinfo) fuel (file.seek 0, ⟨0, 0, []⟩)
  pure (finishPacking packing)

/-- The name of the compressed file. -/
def compressFileName (filePath : List Char) : List Char :=
  filePath.takeWhile (fun char => char ≠ '.') ++ ".hzp".toList

/-- The constructor `FileCompress(filePath)` for a file with the given content. It makes
the object, and a file with a name and a content. -/
def compress (fuel : Nat) (unset : ConfigInfo) (filePath : List Char)
    (content : List Byte) : Outcome (List FileInformation × List Char × List Byte) := do
  -- A file that is its own compressed file is emptied when that one is opened.
  let content := if compressFileName filePath = filePath then [] else content
  let (fileinfo, file) ← countBytes fuel new (.opened content)
  let ht ← HuffmanTree.ofArray FileInformation.operators fuel fileinfo (.ofNumber 0)
  let fileinfo ← conversion fuel ht fileinfo
  let packed ← compressToFile fuel fileinfo file
  pure (fileinfo, compressFileName filePath,
    configurationFileInformation layout unset fileinfo ++ packed)

/-! ## Decompression -/

/-- One pass of the loop that reads the counts. -/
def configPass (state : List FileInformation × InFile × ConfigInfo) :
    Outcome (Pass (List FileInformation × InFile × ConfigInfo)
      (List FileInformation × InFile)) :=
  match state with
  | (fileinfo, file, info) => do
      let (bytes, file) := file.fread size
      let info := if bytes.length = size then layout.ofBytes bytes else info
      if info.count = -1 then pure (.leave (fileinfo, file))
      else do
        let entry ← readAt fileinfo info.ch.toNat
        let fileinfo ← writeAt fileinfo info.ch.toNat
          { entry with ch := info.ch, appearenceNumber := info.count.toUInt64.toNat }
        pure (.again (fileinfo, file, info))

/-- The variables of the decoding loop. -/
structure Decoding where
  cur : Ptr
  totalNum : Int
  pos : Int
  value : Byte
  file : InFile
  output : List Byte

/-- The last statement of the loop reads the next byte when the bits are used up. -/
def refill (state : Decoding) : Decoding :=
  if state.pos < 0 then
    let (value, file) := state.file.fgetc
    { state with value := toChar value, pos := 7, file := file }
  else state

/-- `--total_num`, which is not defined for the least number of 64 bits. -/
def countDown (totalNum : Int) : Outcome Int :=
  if totalNum = -2 ^ 63 then .error .outOfRange else .ok (totalNum - 1)

/-- One pass of the decoding loop. -/
def decodePass (nodes : Store (HuffmanNode FileInformation)) (root : Ptr) (state : Decoding) :
    Outcome (Pass Decoding (List Byte)) := do
  let node ← nodes.load state.cur
  let cur := if bitAt state.value state.pos.toNat then node.right else node.left
  let pos := state.pos - 1
  let node ← nodes.load cur
  if node.left = none ∧ node.right = none then do
    let output := state.output ++ [node.data.ch]
    let totalNum ← countDown state.totalNum
    if totalNum = 0 then pure (.leave output)
    else pure (.again (refill
      { state with cur := root, totalNum := totalNum, pos := pos, output := output }))
  else pure (.again (refill { state with cur := cur, pos := pos }))

/-- `unCompress`, called on an object. The result is the changed object and the new file,
if there is one. -/
def unCompress (fuel : Nat) (unset : ConfigInfo)
    (fileinfo : List FileInformation) (filename : List Char) (content : List Byte) :
    Outcome (List FileInformation × Option (List Char × List Byte)) :=
  match filename.findIdx? (fun char => char = '.') with
  | none => .error .outOfRange
  | some p =>
      if (filename.drop p).take 4 ≠ ".hzp".toList then .ok (fileinfo, none)
      else do
        let newfile := filename.take p ++ "1.txt".toList
        let (fileinfo, file) ← repeatLoop (configPass layout) fuel
          (fileinfo, .opened content, unset)
        let ht ← HuffmanTree.ofArray FileInformation.operators fuel fileinfo (.ofNumber 0)
        let rt ← ht.heap.load ht.root
        let totalNum := (Int64.ofNat rt.data.appearenceNumber).toInt
        let (value, file) := file.fgetc
        let output ← repeatLoop (decodePass ht.heap ht.root) fuel
          ⟨ht.root, totalNum, 7, toChar value, file, []⟩
        pure (fileinfo, some (newfile, output))

end FileCompress

end DataStructAlgorithm.FileComPress
