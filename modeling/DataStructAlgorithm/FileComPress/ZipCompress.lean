import Mathlib.Data.Int.Bitwise
import DataStructAlgorithm.Foundation.Bits
import DataStructAlgorithm.Foundation.InFile
import DataStructAlgorithm.Foundation.Outcome
import DataStructAlgorithm.Foundation.Slots

/-! # The compression of `FileComPress/zipCompress.h`

The repetitions of a file are searched in a window, and a token is written for each of
them or for a single byte. Values of the types `int` and `long` are integers, and values of
the type `size_t` are natural numbers below `2 ^ 64`. A shift by a negative number is a
fault. -/

namespace DataStructAlgorithm.FileComPress.ZipCompress

open Foundation

/-- `N` -/
def windowSize : Nat := 2 * 32 * 1024

/-- `SlipBlock` -/
def slipBlock : Int := 32 * 1024

/-- The conversion to `size_t`. -/
def toSizeT (value : Int) : Nat := (value % 2 ^ 64).toNat

/-- The conversion of a `size_t` to `long`. -/
def toLong (value : Nat) : Int := (value : Int).bmod (2 ^ 64)

/-- The values of `flag` in `while (flag >= 0) { .. --flag; }`. -/
def downFrom (flag : Nat) : List Nat := (List.range (flag + 1)).reverse

/-- The members `_window`, `_first` and `_last`. -/
structure Searching where
  window : List Byte
  first : Nat
  last : Nat
  deriving DecidableEq, Repr

/-! ## Repetitions -/

/-- `Getch` -/
def getch (input : InFile) (v : List Byte) : Bool × InFile × List Byte :=
  let (ch, input) := input.fgetc
  let v := v ++ [toChar ch]
  -- The condition is the assignment `ch = EOF`.
  let ch : Int := -1
  (if ch ≠ 0 then false else true, input, v)

/-- The variables of the inner loop of `getRepetionLength`. -/
structure Comparing where
  flag : Nat
  i : Nat
  length : Nat
  input : InFile
  v : List Byte

/-- One pass of the inner loop of `getRepetionLength`. -/
def comparePass (window : List Byte) (size : Nat) (state : Comparing) :
    Outcome (Pass Comparing Comparing) :=
  if state.flag < size ∧ state.length < 255 then
    let (more, input, v) :=
      if state.i = toSizeT (state.v.length - 1) then getch state.input state.v
      else (true, state.input, state.v)
    if more then do
      let slot ← readAt window state.flag
      let char ← readAt v state.i
      if slot = char then
        pure (.again ⟨state.flag + 1, state.i + 1, state.length + 1, input, v⟩)
      else pure (.leave { state with input := input, v := v })
    else .ok (.leave { state with input := input, v := v })
  else .ok (.leave state)

/-- One pass of the outer loop of `getRepetionLength`, whose variables are `index`, the file
and `v`. It is left with the length and the distance. -/
def searchPass (fuel : Nat) (object : Searching) (size : Nat) (offset distance : Int)
    (state : Nat × InFile × List Byte) :
    Outcome (Pass (Nat × InFile × List Byte) (Nat × Int × InFile)) :=
  match state with
  | (index, input, v) =>
      if index < size then do
        let slot ← readAt object.window index
        let head ← readAt v 0
        if slot = head then do
          let compared ← repeatLoop (comparePass object.window size) fuel ⟨index, 0, 0, input, v⟩
          if compared.length ≥ 3 then
            pure (.leave (compared.length,
              toLong (toSizeT (offset - (index + object.first : Nat))), compared.input))
          else pure (.again (index + 1, compared.input, compared.v))
        else pure (.again (index + 1, input, v))
      else .ok (.leave (0, distance, input))

/-- `getRepetionLength`, with the distance that it writes. -/
def getRepetionLength (fuel : Nat) (object : Searching) (input : InFile)
    (distance startWindowPos : Int) : Outcome (Nat × Int × InFile) :=
  let offset := input.ftell
  let (more, input, v) := getch input []
  if more then
    let size := toSizeT (offset - startWindowPos - 1)
    let index := toSizeT (startWindowPos - object.first)
    repeatLoop (searchPass fuel object size offset distance) fuel (index, input, v)
  else .ok (0, distance, input)

/-- One pass of the loop that fills the window. -/
def windowPass (state : Nat × InFile × List Byte) :
    Outcome (Pass (Nat × InFile × List Byte) (InFile × List Byte)) :=
  match state with
  | (i, input, window) =>
      if i < windowSize then
        let (ch, input) := input.fgetc
        if ch = -1 then .ok (.leave (input, window))
        else .ok (.again (i + 1, input, window ++ [toChar ch]))
      else .ok (.leave (input, window))

/-- `findRepetion`, with the distance that it writes. -/
def findRepetion (fuel : Nat) (object : Searching) (startWindow input : InFile) (distance : Int) :
    Outcome (Nat × Int × InFile × Searching) := do
  let offset1 := startWindow.ftell
  let offset2 := input.ftell
  let (input, object) ←
    (if toSizeT offset2 > object.last then do
      let (input, window) ← repeatLoop windowPass fuel (0, input, [])
      pure (input, ⟨window, toSizeT offset1, toSizeT (window.length + offset1)⟩)
    else pure (input, object))
  let (length, distance, input) ← getRepetionLength fuel object input distance offset1
  pure (length, distance, input, object)

/-! ## Compressing -/

/-- The variables `value` and `pos`, and the bytes written. -/
structure Writing where
  value : Byte
  pos : Int
  output : List Byte
  deriving DecidableEq, Repr

/-- A bit is set or cleared, and a full byte is written. -/
def writeBit (state : Writing) (bit : Bool) : Writing :=
  let value :=
    if bit then setBit state.value state.pos.toNat else keepFrom state.value state.pos.toNat
  let pos := state.pos - 1
  if pos < 0 then ⟨0, 7, state.output ++ [value]⟩ else ⟨value, pos, state.output⟩

/-- The bits `number & (1 << flag)` are written. -/
def writeBits (number : Int) (flags : List Nat) (state : Writing) : Writing :=
  flags.foldl (fun state flag => writeBit state (number.testBit flag)) state

/-- One pass of the loop over the bits of the length. It does not change `flag`, and it does
not write the full bytes. -/
def lengthPass (length : Nat) (state : Writing) : Outcome (Pass Writing Writing) :=
  if state.pos < 0 then .error .outOfRange
  else
    let value :=
      if length.testBit 7 then setBit state.value state.pos.toNat
      else keepFrom state.value state.pos.toNat
    .ok (.again { state with value := value, pos := state.pos - 1 })

/-- The variables of `_zipCompress`. -/
structure Zipping where
  input : InFile
  startWindow : InFile
  ch : Int
  count : Int
  writing : Writing
  object : Searching

/-- One pass of `while (!feof(f_input))`. -/
def zipPass (fuel : Nat) (state : Zipping) : Outcome (Pass Zipping Zipping) :=
  if state.input.eof then .ok (.leave state)
  else do
    let offset := state.input.ftell
    let (startWindow, distance) :=
      if offset > slipBlock then
        (state.startWindow.fseek (offset - slipBlock - 1) .start, slipBlock)
      else (state.startWindow.fseek 0 .start, offset - 1)
    let (length, distance, input, object) ←
      (if distance > 1 then do
        let input := state.input.fseek (offset - 1) .start
        let (length, distance, input, object) ←
          findRepetion fuel state.object startWindow input distance
        pure (length, distance, input.fseek offset .start, object)
      else pure (0, distance, state.input, state.object))
    let (input, writing, count) ←
      (if length ≠ 0 then do
        let input := input.fseek (length - 1) .current
        let writing := writeBits distance (downFrom 15) (writeBit state.writing true)
        let writing ← repeatLoop (lengthPass length) fuel writing
        pure (input, writing, state.count + 3)
      else
        pure (input, writeBits state.ch (downFrom 7) (writeBit state.writing false),
          state.count + 1))
    let (ch, input) := input.fgetc
    pure (.again ⟨input, startWindow, ch, count, writing, object⟩)

/-- `_zipCompress` for a file with the given content. It makes a file with a name and a
content. -/
def zipCompress (layout : Layout Int64 8) (fuel : Nat) (object : Searching)
    (filename : List Char) (content : List Byte) :
    Outcome (Searching × List Char × List Byte) := do
  let firstCompressName := filename ++ ".ipzz".toList
  let (ch, input) := (InFile.opened content).fgetc
  let state ← repeatLoop (zipPass fuel) fuel ⟨input, .opened content, ch, 0, ⟨0, 7, []⟩, object⟩
  let output :=
    if state.writing.pos ≠ 7 then state.writing.output ++ [state.writing.value]
    else state.writing.output
  pure (state.object, firstCompressName, output ++ layout.toBytes (Int64.ofInt state.count))

/-! ## Decompressing -/

/-- The variables `ch` and `pos` of `_unCompress`, and the file. -/
structure Reading where
  ch : Int
  pos : Int
  input : InFile

/-- The bit `ch & (1 << pos)`, and the step to the next one. -/
def readBit (state : Reading) : Bool × Reading :=
  let bit := state.ch.testBit state.pos.toNat
  let pos := state.pos - 1
  if pos < 0 then
    let (ch, input) := state.input.fgetc
    (bit, ⟨ch, 7, input⟩)
  else (bit, { state with pos := pos })

/-- The bits of a value are read into an `int`. -/
def readInt (flags : List Nat) (state : Reading) : Int × Reading :=
  flags.foldl (fun (number, state) flag =>
    let (bit, state) := readBit state
    (if bit then Int.lor number (1 <<< flag) else Int.land number (-(1 <<< flag)), state))
    (0, state)

/-- The bits of a value are read into a `char`. -/
def readByte (flags : List Nat) (value : Byte) (state : Reading) : Byte × Reading :=
  flags.foldl (fun (value, state) flag =>
    let (bit, state) := readBit state
    (if bit then setBit value flag else keepFrom value flag, state)) (value, state)

/-- `while (length--)` -/
def copyBytes : (length : Nat) → (startWindow : InFile) → (output : List Byte) →
    InFile × List Byte
  | 0, startWindow, output => (startWindow, output)
  | length + 1, startWindow, output =>
      let (c, startWindow) := startWindow.fgetc
      copyBytes length startWindow (output ++ [toChar c])

/-- The variables of `_unCompress`. -/
structure Unzipping where
  count : Int
  value : Byte
  reading : Reading
  startWindow : InFile
  output : List Byte

/-- One pass of `while (count > 0)`. -/
def unzipPass (state : Unzipping) : Outcome (Pass Unzipping (List Byte)) :=
  if state.count > 0 then
    let (status, reading) := readBit state.reading
    if status then
      let (distance, reading) := readInt (downFrom 15) reading
      let (length, reading) := readInt (downFrom 7) reading
      let offset := toInt state.output.length
      let startWindow := state.startWindow.fseek (offset - distance) .start
      let (startWindow, output) := copyBytes length.toNat startWindow state.output
      .ok (.again ⟨state.count - 3, state.value, reading, startWindow, output⟩)
    else
      let (value, reading) := readByte (downFrom 7) state.value reading
      .ok (.again ⟨state.count - 1, 0, reading, state.startWindow, state.output ++ [value]⟩)
  else .ok (.leave state.output)

/-- `_unCompress` for a file with the given content; `unset` is what the variable `count`
holds at first. -/
def unCompress (layout : Layout Int64 8) (fuel : Nat) (unset : Int64) (filename : List Char)
    (content : List Byte) : Outcome (List Char × List Byte) := do
  let unCompressFile := filename ++ ".uzip".toList
  let input := (InFile.opened content).fseek (-8) .finish
  let (bytes, input) := input.fread 8
  let count := if bytes.length = 8 then layout.ofBytes bytes else unset
  let (ch, input) := (input.fseek 0 .start).fgetc
  let output ← repeatLoop unzipPass fuel ⟨count.toInt, 0, ⟨ch, 7, input⟩, .opened content, []⟩
  pure (unCompressFile, output)

end DataStructAlgorithm.FileComPress.ZipCompress
