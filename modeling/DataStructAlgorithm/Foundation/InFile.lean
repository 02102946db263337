import DataStructAlgorithm.Foundation.Text

/-! # Values in memory

How `fwrite` stores a value of a type and how `fread` reads it back. -/

namespace DataStructAlgorithm.Foundation

structure Layout (Value : Type) (size : Nat) where
  toBytes : Value → List Byte
  ofBytes : List Byte → Value
  length_toBytes : ∀ value, (toBytes value).length = size
  ofBytes_toBytes : ∀ value, ofBytes (toBytes value) = value

/-- A `long long` with its lowest byte first. -/
def Layout.littleEndian : Layout Int64 8 where
  toBytes := fun value =>
    (List.range 8).map fun i => UInt8.ofNat (value.toUInt64.toNat / 256 ^ i)
  ofBytes := fun bytes => (UInt64.ofNat (bytes.foldr
    (fun byte number => byte.toNat + 256 * number) 0)).toInt64
  length_toBytes := by simp
  ofBytes_toBytes := by
    intro value
    have small := value.toUInt64.toNat_lt
    have number : ((List.range 8).map fun i => UInt8.ofNat (value.toUInt64.toNat / 256 ^ i)).foldr
        (fun byte number => byte.toNat + 256 * number) 0 = value.toUInt64.toNat := by
      simp only [List.range, List.range.loop, List.map_cons, List.map_nil, List.foldr_cons,
        List.foldr_nil, UInt8.toNat_ofNat']
      omega
    rw [number, UInt64.ofNat_toNat]
    rfl

end DataStructAlgorithm.Foundation

/-! ## Files that are read

A `FILE` that was opened for reading: its bytes, the position and the flag that `feof`
reads. -/

namespace DataStructAlgorithm.Foundation

structure InFile where
  content : List Byte
  position : Nat
  eof : Bool
  deriving DecidableEq, Repr

namespace InFile

/-- `fopen` -/
def opened (content : List Byte) : InFile :=
  ⟨content, 0, false⟩

/-- `fgetc`, which returns -1 at the end of the file. -/
def fgetc (file : InFile) : Int × InFile :=
  match file.content[file.position]? with
  | some byte => (byte.toNat, { file with position := file.position + 1 })
  | none => (-1, { file with eof := true })

/-- `fseek` to a position from the start, which clears the flag. -/
def seek (file : InFile) (position : Nat) : InFile :=
  { file with position := position, eof := false }

/-- Where `fseek` counts from. -/
inductive Whence
  | start
  | current
  | finish
  deriving DecidableEq, Repr

/-- `fseek`, which fails at a position before the start of the file. -/
def fseek (file : InFile) (offset : Int) (whence : Whence) : InFile :=
  let base : Nat :=
    match whence with
    | .start => 0
    | .current => file.position
    | .finish => file.content.length
  if base + offset < 0 then file
  else { file with position := (base + offset).toNat, eof := false }

/-- `ftell` -/
def ftell (file : InFile) : Int := file.position

/-- `fread` of some bytes. It reads fewer when the file ends. -/
def fread (file : InFile) (count : Nat) : List Byte × InFile :=
  let bytes := (file.content.drop file.position).take count
  (bytes, { file with
    position := file.position + bytes.length, eof := file.eof || decide (bytes.length < count) })

/-- The bytes that have not been read. -/
def rest (file : InFile) : List Byte :=
  file.content.drop file.position

variable {file : InFile}

@[simp] theorem rest_opened (content : List Byte) : (opened content).rest = content := rfl

@[simp] theorem seek_zero (file : InFile) : file.seek 0 = opened file.content := rfl

@[simp] theorem content_fgetc (file : InFile) : file.fgetc.2.content = file.content := by
  rw [fgetc]
  split <;> rfl

theorem fgetc_of_cons {byte : Byte} {bytes : List Byte} (ahead : file.rest = byte :: bytes) :
    ∃ after : InFile, file.fgetc = ((byte.toNat : Int), after) ∧ after.rest = bytes ∧
      after.eof = file.eof := by
  have found : file.content[file.position]? = some byte := by
    rw [← List.head?_drop, ← rest, ahead]
    rfl
  refine ⟨{ file with position := file.position + 1 }, ?_, ?_, rfl⟩
  · rw [fgetc, found]
  · rw [rest, ← List.drop_drop, ← rest, ahead]
    rfl

theorem position_fgetc {byte : Byte} {bytes : List Byte} (ahead : file.rest = byte :: bytes) :
    file.fgetc.2.position = file.position + 1 := by
  have found : file.content[file.position]? = some byte := by
    rw [← List.head?_drop, ← rest, ahead]
    rfl
  rw [fgetc, found]

theorem fgetc_of_nil (ended : file.rest = []) :
    ∃ after : InFile, file.fgetc = (-1, after) ∧ after.rest = [] ∧ after.eof = true := by
  have missing : file.content[file.position]? = none := by
    rw [← List.head?_drop, ← rest, ended]
    rfl
  refine ⟨{ file with eof := true }, ?_, ended, rfl⟩
  rw [fgetc, missing]

theorem fread_eq (file : InFile) (count : Nat) :
    ∃ after : InFile, file.fread count = (file.rest.take count, after) ∧
      after.rest = file.rest.drop count := by
  refine ⟨(file.fread count).2, rfl, ?_⟩
  rw [fread, rest, ← List.drop_drop, ← rest, List.length_take]
  rcases Nat.le_total count file.rest.length with enough | short
  · rw [Nat.min_eq_left enough]
  · rw [Nat.min_eq_right short, List.drop_length, List.drop_of_length_le short]

theorem fread_of_append {front bytes : List Byte} (ahead : file.rest = front ++ bytes) :
    ∃ after : InFile, file.fread front.length = (front, after) ∧ after.rest = bytes ∧
      after.eof = file.eof := by
  have taken : (file.content.drop file.position).take front.length = front := by
    rw [← rest, ahead, List.take_left']
    rfl
  refine ⟨{ file with position := file.position + front.length }, ?_, ?_, rfl⟩
  · simp [fread, taken]
  · rw [rest, ← List.drop_drop, ← rest, ahead, List.drop_left']
    rfl

end InFile

/-- The conversion of an `int` to `char`. -/
def toChar (value : Int) : Byte := UInt8.ofInt value

@[simp] theorem toChar_toNat (byte : Byte) : toChar byte.toNat = byte := by
  have small := byte.toNat_lt
  have same : ((byte.toNat : Int) % 2 ^ 8).toNat = byte.toNat := by omega
  rw [toChar, UInt8.ofInt, same, UInt8.ofNat_toNat]

end DataStructAlgorithm.Foundation
