import DataStructAlgorithm.Foundation.Text

/-! # Programs that read and write bytes

A program between two bounded channels, as it looks from outside: it reads a byte, writes one, or
exits. What it does depends on the bytes that it reads. -/

namespace DataStructAlgorithm.Foundation

inductive ByteProgram
  | read (next : Byte → ByteProgram)
  | write (byte : Byte) (rest : ByteProgram)
  | exit

namespace ByteProgram

/-- What the program writes before it exits or wants to read beyond the input. -/
def outputOn : ByteProgram → List Byte → List Byte
  | .read _, [] => []
  | .read next, byte :: input => (next byte).outputOn input
  | .write byte rest, input => byte :: rest.outputOn input
  | .exit, _ => []

/-- How many steps it takes until then. -/
def stepsOn : ByteProgram → List Byte → Nat
  | .read _, [] => 0
  | .read next, byte :: input => (next byte).stepsOn input + 1
  | .write _ rest, input => rest.stepsOn input + 1
  | .exit, _ => 1

/-- The program exits without reading beyond the input. -/
def Ends : ByteProgram → List Byte → Prop
  | .read _, [] => False
  | .read next, byte :: input => (next byte).Ends input
  | .write _ rest, input => rest.Ends input
  | .exit, _ => True

/-- The program exits, and whoever writes the whole input before it reads any output is not held
up by it: when the output channel is full for the first time, what is left of the input fits in
the input channel, and if that never happens all of the input is read. -/
def Completes (capacity : Nat) : ByteProgram → (written : Nat) → List Byte → Prop
  | .read _, _, [] => False
  | .read next, written, byte :: input => (next byte).Completes capacity written input
  | .write _ rest, written, input => (written = capacity → input.length ≤ capacity) ∧
      rest.Completes capacity (written + 1) input
  | .exit, written, input => input = [] ∨ capacity < written

instance Completes.decidable (capacity : Nat) : (program : ByteProgram) → (written : Nat) →
    (input : List Byte) → Decidable (program.Completes capacity written input)
  | .read _, _, [] => isFalse id
  | .read next, written, byte :: input =>
      Completes.decidable capacity (next byte) written input
  | .write _ rest, written, input =>
      have := Completes.decidable capacity rest (written + 1) input
      inferInstanceAs (Decidable ((written = capacity → input.length ≤ capacity) ∧
        rest.Completes capacity (written + 1) input))
  | .exit, written, input => inferInstanceAs (Decidable (input = [] ∨ capacity < written))

theorem Completes.ends {capacity written : Nat} {program : ByteProgram} {input : List Byte}
    (completes : program.Completes capacity written input) : program.Ends input := by
  induction program generalizing written input with
  | read next induction =>
      cases input with
      | nil => exact completes.elim
      | cons byte input => exact induction byte completes
  | write byte rest induction => exact induction completes.2
  | exit => trivial

/-- Behind a full output channel, a program that exits completes. -/
theorem Ends.completes {capacity written : Nat} {program : ByteProgram} {input : List Byte}
    (ends : program.Ends input) (beyond : capacity < written) :
    program.Completes capacity written input := by
  induction program generalizing written input with
  | read next induction =>
      cases input with
      | nil => exact ends.elim
      | cons byte input => exact induction byte ends beyond
  | write byte rest induction =>
      exact ⟨fun full => absurd full (by omega), induction ends (by omega)⟩
  | exit => exact Or.inr beyond

/-- Without an input a program completes if it exits without reading. -/
theorem completes_nil {capacity written : Nat} {program : ByteProgram} :
    program.Completes capacity written [] ↔ program.Ends [] := by
  induction program generalizing written with
  | read next induction => rfl
  | write byte rest induction =>
      exact ⟨fun completes => induction.mp completes.2,
        fun ends => ⟨fun _ => Nat.zero_le _, induction.mpr ends⟩⟩
  | exit => exact ⟨fun _ => trivial, fun _ => Or.inl rfl⟩

/-! ## Programs that read everything before they write -/

/-- Reads some bytes, one after the other. -/
def readMany : Nat → (List Byte → ByteProgram) → ByteProgram
  | 0, next => next []
  | count + 1, next => .read fun byte => readMany count fun bytes => next (byte :: bytes)

/-- Writes a text. -/
def print : List Byte → ByteProgram → ByteProgram
  | [], rest => rest
  | byte :: text, rest => .write byte (print text rest)

theorem outputOn_readMany (bytes input : List Byte) (next : List Byte → ByteProgram) :
    (readMany bytes.length next).outputOn (bytes ++ input) = (next bytes).outputOn input := by
  induction bytes generalizing next with
  | nil => rfl
  | cons byte bytes induction => exact induction fun others => next (byte :: others)

theorem completes_readMany {capacity written : Nat} {bytes input : List Byte}
    {next : List Byte → ByteProgram} :
    (readMany bytes.length next).Completes capacity written (bytes ++ input) ↔
      (next bytes).Completes capacity written input := by
  induction bytes generalizing next with
  | nil => rfl
  | cons byte bytes induction => exact induction

theorem outputOn_print (text : List Byte) (rest : ByteProgram) (input : List Byte) :
    (print text rest).outputOn input = text ++ rest.outputOn input := by
  induction text with
  | nil => rfl
  | cons byte text induction => exact congrArg (byte :: ·) induction

/-- Behind the input nothing holds a program up that only writes. -/
theorem completes_print (capacity written : Nat) (text : List Byte) :
    (print text .exit).Completes capacity written [] := by
  induction text generalizing written with
  | nil => exact Or.inl rfl
  | cons byte text induction => exact ⟨fun _ => Nat.zero_le _, induction (written + 1)⟩

theorem ends_print {text input : List Byte} {rest : ByteProgram} :
    (print text rest).Ends input ↔ rest.Ends input := by
  induction text with
  | nil => rfl
  | cons byte text induction => exact induction

end ByteProgram

end DataStructAlgorithm.Foundation
