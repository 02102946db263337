import DataStructAlgorithm.Foundation.Text

/-! # Lines

Lines that end with a carriage return and a line feed, neither of which may stand
anywhere else. -/

namespace DataStructAlgorithm.Foundation

def carriageReturn : Byte := 13

def lineFeed : Byte := 10

/-- The first line of some bytes: it is complete and followed by further bytes, it
has not ended yet, or it contains a byte that it must not contain. -/
inductive Scanned
  | line (content rest : List Byte)
  | open (content : List Byte)
  | bad (content : List Byte)
  deriving DecidableEq, Repr

namespace Scanned

/-- The same with one more byte in front. -/
def push (byte : Byte) : Scanned → Scanned
  | line content rest => line (byte :: content) rest
  | .open content => .open (byte :: content)
  | bad content => bad (byte :: content)

end Scanned

/-- What comes after a carriage return. -/
def scanReturn : List Byte → Scanned
  | [] => .open []
  | next :: rest => if next = lineFeed then .line [] rest else .bad []

/-- Look for the end of the first line. -/
def scan : List Byte → Scanned
  | [] => .open []
  | byte :: rest =>
      if byte = carriageReturn then scanReturn rest
      else if byte = lineFeed then .bad []
      else (scan rest).push byte

/-- No line ends inside the bytes. -/
def Unbroken (content : List Byte) : Prop :=
  ∀ byte ∈ content, byte ≠ carriageReturn ∧ byte ≠ lineFeed

instance (content : List Byte) : Decidable (Unbroken content) :=
  inferInstanceAs (Decidable (∀ byte ∈ content, _))

theorem unbroken_nil : Unbroken [] := fun _ member => nomatch member

theorem unbroken_cons {byte : Byte} {content : List Byte} :
    Unbroken (byte :: content) ↔ (byte ≠ carriageReturn ∧ byte ≠ lineFeed) ∧ Unbroken content :=
  List.forall_mem_cons

theorem scan_push {byte : Byte} (plain : byte ≠ carriageReturn ∧ byte ≠ lineFeed)
    (rest : List Byte) : scan (byte :: rest) = (scan rest).push byte := by
  rw [scan, if_neg plain.1, if_neg plain.2]

/-- Unbroken bytes in front do not matter. -/
theorem scan_append {content : List Byte} (unbroken : Unbroken content) (rest : List Byte) :
    scan (content ++ rest) = content.foldr Scanned.push (scan rest) := by
  induction content with
  | nil => rfl
  | cons byte content induction =>
      rw [unbroken_cons] at unbroken
      rw [List.cons_append, scan_push unbroken.1, induction unbroken.2, List.foldr_cons]

theorem foldr_push_line (content line rest : List Byte) :
    content.foldr Scanned.push (.line line rest) = .line (content ++ line) rest := by
  induction content with
  | nil => rfl
  | cons byte content induction => rw [List.foldr_cons, induction]; rfl

theorem scan_line {content : List Byte} (unbroken : Unbroken content) (rest : List Byte) :
    scan (content ++ carriageReturn :: lineFeed :: rest) = .line content rest := by
  have ended : scan (carriageReturn :: lineFeed :: rest) = .line [] rest := rfl
  rw [scan_append unbroken, ended, foldr_push_line, List.append_nil]

/-- The bytes begin where a line is malformed. -/
def Malformed : List Byte → Prop
  | [] => False
  | first :: rest => first = lineFeed ∨
      first = carriageReturn ∧ ∃ next others, rest = next :: others ∧ next ≠ lineFeed

/-- What the result of a scan says about the bytes. -/
def Scanned.Describes (bytes : List Byte) : Scanned → Prop
  | line content rest =>
      Unbroken content ∧ bytes = content ++ carriageReturn :: lineFeed :: rest
  | .open content =>
      Unbroken content ∧ (bytes = content ∨ bytes = content ++ [carriageReturn])
  | bad content => Unbroken content ∧ ∃ rest, bytes = content ++ rest ∧ Malformed rest

theorem Scanned.Describes.push {bytes : List Byte} {scanned : Scanned} {byte : Byte}
    (describes : scanned.Describes bytes) (plain : byte ≠ carriageReturn ∧ byte ≠ lineFeed) :
    (scanned.push byte).Describes (byte :: bytes) := by
  cases scanned with
  | line content rest =>
      rcases describes with ⟨unbroken, rfl⟩
      exact ⟨unbroken_cons.mpr ⟨plain, unbroken⟩, rfl⟩
  | «open» content =>
      rcases describes with ⟨unbroken, rfl | rfl⟩
      · exact ⟨unbroken_cons.mpr ⟨plain, unbroken⟩, Or.inl rfl⟩
      · exact ⟨unbroken_cons.mpr ⟨plain, unbroken⟩, Or.inr rfl⟩
  | bad content =>
      rcases describes with ⟨unbroken, rest, rfl, malformed⟩
      exact ⟨unbroken_cons.mpr ⟨plain, unbroken⟩, rest, rfl, malformed⟩

theorem scanReturn_describes (bytes : List Byte) :
    (scanReturn bytes).Describes (carriageReturn :: bytes) := by
  cases bytes with
  | nil => exact ⟨unbroken_nil, Or.inr rfl⟩
  | cons next rest =>
      rw [scanReturn]
      split
      · rename_i isFeed
        exact ⟨unbroken_nil, by rw [isFeed]; rfl⟩
      · rename_i notFeed
        exact ⟨unbroken_nil, _, rfl, Or.inr ⟨rfl, next, rest, rfl, notFeed⟩⟩

theorem scan_describes (bytes : List Byte) : (scan bytes).Describes bytes := by
  induction bytes with
  | nil => exact ⟨unbroken_nil, Or.inl rfl⟩
  | cons byte bytes induction =>
      rw [scan]
      split
      · rename_i isReturn
        rw [isReturn]
        exact scanReturn_describes bytes
      · rename_i notReturn
        split
        · rename_i isFeed
          exact ⟨unbroken_nil, _, rfl, Or.inl isFeed⟩
        · rename_i notFeed
          exact induction.push ⟨notReturn, notFeed⟩

end DataStructAlgorithm.Foundation
