import DataStructAlgorithm.Foundation.Lines

/-! # Lines in pieces

A reader with a bounded buffer cuts a stream of bytes into pieces. A piece ends behind a line
end or when the buffer is full. Every line end becomes a single line feed. -/

namespace DataStructAlgorithm.Foundation

/-- Every carriage return, together with a line feed directly behind it, becomes a line feed. -/
def normalise : List Byte → List Byte
  | [] => []
  | [byte] => [if byte = carriageReturn then lineFeed else byte]
  | byte :: next :: rest =>
      if byte = carriageReturn ∧ next = lineFeed then lineFeed :: normalise rest
      else (if byte = carriageReturn then lineFeed else byte) :: normalise (next :: rest)

/-- What is left behind a carriage return when it takes a line feed with it. -/
def behindReturn (stream : List Byte) : List Byte :=
  if stream.head? = some lineFeed then stream.tail else stream

/-- The next piece of at most `bound` bytes, and what is left of the stream. -/
def takePiece : (bound : Nat) → List Byte → List Byte × List Byte
  | 0, stream => ([], stream)
  | _ + 1, [] => ([], [])
  | bound + 1, byte :: rest =>
      if byte = carriageReturn then ([lineFeed], behindReturn rest)
      else if byte = lineFeed then ([lineFeed], rest)
      else (byte :: (takePiece bound rest).1, (takePiece bound rest).2)

theorem normalise_return (rest : List Byte) :
    normalise (carriageReturn :: rest) = lineFeed :: normalise (behindReturn rest) := by
  cases rest with
  | nil => rfl
  | cons next rest =>
      by_cases isFeed : next = lineFeed
      · simp [normalise, behindReturn, isFeed]
      · simp [normalise, behindReturn, isFeed]

theorem normalise_other {byte : Byte} (notReturn : byte ≠ carriageReturn) (rest : List Byte) :
    normalise (byte :: rest) = byte :: normalise rest := by
  cases rest with
  | nil => simp [normalise, notReturn]
  | cons next rest => simp [normalise, notReturn]

theorem length_behindReturn_le (stream : List Byte) :
    (behindReturn stream).length ≤ stream.length := by
  rw [behindReturn]
  split
  · rw [List.length_tail]
    omega
  · exact Nat.le_refl _

section TakePiece

variable {bound : Nat} {stream : List Byte}

/-- A property of pieces, by the way a piece is taken. -/
theorem takePiece_induction (holds : Nat → List Byte → List Byte × List Byte → Prop)
    (full : ∀ stream, holds 0 stream ([], stream))
    (ended : ∀ bound, holds (bound + 1) [] ([], []))
    (atReturn : ∀ bound rest, holds (bound + 1) (carriageReturn :: rest)
      ([lineFeed], behindReturn rest))
    (atFeed : ∀ bound rest, holds (bound + 1) (lineFeed :: rest) ([lineFeed], rest))
    (plain : ∀ bound byte rest piece left, byte ≠ carriageReturn → byte ≠ lineFeed →
      holds bound rest (piece, left) → holds (bound + 1) (byte :: rest) (byte :: piece, left))
    (bound : Nat) (stream : List Byte) : holds bound stream (takePiece bound stream) := by
  induction bound generalizing stream with
  | zero => exact full stream
  | succ bound induction =>
      cases stream with
      | nil => exact ended bound
      | cons byte rest =>
          rw [takePiece]
          split
          · rename_i isReturn
            rw [isReturn]
            exact atReturn bound rest
          · rename_i notReturn
            split
            · rename_i isFeed
              rw [isFeed]
              exact atFeed bound rest
            · rename_i notFeed
              exact plain bound byte rest _ _ notReturn notFeed (induction rest)

/-- A piece is the beginning of the normalised stream. -/
theorem takePiece_append (bound : Nat) (stream : List Byte) :
    normalise stream = (takePiece bound stream).1 ++ normalise (takePiece bound stream).2 := by
  refine takePiece_induction
    (fun _ stream taken => normalise stream = taken.1 ++ normalise taken.2) ?_ ?_ ?_ ?_ ?_ bound stream
  · intro stream
    rfl
  · intro bound
    rfl
  · intro bound rest
    exact normalise_return rest
  · intro bound rest
    exact normalise_other (by decide) rest
  · intro bound byte rest piece left notReturn notFeed induction
    rw [normalise_other notReturn, induction]
    rfl

theorem length_takePiece_le (bound : Nat) (stream : List Byte) :
    (takePiece bound stream).1.length ≤ bound := by
  refine takePiece_induction (fun bound _ taken => taken.1.length ≤ bound) ?_ ?_ ?_ ?_ ?_ bound stream
  · intro stream
    exact Nat.le_refl 0
  · intro bound
    exact Nat.zero_le _
  · intro bound rest
    exact Nat.le_add_left 1 bound
  · intro bound rest
    exact Nat.le_add_left 1 bound
  · intro bound byte rest piece left _ _ induction
    exact Nat.succ_le_succ induction

/-- Only the last byte of a piece can be a line feed. -/
theorem lineFeed_not_mem_dropLast (bound : Nat) (stream : List Byte) :
    lineFeed ∉ (takePiece bound stream).1.dropLast := by
  refine takePiece_induction (fun _ _ taken => lineFeed ∉ taken.1.dropLast) ?_ ?_ ?_ ?_ ?_ bound stream
  · intro stream
    exact List.not_mem_nil
  · intro bound
    exact List.not_mem_nil
  · intro bound rest
    exact List.not_mem_nil
  · intro bound rest
    exact List.not_mem_nil
  · intro bound byte rest piece left _ notFeed induction
    cases piece with
    | nil => exact List.not_mem_nil
    | cons first others =>
        intro member
        rw [List.dropLast_cons_of_ne_nil (List.cons_ne_nil first others)] at member
        rcases List.mem_cons.mp member with isByte | isLater
        · exact notFeed isByte.symm
        · exact induction isLater

/-- A piece without a line end fills the buffer or takes all that is left. -/
theorem takePiece_full (bound : Nat) (stream : List Byte)
    (notEnded : (takePiece bound stream).1.getLast? ≠ some lineFeed) :
    (takePiece bound stream).1.length = bound ∨ (takePiece bound stream).2 = [] := by
  revert notEnded
  refine takePiece_induction (fun bound _ taken => taken.1.getLast? ≠ some lineFeed →
    taken.1.length = bound ∨ taken.2 = []) ?_ ?_ ?_ ?_ ?_ bound stream
  · intro stream _
    exact Or.inl rfl
  · intro bound _
    exact Or.inr rfl
  · intro bound rest notEnded
    exact absurd rfl notEnded
  · intro bound rest notEnded
    exact absurd rfl notEnded
  · intro bound byte rest piece left _ notFeed induction notEnded
    cases piece with
    | nil =>
        rcases induction (by simp) with isFull | isEnd
        · exact Or.inl (congrArg (· + 1) isFull)
        · exact Or.inr isEnd
    | cons first others =>
        rw [List.getLast?_cons_cons] at notEnded
        rcases induction notEnded with isFull | isEnd
        · exact Or.inl (congrArg (· + 1) isFull)
        · exact Or.inr isEnd

/-- Every byte of a piece has been taken from the stream. -/
theorem length_takePiece_add_le (bound : Nat) (stream : List Byte) :
    (takePiece bound stream).1.length + (takePiece bound stream).2.length ≤ stream.length := by
  refine takePiece_induction
    (fun _ stream taken => taken.1.length + taken.2.length ≤ stream.length) ?_ ?_ ?_ ?_ ?_ bound stream
  · intro stream
    simp
  · intro bound
    simp
  · intro bound rest
    have shorter := length_behindReturn_le rest
    simp only [List.length_cons, List.length_nil]
    omega
  · intro bound rest
    simp only [List.length_cons, List.length_nil]
    omega
  · intro bound byte rest piece left _ _ induction
    simp only [List.length_cons] at induction ⊢
    omega

theorem takePiece_eq_nil (positive : 0 < bound) (empty : (takePiece bound stream).1 = []) :
    stream = [] := by
  rcases Nat.exists_eq_succ_of_ne_zero (Nat.ne_of_gt positive) with ⟨bound, rfl⟩
  cases stream with
  | nil => rfl
  | cons byte rest =>
      rw [takePiece] at empty
      split at empty
      · cases empty
      · split at empty
        · cases empty
        · cases empty

/-- A line that fits with its end is taken as a whole, of a longer line only what fits. -/
theorem takePiece_line {content : List Byte} (unbroken : Unbroken content) (bound : Nat)
    (rest : List Byte) :
    takePiece bound (content ++ carriageReturn :: lineFeed :: rest) =
      if content.length < bound then (content ++ [lineFeed], rest)
      else (content.take bound, content.drop bound ++ carriageReturn :: lineFeed :: rest) := by
  induction content generalizing bound with
  | nil =>
      cases bound with
      | zero => rfl
      | succ bound => rfl
  | cons byte content induction =>
      rw [unbroken_cons] at unbroken
      cases bound with
      | zero => rfl
      | succ bound =>
          rw [List.cons_append, takePiece, if_neg unbroken.1.1, if_neg unbroken.1.2,
            induction unbroken.2]
          by_cases fits : content.length < bound
          · simp [fits]
          · simp [fits]

end TakePiece

end DataStructAlgorithm.Foundation
