import Mathlib.Algebra.BigOperators.Group.List.Basic
import DataStructAlgorithm.FileComPress.ZipRoundTrip

/-! # Tokens

A token is written by one branch of the compression and read by one branch of the
decompression. The length of a repetition cannot be written. -/

namespace DataStructAlgorithm.FileComPress.ZipCompress

open Foundation

inductive Token
  | literal (byte : Byte)
  | repetition (distance length : Nat)
  deriving DecidableEq, Repr

/-- Bytes from some distance before the end, which can be among the new ones. -/
def repeatBack (distance : Nat) : (length : Nat) → List Byte → List Byte
  | 0, output => output
  | length + 1, output =>
      repeatBack distance length (output ++ [output.getD (output.length - distance) 0])

namespace Token

def IsLiteral (token : Token) : Prop := ∃ byte, token = literal byte

/-- `count++` and `count += 3` -/
def count : Token → Int
  | literal _ => 1
  | repetition _ _ => 3

/-- The bytes that a token stands for are put after those that are there. -/
def expand (output : List Byte) : Token → List Byte
  | literal byte => output ++ [byte]
  | repetition distance length => repeatBack distance length output

end Token

/-! ## The branches -/

/-- The bits that a pass writes for a token. -/
def writeToken (fuel : Nat) (state : Writing) : Token → Outcome Writing
  | .literal byte => .ok (writeBits byte.toNat (downFrom 7) (writeBit state false))
  | .repetition distance length =>
      repeatLoop (lengthPass length) fuel
        (writeBits distance (downFrom 15) (writeBit state true))

/-- The token of a byte, or of the repetition that has been found. -/
def chosen (byte : Byte) (length distance : Nat) : Token :=
  if length ≠ 0 then .repetition distance length else .literal byte

theorem zipPass_token {fuel : Nat} {state : Zipping} (notEnded : state.input.eof = false)
    {byte : Byte} (isByte : state.ch = byte.toNat) {length distance : Nat} {input : InFile}
    {object : Searching}
    (found : searched fuel state = .ok (length, (distance : Int), input, object)) :
    zipPass fuel state = (do
      let writing ← writeToken fuel state.writing (chosen byte length distance)
      let input := if length ≠ 0 then input.fseek (length - 1) .current else input
      let (ch, input) := input.fgetc
      pure (.again ⟨input, (windowStart state).1, ch,
        state.count + (chosen byte length distance).count, writing, object⟩)) := by
  rw [zipPass_eq notEnded, found, Outcome.ok_bind]
  by_cases none : length = 0
  · subst none
    rw [show chosen byte 0 distance = .literal byte from rfl, writeToken, ← isByte]
    rfl
  · rw [chosen, if_pos none, writeToken]
    dsimp only
    rw [if_pos none, if_pos none]
    cases repeatLoop (lengthPass length) fuel
      (writeBits distance (downFrom 15) (writeBit state.writing true)) with
    | error fault => rfl
    | ok writing => rfl

/-- What a pass reads. -/
def readToken (value : Byte) (state : Reading) : Token × Reading :=
  let (status, state) := readBit state
  if status then
    let (distance, state) := readInt (downFrom 15) state
    let (length, state) := readInt (downFrom 7) state
    (.repetition distance.toNat length.toNat, state)
  else
    let (value, state) := readByte (downFrom 7) value state
    (.literal value, state)

theorem unzipPass_token {state : Unzipping} (more : state.count > 0) :
    ∃ next, unzipPass state = .ok (.again next) ∧
      next.reading = (readToken state.value state.reading).2 ∧
      next.count = state.count - (readToken state.value state.reading).1.count ∧
      ∀ byte, (readToken state.value state.reading).1 = .literal byte →
        next.output = state.output ++ [byte] ∧ next.value = 0 := by
  by_cases status : (readBit state.reading).1 = true
  · simp only [unzipPass, if_pos more, readToken, status, if_true]
    refine ⟨_, rfl, ?_, ?_, ?_⟩
    · dsimp only
    · dsimp only [Token.count]
    · intro byte isLiteral
      cases isLiteral
  · simp only [unzipPass, if_pos more, readToken, status, Bool.false_eq_true, if_false]
    refine ⟨_, rfl, rfl, rfl, ?_⟩
    intro byte isByte
    cases isByte
    exact ⟨rfl, rfl⟩

/-! ## Bit positions -/

/-- How many bits are written. -/
def Writing.place (state : Writing) : Int :=
  8 * state.output.length + (7 - state.pos)

/-- How many bits are read. The last byte that was taken from the file is not used up. -/
def Reading.place (state : Reading) : Int :=
  8 * (state.input.position - 1 : Int) + (7 - state.pos)

theorem Written.place_eq {state : Writing} {written : List Bool} (after : Written state written) :
    state.place = written.length := by
  rcases after with ⟨front, place, _, _, rfl⟩
  rw [Writing.place, List.length_append, length_stream, place]
  omega

/-- Reading a bit goes one bit on when there are more. -/
theorem Ready.place_readBit {state : Reading} {bit : Bool} {next : List Bool}
    (ready : Ready state (bit :: next)) (more : next ≠ []) :
    (ZipCompress.readBit state).2.place = state.place + 1 := by
  rcases ready with impossible | ⟨nonneg, within, byte, _, isPrefix⟩
  · cases impossible
  rw [ahead_eq (by omega), List.cons_prefix_cons] at isPrefix
  by_cases used : state.pos - 1 < 0
  · have refilled : ZipCompress.readBit state =
        (state.ch.testBit state.pos.toNat, ⟨state.input.fgetc.1, 7, state.input.fgetc.2⟩) :=
      if_pos used
    rw [if_pos (by omega)] at isPrefix
    have others : state.input.rest ≠ [] := by
      intro ended
      rw [ended] at isPrefix
      exact more (List.prefix_nil.mp isPrefix.2)
    rcases List.exists_cons_of_ne_nil others with ⟨head, rest, ahead⟩
    have moved := InFile.position_fgetc ahead
    rw [refilled, Reading.place, Reading.place, moved]
    dsimp only
    omega
  · have kept : ZipCompress.readBit state =
        (state.ch.testBit state.pos.toNat, ⟨state.ch, state.pos - 1, state.input⟩) := if_neg used
    rw [kept, Reading.place, Reading.place]
    dsimp only
    omega

theorem Ready.place_readByte {state : Reading} {back next : List Bool}
    (ready : Ready state (back ++ next)) (more : next ≠ []) (value : Byte) :
    (ZipCompress.readByte (List.range back.length).reverse value state).2.place =
      state.place + back.length := by
  induction back generalizing state value with
  | nil => exact (Int.add_zero _).symm
  | cons bit rest induction =>
      have moved := ready.place_readBit (by simp [more])
      rw [flags_cons, readByte_cons, induction ready.readBit.2, moved, List.length_cons]
      omega

/-! ## All tokens -/

/-- The tokens are written one after the other. The log says where each of them ends. -/
def writeAll (fuel : Nat) : Writing → List Token → Outcome (Writing × List (Token × Int))
  | state, [] => .ok (state, [])
  | state, token :: rest => do
      let after ← writeToken fuel state token
      let (final, log) ← writeAll fuel after rest
      pure (final, (token, after.place) :: log)

/-- The passes of the decompression read the tokens of a log, each to where it ends, put out
what they stand for, and stop. -/
def Follows : Unzipping → List (Token × Int) → Prop
  | state, [] => unzipPass state = .ok (.leave state.output)
  | state, (token, place) :: rest =>
      ∃ next, unzipPass state = .ok (.again next) ∧
        (readToken state.value state.reading).1 = token ∧ next.reading.place = place ∧
        next.output = token.expand state.output ∧ Follows next rest

def total (tokens : List Token) : Int := (tokens.map Token.count).sum

/-- The state before the first pass over a file. -/
def unzipStart (content : List Byte) (count : Int) : Unzipping :=
  let (ch, input) := (InFile.opened content).fgetc
  ⟨count, 0, ⟨ch, 7, input⟩, .opened content, []⟩

/-- What is written for some tokens is read as these tokens. -/
def Recovers (layout : Layout Int64 8) (tokens : List Token) : Prop :=
  ∃ fuel final log, writeAll fuel ⟨0, 7, []⟩ tokens = .ok (final, log) ∧
    Follows (unzipStart (flushed final ++ layout.toBytes (Int64.ofInt (total tokens)))
      (total tokens)) log

/-! ## Literals -/

/-- The log of some bytes. -/
def literalLog : (place : Int) → List Byte → List (Token × Int)
  | _, [] => []
  | place, byte :: rest => (.literal byte, place + 9) :: literalLog (place + 9) rest

theorem writeAll_literals (fuel : Nat) (bytes : List Byte) {state : Writing} {written : List Bool}
    (before : Written state written) :
    ∃ final, writeAll fuel state (bytes.map .literal) =
        .ok (final, literalLog written.length bytes) ∧
      Written final (written ++ bytes.flatMap symbolBits) := by
  induction bytes generalizing state written with
  | nil =>
      rw [List.flatMap_nil, List.append_nil]
      exact ⟨state, rfl, before⟩
  | cons byte rest induction =>
      have after := before.literal byte
      have place := after.place_eq
      rcases induction after with ⟨final, ran, whole⟩
      have longer : ((written ++ symbolBits byte).length : Int) = written.length + 9 := by
        rw [List.length_append, symbolBits, List.length_cons, length_bits]
        rfl
      rw [List.append_assoc, ← List.flatMap_cons] at whole
      refine ⟨final, ?_, whole⟩
      rw [List.map_cons, writeAll, writeToken, Outcome.ok_bind, ran, Outcome.ok_bind, place, longer,
        literalLog]
      rfl

theorem readToken_literal {state : Reading} {byte : Byte} {next : List Bool} (more : next ≠ [])
    (ready : Ready state (symbolBits byte ++ next)) :
    (readToken 0 state).1 = .literal byte ∧ Ready (readToken 0 state).2 next ∧
      (readToken 0 state).2.place = state.place + 9 := by
  rcases Ready.readBit ready with ⟨status, bitsReady⟩
  rcases readByte_spec bitsReady with ⟨isByte, nextReady⟩
  have first := Ready.place_readBit ready (by simp [more])
  have others := bitsReady.place_readByte more 0
  rw [length_bits, first] at others
  simp only [readToken, status, Bool.false_eq_true, if_false, isByte]
  refine ⟨trivial, nextReady, others.trans ?_⟩
  omega

theorem follows_literals (bytes : List Byte) {state : Unzipping}
    (count : state.count = bytes.length) (isZero : state.value = 0) {padding : List Bool}
    (more : padding ≠ []) (ready : Ready state.reading (bytes.flatMap symbolBits ++ padding)) :
    Follows state (literalLog state.reading.place bytes) := by
  induction bytes generalizing state with
  | nil =>
      have finished : ¬state.count > 0 := by
        rw [count]
        decide
      exact if_neg finished
  | cons byte rest induction =>
      rw [List.length_cons] at count
      rw [List.flatMap_cons, List.append_assoc] at ready
      have others : rest.flatMap symbolBits ++ padding ≠ [] := by simp [more]
      rcases readToken_literal others ready with ⟨isToken, nextReady, place⟩
      rcases unzipPass_token (show state.count > 0 by omega) with
        ⟨next, pass, reading, fewer, literal⟩
      rw [isZero] at reading fewer literal
      rcases literal byte isToken with ⟨output, nextZero⟩
      rw [← reading] at nextReady place
      rw [isToken, Token.count, count] at fewer
      have follows := induction (by omega) nextZero nextReady
      rw [place] at follows
      exact ⟨next, pass, by rw [isZero]; exact isToken, place, output, follows⟩

/-! ## Repetitions -/

/-- The loop over the bits of a length does not come to an end. -/
theorem writeToken_repetition (fuel : Nat) (state final : Writing) (distance length : Nat) :
    writeToken fuel state (.repetition distance length) ≠ .ok final := by
  intro ran
  refine repeatLoop_partial (fun _ => True) (fun _ => False) (fun _ _ _ _ => trivial) ?_ fuel _
    final trivial ran
  intro writing result _ left
  rw [lengthPass] at left
  split at left
  · cases left
  · cases left

theorem literal_of_writeAll {fuel : Nat} {tokens : List Token} {state : Writing}
    {result : Writing × List (Token × Int)} (ran : writeAll fuel state tokens = .ok result) :
    ∀ token ∈ tokens, token.IsLiteral := by
  induction tokens generalizing state result with
  | nil => nofun
  | cons token rest induction =>
      rcases Outcome.bind_eq_ok ran with ⟨after, written, others⟩
      rcases Outcome.bind_eq_ok others with ⟨final, restRan, _⟩
      refine List.forall_mem_cons.mpr ⟨?_, induction restRan⟩
      cases token with
      | literal byte => exact ⟨byte, rfl⟩
      | repetition distance length =>
          exact absurd written (writeToken_repetition fuel state after distance length)

theorem eq_map_literal {tokens : List Token} (literals : ∀ token ∈ tokens, token.IsLiteral) :
    ∃ bytes : List Byte, tokens = bytes.map .literal := by
  induction tokens with
  | nil => exact ⟨[], rfl⟩
  | cons token rest induction =>
      rcases List.forall_mem_cons.mp literals with ⟨⟨byte, rfl⟩, others⟩
      rcases induction others with ⟨bytes, rfl⟩
      exact ⟨byte :: bytes, rfl⟩

theorem total_literals (bytes : List Byte) : total (bytes.map .literal) = bytes.length := by
  induction bytes with
  | nil => rfl
  | cons byte rest induction =>
      rw [total, List.map_cons, List.map_cons, List.sum_cons, ← total, induction, Token.count,
        List.length_cons]
      omega

/-- Tokens are recovered when there is no repetition among them. -/
theorem recovers_iff (layout : Layout Int64 8) (tokens : List Token) :
    Recovers layout tokens ↔ ∀ token ∈ tokens, token.IsLiteral := by
  constructor
  · rintro ⟨fuel, final, log, ran, _⟩
    exact literal_of_writeAll ran
  · intro literals
    rcases eq_map_literal literals with ⟨bytes, rfl⟩
    rcases writeAll_literals 0 bytes written_start with ⟨final, ran, written⟩
    rcases written.flush with ⟨padding, packed⟩
    refine ⟨0, final, _, ran, ?_⟩
    rw [total_literals]
    -- The count follows the bits, so that the file does not end in the last token.
    have eight := layout.length_toBytes (Int64.ofInt bytes.length)
    have counted : stream (layout.toBytes (Int64.ofInt bytes.length)) ≠ [] := by
      apply List.ne_nil_of_length_pos
      rw [length_stream, eight]
      decide
    have nonempty : flushed final ++ layout.toBytes (Int64.ofInt bytes.length) ≠ [] := by
      apply List.ne_nil_of_length_pos
      rw [List.length_append, eight]
      omega
    rcases ready_opened nonempty with ⟨byte, input, got, position, ready⟩
    rw [stream_append, packed, List.nil_append, List.append_assoc] at ready
    have place : Reading.place ⟨byte.toNat, 7, input⟩ = 0 := by
      rw [Reading.place, position]
      rfl
    have more : padding ++ stream (layout.toBytes (Int64.ofInt bytes.length)) ≠ [] := by
      simp [counted]
    rw [unzipStart, got, List.length_nil, Nat.cast_zero, ← place]
    exact follows_literals bytes rfl rfl more ready

/-- A literal and a repetition of it. -/
theorem recovers_not_repetition : ¬Recovers .littleEndian [.literal 97, .repetition 1 3] := by
  rintro ⟨fuel, final, log, ran, _⟩
  rcases literal_of_writeAll ran (.repetition 1 3) (by decide) with ⟨byte, isLiteral⟩
  cases isLiteral

end DataStructAlgorithm.FileComPress.ZipCompress
