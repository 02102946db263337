import DataStructAlgorithm.Foundation.Pieces
import DataStructAlgorithm.Foundation.Outcome

/-! # The line reader of `HTTPD/httpd.c` and `HTTPD1.0/cpy_cgi.cpp`

The two files have the same function `get_line`. A socket is the list of the bytes that `recv`
is going to deliver, one at a time; at its end `recv` returns 0 and leaves `ch` as it is. -/

namespace DataStructAlgorithm.HTTPD

open Foundation

/-- The variables of `get_line`. The bytes stored in `line` so far are `len` many. -/
structure LineState where
  sockfd : List Byte
  line : List Byte
  ch : Byte
  deriving DecidableEq, Repr

def getLinePass (size : Nat) (state : LineState) : Outcome (Pass LineState LineState) :=
  if state.ch ≠ lineFeed ∧ state.line.length < size - 1 then
    match state.sockfd with
    | [] => .ok (.again { state with ch := lineFeed })
    | ch :: sockfd =>
        if ch = carriageReturn then
          -- the peek overwrites `ch` only when there is a next byte
          let peeked := sockfd.headD ch
          let sockfd := if peeked = lineFeed then sockfd.tail else sockfd
          .ok (.again ⟨sockfd, state.line ++ [lineFeed], lineFeed⟩)
        else .ok (.again ⟨sockfd, state.line ++ [ch], ch⟩)
  else .ok (.leave state)

/-- The bytes of the line, whose number is the result of `get_line`, and what is left of the
socket. -/
def getLine (size : Nat) (sockfd : List Byte) : Outcome (List Byte × List Byte) := do
  let state ← repeatLoop (getLinePass size) (size + 2) ⟨sockfd, [], 0⟩
  pure (state.line, state.sockfd)

theorem sockfd_behindReturn (sockfd : List Byte) :
    (if sockfd.headD carriageReturn = lineFeed then sockfd.tail else sockfd) =
      behindReturn sockfd := by
  cases sockfd with
  | nil => rfl
  | cons next rest => simp [behindReturn]

theorem getLine_stop {size : Nat} {state : LineState}
    (stops : state.ch = lineFeed ∨ size - 1 ≤ state.line.length) (fuel : Nat) :
    repeatLoop (getLinePass size) (fuel + 1) state = .ok state := by
  have pass : getLinePass size state = .ok (.leave state) := by
    apply if_neg
    rintro ⟨notFeed, room⟩
    rcases stops with isFeed | full
    · exact notFeed isFeed
    · omega
  exact repeatLoop_leave fuel pass

/-- The loop takes the next piece of the socket. -/
theorem getLine_loop (size bound fuel : Nat) (state : LineState) (notFeed : state.ch ≠ lineFeed)
    (room : state.line.length + bound = size - 1) (enough : bound + 1 < fuel) :
    ∃ final, repeatLoop (getLinePass size) fuel state = .ok final ∧
      (final.line, final.sockfd) =
        (state.line ++ (takePiece bound state.sockfd).1, (takePiece bound state.sockfd).2) := by
  induction bound generalizing fuel state with
  | zero =>
      rcases Nat.exists_eq_succ_of_ne_zero (Nat.ne_zero_of_lt enough) with ⟨fuel, rfl⟩
      refine ⟨state, getLine_stop (Or.inr (by omega)) fuel, ?_⟩
      rw [takePiece, List.append_nil]
  | succ bound induction =>
      have passes : ∃ more, fuel = more + 2 := ⟨fuel - 2, by omega⟩
      rcases passes with ⟨fuel, rfl⟩
      have goes : state.ch ≠ lineFeed ∧ state.line.length < size - 1 := ⟨notFeed, by omega⟩
      rcases state with ⟨sockfd, line, ch⟩
      cases sockfd with
      | nil =>
          have pass : getLinePass size ⟨[], line, ch⟩ = .ok (.again ⟨[], line, lineFeed⟩) :=
            if_pos goes
          rw [repeatLoop_again _ pass]
          refine ⟨_, getLine_stop (Or.inl rfl) fuel, ?_⟩
          rw [takePiece, List.append_nil]
      | cons byte rest =>
          by_cases isReturn : byte = carriageReturn
          · have pass : getLinePass size ⟨byte :: rest, line, ch⟩ =
                .ok (.again ⟨behindReturn rest, line ++ [lineFeed], lineFeed⟩) := by
              rw [getLinePass, if_pos goes, isReturn, ← sockfd_behindReturn]
              rfl
            rw [repeatLoop_again _ pass]
            refine ⟨_, getLine_stop (Or.inl rfl) fuel, ?_⟩
            rw [takePiece, if_pos isReturn]
          · have pass : getLinePass size ⟨byte :: rest, line, ch⟩ =
                .ok (.again ⟨rest, line ++ [byte], byte⟩) := by
              rw [getLinePass, if_pos goes]
              exact if_neg isReturn
            rw [repeatLoop_again _ pass, takePiece, if_neg isReturn]
            by_cases isFeed : byte = lineFeed
            · refine ⟨_, getLine_stop (Or.inl isFeed) fuel, ?_⟩
              rw [if_pos isFeed, isFeed]
            · have longer : (line ++ [byte]).length + bound = size - 1 := by
                rw [List.length_append, ← room]
                simp only [List.length_cons, List.length_nil]
                omega
              rcases induction (fuel + 1) ⟨rest, line ++ [byte], byte⟩ isFeed longer (by omega) with
                ⟨final, run, taken⟩
              refine ⟨final, run, ?_⟩
              rw [taken, if_neg isFeed, List.append_assoc]
              rfl

theorem getLine_eq (size : Nat) (sockfd : List Byte) :
    getLine size sockfd = .ok (takePiece (size - 1) sockfd) := by
  have start : (0 : Byte) ≠ lineFeed := by decide
  rcases getLine_loop size (size - 1) (size + 2) ⟨sockfd, [], 0⟩ start (Nat.zero_add _)
    (by omega) with ⟨final, run, taken⟩
  rw [getLine, run, Outcome.ok_bind, taken]
  rfl

/-! ## Reading to the end -/

/-- Call `get_line` until it returns 0, and keep the lines. -/
def linePass (size : Nat) (state : List (List Byte) × List Byte) :
    Outcome (Pass (List (List Byte) × List Byte) (List (List Byte))) := do
  let (line, sockfd) ← getLine size state.2
  if line.length = 0 then pure (.leave state.1)
  else pure (.again (state.1 ++ [line], sockfd))

def allLines (size fuel : Nat) (sockfd : List Byte) : Outcome (List (List Byte)) :=
  repeatLoop (linePass size) fuel ([], sockfd)

/-- What is known of the lines that a socket is read in. -/
structure LinesOf (size : Nat) (sockfd : List Byte) (lines : List (List Byte)) : Prop where
  flatten : lines.flatten = normalise sockfd
  nonempty : ∀ line ∈ lines, line ≠ []
  length_le : ∀ line ∈ lines, line.length ≤ size - 1
  lineFeed_last : ∀ line ∈ lines, lineFeed ∉ line.dropLast
  full : ∀ line ∈ lines.dropLast, line.getLast? ≠ some lineFeed → line.length = size - 1

theorem linesOf_nil (size : Nat) : LinesOf size [] [] where
  flatten := rfl
  nonempty := by simp
  length_le := by simp
  lineFeed_last := by simp
  full := by simp

/-- The first line in front of the lines that the rest of the socket is read in. -/
theorem LinesOf.cons {size : Nat} {sockfd : List Byte} {lines : List (List Byte)}
    (present : (takePiece (size - 1) sockfd).1 ≠ [])
    (others : LinesOf size (takePiece (size - 1) sockfd).2 lines) :
    LinesOf size sockfd ((takePiece (size - 1) sockfd).1 :: lines) where
  flatten := by rw [List.flatten_cons, others.flatten, ← takePiece_append]
  nonempty := List.forall_mem_cons.mpr ⟨present, others.nonempty⟩
  length_le := List.forall_mem_cons.mpr ⟨length_takePiece_le _ _, others.length_le⟩
  lineFeed_last := List.forall_mem_cons.mpr ⟨lineFeed_not_mem_dropLast _ _, others.lineFeed_last⟩
  full := by
    cases lines with
    | nil => exact fun line member => nomatch member
    | cons second lines =>
        rw [List.dropLast_cons_of_ne_nil (List.cons_ne_nil second lines)]
        refine List.forall_mem_cons.mpr ⟨fun notEnded => ?_, others.full⟩
        rcases takePiece_full _ _ notEnded with isFull | isEnd
        · exact isFull
        · have nothing := others.flatten
          rw [isEnd, List.flatten_cons] at nothing
          exact absurd (List.append_eq_nil_iff.mp nothing).1 (others.nonempty second (by simp))

theorem linePass_loop {size : Nat} (two : 2 ≤ size) (fuel : Nat) (past : List (List Byte))
    (sockfd : List Byte) (enough : sockfd.length < fuel) :
    ∃ lines, repeatLoop (linePass size) fuel (past, sockfd) = .ok (past ++ lines) ∧
      LinesOf size sockfd lines := by
  induction fuel generalizing past sockfd with
  | zero => omega
  | succ fuel induction =>
      have got := getLine_eq size sockfd
      by_cases empty : (takePiece (size - 1) sockfd).1 = []
      · have pass : linePass size (past, sockfd) = .ok (.leave past) := by
          simp [linePass, got, empty]
        have isEnd : sockfd = [] := takePiece_eq_nil (by omega) empty
        refine ⟨[], ?_, ?_⟩
        · rw [repeatLoop_leave _ pass, List.append_nil]
        · rw [isEnd]
          exact linesOf_nil size
      · have pass : linePass size (past, sockfd) = .ok (.again
            (past ++ [(takePiece (size - 1) sockfd).1], (takePiece (size - 1) sockfd).2)) := by
          simp [linePass, got, empty]
        have taken := length_takePiece_add_le (size - 1) sockfd
        have some := List.length_pos_iff.mpr empty
        rcases induction (past ++ [(takePiece (size - 1) sockfd).1]) (takePiece (size - 1) sockfd).2
          (by omega) with ⟨lines, run, linesOf⟩
        refine ⟨(takePiece (size - 1) sockfd).1 :: lines, ?_, linesOf.cons empty⟩
        rw [repeatLoop_again _ pass, run, List.append_assoc]
        rfl

/-- Calling `get_line` until it returns 0 reads the whole socket, with its line ends
normalised, in pieces that fit the buffer and end early only at a line end. -/
theorem allLines_normalise (size : Nat) (two : 2 ≤ size) (sockfd : List Byte) (fuel : Nat)
    (enough : sockfd.length < fuel) :
    ∃ lines, allLines size fuel sockfd = .ok lines ∧ lines.flatten = normalise sockfd ∧
      (∀ line ∈ lines, line.length ≤ size - 1 ∧ lineFeed ∉ line.dropLast) ∧
      ∀ line ∈ lines.dropLast, line.getLast? ≠ some lineFeed → line.length = size - 1 := by
  rcases linePass_loop two fuel [] sockfd enough with ⟨lines, run, linesOf⟩
  refine ⟨lines, run, linesOf.flatten, ?_, linesOf.full⟩
  intro line member
  exact ⟨linesOf.length_le line member, linesOf.lineFeed_last line member⟩

/-- A carriage return at the end, one before a line end and one in the last place of the
buffer. -/
theorem allLines_of_returns :
    ∃ lines, allLines 4 11 (ascii "ab\r\r\ncdef\r") = .ok lines ∧
      lines.flatten = normalise (ascii "ab\r\r\ncdef\r") ∧
      (∀ line ∈ lines, line.length ≤ 4 - 1 ∧ lineFeed ∉ line.dropLast) ∧
      ∀ line ∈ lines.dropLast, line.getLast? ≠ some lineFeed → line.length = 4 - 1 :=
  allLines_normalise 4 (by decide) _ 11 (by decide)

end DataStructAlgorithm.HTTPD
