import DataStructAlgorithm.Foundation.SplitLines
import DataStructAlgorithm.Foundation.Transition
import DataStructAlgorithm.HTTPD2.Input

/-! # Chunks of a stream

The client's bytes arrive in chunks. After each of them `parse_line` is called until there is
no further line. The lines do not depend on where the stream is cut. -/

namespace DataStructAlgorithm.HTTPD2

open Foundation

/-- A connection, the lines that have been recognised so far, and the status of the last call of
`parse_line`. -/
structure Recognition where
  conn : HttpConn
  lines : List (List Byte)
  status : LineStatus

namespace HttpConn

/-- A pass of the loop around `parse_line` in `process_read`, which takes the line that begins at
`m_start_line` and lets the next one begin at `m_checked_idx`. -/
def recognisePass (recognition : Recognition) : Outcome (Pass Recognition Recognition) := do
  let (status, conn) ← recognition.conn.parseLine
  if status = .ok then
    let line := (conn.readBuf.take (conn.checkedIdx - 2)).drop conn.startLine
    pure (.again ⟨conn.startNext, recognition.lines ++ [line], status⟩)
  else pure (.leave ⟨conn, recognition.lines, status⟩)

/-- The lines of a chunk that has been appended to the buffer. -/
def recognise (recognition : Recognition) : Outcome Recognition :=
  repeatLoop recognisePass (recognition.conn.readIdx - recognition.conn.checkedIdx + 1) recognition

def feedChunk (recognition : Recognition) (chunk : List Byte) : Outcome Recognition := do
  let conn ← recognition.conn.receive chunk
  recognise { recognition with conn := conn }

/-- A connection that nothing has been received for. -/
def start (conn : HttpConn) : Recognition := ⟨conn.init, [], .open⟩

/-! ## One call -/

/-- The bytes from the beginning of the current line on. -/
def pending (conn : HttpConn) : List Byte := (conn.readBuf.take conn.readIdx).drop conn.startLine

/-- The status that a call of `parse_line` ends with. -/
def scanStatus : Scanned → LineStatus
  | .line _ _ => .ok
  | .open _ => .open
  | .bad _ => .bad

/-- The bytes of the current line that have been checked contain no line end. -/
structure Waiting (conn : HttpConn) : Prop where
  positioned : Positioned conn
  unbroken : Unbroken ((conn.readBuf.take conn.checkedIdx).drop conn.startLine)

section Call

variable {conn : HttpConn}

theorem Positioned.pending_eq (positioned : Positioned conn) :
    conn.pending = (conn.readBuf.take conn.checkedIdx).drop conn.startLine ++ conn.unread := by
  have checkedLe := positioned.checked_le
  have readLe := positioned.readIdx_le_length
  have startLe := positioned.start_le
  have whole := List.take_append_drop conn.checkedIdx (conn.readBuf.take conn.readIdx)
  rw [List.take_take, Nat.min_eq_left checkedLe] at whole
  rw [pending, ← whole, List.drop_append_of_le_length]
  · rfl
  · rw [List.length_take]
    omega

/-- The current line up to the end of some unread bytes. -/
theorem Positioned.take_content (positioned : Positioned conn) {content rest : List Byte}
    (unreadEq : conn.unread = content ++ rest) :
    (conn.readBuf.take (conn.checkedIdx + content.length)).drop conn.startLine =
      (conn.readBuf.take conn.checkedIdx).drop conn.startLine ++ content := by
  have checkedLe := positioned.checked_le
  have readLe := positioned.readIdx_le_length
  have startLe := positioned.start_le
  have unreadLength := length_unread positioned
  rw [unreadEq, List.length_append] at unreadLength
  have part : (conn.readBuf.take (conn.checkedIdx + content.length)).drop conn.startLine =
      conn.pending.take (conn.checkedIdx + content.length - conn.startLine) := by
    rw [pending, List.drop_take, List.drop_take, List.take_take, Nat.min_eq_left (by omega)]
  rw [part, positioned.pending_eq, unreadEq, ← List.append_assoc]
  apply List.take_left'
  rw [List.length_append, List.length_drop, List.length_take]
  omega

/-- More bytes have been checked. -/
theorem Waiting.check (waiting : Waiting conn) {content rest : List Byte}
    (unbroken : Unbroken content) (unreadEq : conn.unread = content ++ rest) :
    Waiting (conn.check content.length) where
  positioned := waiting.positioned.check_unbroken unbroken unreadEq
  unbroken := by
    intro byte member
    dsimp only [HttpConn.check] at member
    rw [waiting.positioned.take_content unreadEq] at member
    rcases List.mem_append.mp member with before | now
    · exact waiting.unbroken byte before
    · exact unbroken byte now

/-- A line is found, and the next one begins. -/
theorem Waiting.startNext_endLine (waiting : Waiting conn) {content rest : List Byte}
    (unreadEq : conn.unread = content ++ carriageReturn :: lineFeed :: rest) :
    Waiting (conn.endLine content.length).startNext where
  positioned := (lineEnded waiting.positioned unreadEq).positioned.startNext
  unbroken := by
    dsimp only [startNext]
    rw [List.drop_eq_nil_of_le (List.length_take_le _ _)]
    exact unbroken_nil

/-- What stands in front of the unread bytes does not change how the line ends. -/
theorem Waiting.scan_pending (waiting : Waiting conn) :
    scan conn.pending =
      ((conn.readBuf.take conn.checkedIdx).drop conn.startLine).foldr Scanned.push
        (scan conn.unread) := by
  rw [waiting.positioned.pending_eq]
  exact scan_append waiting.unbroken conn.unread

end Call

/-! ## The lines of a chunk -/

/-- What recognising lines does. -/
structure Recognised (conn : HttpConn) (lines : List (List Byte)) (after : Recognition) : Prop where
  waiting : Waiting after.conn
  readIdx : after.conn.readIdx = conn.readIdx
  lines : after.lines = lines ++ (splitLines conn.pending).1
  pending : after.conn.pending = (splitLines conn.pending).2
  status : after.status = scanStatus (scan (splitLines conn.pending).2)

theorem scanStatus_foldr_push (content : List Byte) (scanned : Scanned) :
    scanStatus (content.foldr Scanned.push scanned) = scanStatus scanned := by
  induction content with
  | nil => rfl
  | cons byte content induction =>
      rw [List.foldr_cons, ← induction]
      cases content.foldr Scanned.push scanned <;> rfl

/-- Without a line, `parse_line` only checks bytes that do not end one. -/
theorem lineResult_none {conn : HttpConn}
    (noLine : ∀ content rest, scan conn.unread ≠ .line content rest) :
    ∃ content rest, conn.unread = content ++ rest ∧ Unbroken content ∧
      conn.lineResult (scan conn.unread) =
        (scanStatus (scan conn.unread), conn.check content.length) := by
  have describes := scan_describes conn.unread
  cases scanned : scan conn.unread with
  | line content rest => exact absurd scanned (noLine content rest)
  | «open» content =>
      rw [scanned] at describes
      rcases describes with ⟨unbroken, unreadEq | unreadEq⟩
      · exact ⟨content, [], by rw [List.append_nil]; exact unreadEq, unbroken, rfl⟩
      · exact ⟨content, [carriageReturn], unreadEq, unbroken, rfl⟩
  | bad content =>
      rw [scanned] at describes
      rcases describes with ⟨unbroken, rest, unreadEq, _⟩
      exact ⟨content, rest, unreadEq, unbroken, rfl⟩

section Passes

variable {conn : HttpConn} (waiting : Waiting conn) (lines : List (List Byte)) (status : LineStatus)

include waiting

/-- The last call of `parse_line`. -/
theorem recognisePass_none (noLine : ∀ content rest, scan conn.unread ≠ .line content rest) :
    ∃ after, recognisePass ⟨conn, lines, status⟩ = .ok (.leave after) ∧
      Recognised conn lines after := by
  rcases lineResult_none noLine with ⟨content, rest, unreadEq, unbroken, result⟩
  have statusEq : scanStatus (scan conn.pending) = scanStatus (scan conn.unread) := by
    rw [waiting.scan_pending, scanStatus_foldr_push]
  have notOk : scanStatus (scan conn.unread) ≠ .ok := by
    cases scanned : scan conn.unread with
    | line content rest => exact absurd scanned (noLine content rest)
    | «open» content => exact nofun
    | bad content => exact nofun
  have noPending : ∀ content rest, scan conn.pending ≠ .line content rest := by
    intro line rest scanned
    rw [scanned] at statusEq
    exact notOk statusEq.symm
  refine ⟨⟨conn.check content.length, lines, scanStatus (scan conn.unread)⟩, ?_,
    waiting.check unbroken unreadEq, rfl, ?_, ?_, ?_⟩
  · rw [recognisePass, parseLine_eq waiting.positioned, result, Outcome.ok_bind]
    exact if_neg notOk
  · rw [splitLines_none noPending, List.append_nil]
  · rw [splitLines_none noPending]
    rfl
  · rw [splitLines_none noPending]
    exact statusEq.symm

/-- A call of `parse_line` that finds a line. -/
theorem recognisePass_line {content rest : List Byte}
    (scanned : scan conn.unread = .line content rest) :
    ∃ after line, recognisePass ⟨conn, lines, status⟩ =
        .ok (.again ⟨after, lines ++ [line], .ok⟩) ∧
      Waiting after ∧ scan conn.pending = .line line rest ∧ after.pending = rest ∧
      after.readIdx = conn.readIdx ∧ conn.checkedIdx < after.checkedIdx := by
  have describes := scan_describes conn.unread
  rw [scanned] at describes
  have unreadEq := describes.2
  have scanPending := waiting.scan_pending
  rw [scanned, foldr_push_line] at scanPending
  refine ⟨(conn.endLine content.length).startNext, _, ?_, waiting.startNext_endLine unreadEq,
    scanPending, unread_endLine unreadEq, rfl, ?_⟩
  · have line : ((conn.endLine content.length).readBuf.take
        ((conn.endLine content.length).checkedIdx - 2)).drop conn.startLine =
          (conn.readBuf.take conn.checkedIdx).drop conn.startLine ++ content := by
      dsimp only [endLine]
      rw [Nat.add_sub_cancel, List.take_set_of_le (by omega), List.take_set_of_le (by omega),
        waiting.positioned.take_content unreadEq]
    rw [← line, recognisePass, parseLine_eq waiting.positioned, scanned]
    rfl
  · dsimp only [startNext, endLine]
    omega

end Passes

theorem recogniseLoop_spec (fuel : Nat) {conn : HttpConn} (waiting : Waiting conn)
    (lines : List (List Byte)) (status : LineStatus)
    (enough : conn.readIdx - conn.checkedIdx < fuel) :
    ∃ after, repeatLoop recognisePass fuel ⟨conn, lines, status⟩ = .ok after ∧
      Recognised conn lines after := by
  induction fuel generalizing conn lines status with
  | zero => exact absurd enough (Nat.not_lt_zero _)
  | succ fuel induction =>
      by_cases some : ∃ content rest, scan conn.unread = .line content rest
      · rcases some with ⟨content, rest, scanned⟩
        rcases recognisePass_line waiting lines status scanned with
          ⟨next, line, pass, nextWaiting, linePending, restPending, readIdx, further⟩
        have within := nextWaiting.positioned.checked_le
        rcases induction nextWaiting (lines ++ [line]) .ok (by omega) with ⟨after, run, later⟩
        refine ⟨after, ?_, later.waiting, later.readIdx.trans readIdx, ?_, ?_, ?_⟩
        · rw [repeatLoop_again fuel pass]
          exact run
        · rw [later.lines, restPending, splitLines_line linePending, List.append_assoc]
          rfl
        · rw [later.pending, restPending, splitLines_line linePending]
        · rw [later.status, restPending, splitLines_line linePending]
      · have noLine : ∀ content rest, scan conn.unread ≠ .line content rest :=
          fun content rest scanned => some ⟨content, rest, scanned⟩
        rcases recognisePass_none waiting lines status noLine with ⟨after, pass, recognised⟩
        exact ⟨after, repeatLoop_leave fuel pass, recognised⟩

/-- A chunk adds to what is pending. -/
theorem receive_waiting {conn : HttpConn} (waiting : Waiting conn) {chunk : List Byte}
    (room : conn.readIdx + chunk.length ≤ readBufferSize) :
    ∃ after, conn.receive chunk = .ok after ∧ Waiting after ∧
      after.pending = conn.pending ++ chunk ∧ after.readIdx = conn.readIdx + chunk.length := by
  have checkedLe := waiting.positioned.checked_le
  have startLe := waiting.positioned.start_le
  have readLe := waiting.positioned.readIdx_le_length
  rcases waiting.positioned.receive room with ⟨readBuf, received, positioned, taken, _⟩
  refine ⟨_, received, ⟨positioned, ?_⟩, ?_, rfl⟩
  · have sameChecked : readBuf.take conn.checkedIdx = conn.readBuf.take conn.checkedIdx := by
      have part := congrArg (List.take conn.checkedIdx) taken
      rw [List.take_take, Nat.min_eq_left (by omega), List.take_append_of_le_length (by
        rw [List.length_take]; omega), List.take_take, Nat.min_eq_left checkedLe] at part
      exact part
    dsimp only
    rw [sameChecked]
    exact waiting.unbroken
  · dsimp only [pending]
    rw [taken, List.drop_append_of_le_length]
    rw [List.length_take]
    omega

/-! ## All chunks -/

/-- What has been recognised after some bytes. -/
structure Fed (stream : List Byte) (recognition : Recognition) : Prop where
  waiting : Waiting recognition.conn
  readIdx : recognition.conn.readIdx = stream.length
  lines : recognition.lines = (splitLines stream).1
  pending : recognition.conn.pending = (splitLines stream).2
  status : recognition.status = scanStatus (scan (splitLines stream).2)

theorem start_fed (conn : HttpConn) : Fed [] (start conn) := by
  have empty : splitLines [] = ([], []) := splitLines_none (fun _ _ => nofun)
  refine ⟨⟨init_positioned conn, unbroken_nil⟩, rfl, ?_, ?_, ?_⟩
  · rw [empty]
    rfl
  · rw [empty]
    rfl
  · rw [empty]
    rfl

theorem feedChunk_fed {stream chunk : List Byte} {recognition : Recognition}
    (fed : Fed stream recognition) (room : (stream ++ chunk).length ≤ readBufferSize) :
    ∃ after, feedChunk recognition chunk = .ok after ∧ Fed (stream ++ chunk) after := by
  rw [List.length_append, ← fed.readIdx] at room
  rcases receive_waiting fed.waiting room with ⟨conn, received, waiting, pendingEq, readIdx⟩
  rcases recogniseLoop_spec _ waiting recognition.lines recognition.status (Nat.lt_succ_self _) with
    ⟨after, run, recognised⟩
  rw [fed.pending] at pendingEq
  have split := splitLines_append stream chunk
  refine ⟨after, ?_, recognised.waiting, ?_, ?_, ?_, ?_⟩
  · rw [feedChunk, received, Outcome.ok_bind]
    exact run
  · rw [recognised.readIdx, readIdx, fed.readIdx, List.length_append]
  · rw [recognised.lines, fed.lines, pendingEq, split]
  · rw [recognised.pending, pendingEq, split]
  · rw [recognised.status, pendingEq, split]

theorem feedChunks_fed (chunks : List (List Byte)) (stream : List Byte) (recognition : Recognition)
    (fed : Fed stream recognition) (room : (stream ++ chunks.flatten).length ≤ readBufferSize) :
    ∃ final, runAll feedChunk recognition chunks = .ok final ∧
      Fed (stream ++ chunks.flatten) final := by
  induction chunks generalizing stream recognition with
  | nil =>
      refine ⟨recognition, rfl, ?_⟩
      rw [List.flatten_nil, List.append_nil]
      exact fed
  | cons chunk chunks induction =>
      rw [List.flatten_cons, ← List.append_assoc] at room ⊢
      have here : (stream ++ chunk).length ≤ readBufferSize := by
        rw [List.length_append] at room
        omega
      rcases feedChunk_fed fed here with ⟨middle, fedChunk, middleFed⟩
      rcases induction (stream ++ chunk) middle middleFed room with ⟨final, run, finalFed⟩
      refine ⟨final, ?_, finalFed⟩
      rw [runAll, fedChunk, Outcome.ok_bind]
      exact run

/-- However a stream is cut into chunks, the same lines are recognised and the last call of
`parse_line` has the same status: it is bad exactly if the stream is broken. -/
theorem chunks_recognised (conn : HttpConn) (chunks : List (List Byte))
    (fits : chunks.flatten.length ≤ readBufferSize) :
    ∃ final whole, runAll feedChunk (start conn) chunks = .ok final ∧
      feedChunk (start conn) chunks.flatten = .ok whole ∧
      final.lines = whole.lines ∧ final.status = whole.status ∧
      (∃ rest, chunks.flatten = final.lines.flatMap (· ++ [carriageReturn, lineFeed]) ++ rest) ∧
      (∀ line ∈ final.lines, LineIn chunks.flatten line) ∧
      (final.status = .bad ↔ Broken chunks.flatten) := by
  rcases feedChunks_fed chunks [] (start conn) (start_fed conn) fits with ⟨final, run, fed⟩
  rcases feedChunk_fed (start_fed conn) fits with ⟨whole, fedWhole, wholeFed⟩
  rw [List.nil_append] at fed wholeFed
  refine ⟨final, whole, run, fedWhole, ?_, ?_, ⟨(splitLines chunks.flatten).2, ?_⟩, ?_, ?_⟩
  · rw [fed.lines, wholeFed.lines]
  · rw [fed.status, wholeFed.status]
  · rw [fed.lines, splitLines_bytes]
  · rw [fed.lines]
    exact splitLines_lineIn chunks.flatten
  · rw [fed.status, broken_iff]
    cases scan (splitLines chunks.flatten).2 with
    | line content rest => exact iff_of_false nofun nofun
    | «open» content => exact iff_of_false nofun nofun
    | bad content => exact iff_of_true rfl ⟨content, rfl⟩

/-- A carriage return that comes last in a chunk, and a line feed that comes alone. -/
theorem chunks_recognised_cut :
    let chunks := [ascii "a\r", ascii "\nb\r", ascii "\n\n"]
    ∃ final whole, runAll feedChunk (start fresh) chunks = .ok final ∧
      feedChunk (start fresh) chunks.flatten = .ok whole ∧
      final.lines = whole.lines ∧ final.status = whole.status ∧
      (∃ rest, chunks.flatten = final.lines.flatMap (· ++ [carriageReturn, lineFeed]) ++ rest) ∧
      (∀ line ∈ final.lines, LineIn chunks.flatten line) ∧
      (final.status = .bad ↔ Broken chunks.flatten) :=
  chunks_recognised fresh _ (by decide)

end HttpConn

end DataStructAlgorithm.HTTPD2
