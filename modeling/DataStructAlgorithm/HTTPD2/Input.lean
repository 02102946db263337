import DataStructAlgorithm.Foundation.CString
import DataStructAlgorithm.Foundation.Lines
import DataStructAlgorithm.HTTPD2.HttpConn

/-! # Reading bytes and lines

`http_conn::read` appends what the client sends to the read buffer, and
`http_conn::parse_line` looks for the end of a line in it. -/

namespace DataStructAlgorithm.HTTPD2

open Foundation

/-- What a call of `recv` gives: some bytes, none if the client has closed the
connection, or an error other than `EAGAIN`. -/
inductive Recv
  | received (bytes : List Byte)
  | failed
  deriving DecidableEq, Repr

namespace HttpConn

/-- Bytes that `recv` stores in the read buffer. -/
def receive (conn : HttpConn) (bytes : List Byte) : Outcome HttpConn :=
  if conn.readIdx + bytes.length ≤ conn.readBuf.length then
    .ok { conn with
      readBuf := overwrite conn.readBuf conn.readIdx bytes
      readIdx := conn.readIdx + bytes.length }
  else .error .outOfRange

/-- The loop of `read`. When the outcomes are used up `recv` fails with `EAGAIN`, and it
never gives more bytes than it is asked for. -/
def readLoop (conn : HttpConn) : List Recv → Outcome (Bool × HttpConn)
  | [] => .ok (true, conn)
  | .failed :: _ => .ok (false, conn)
  | .received bytes :: rest =>
      let chunk := bytes.take (readBufferSize - conn.readIdx)
      if chunk = [] then .ok (false, conn)
      else do
        let conn ← conn.receive chunk
        conn.readLoop rest

/-- `http_conn::read` -/
def read (conn : HttpConn) (outcomes : List Recv) : Outcome (Bool × HttpConn) :=
  if readBufferSize ≤ conn.readIdx then .ok (false, conn) else conn.readLoop outcomes

/-- The loop of `parse_line`, with the number of bytes that are left. -/
def parseLineLoop : Nat → HttpConn → Outcome (LineStatus × HttpConn)
  | 0, conn => .ok (.open, conn)
  | remaining + 1, conn => do
      let temp ← readAt conn.readBuf conn.checkedIdx
      if temp = carriageReturn then
        if conn.checkedIdx + 1 = conn.readIdx then pure (.open, conn)
        else do
          let next ← readAt conn.readBuf (conn.checkedIdx + 1)
          if next = lineFeed then do
            let readBuf ← writeAt conn.readBuf conn.checkedIdx 0
            let readBuf ← writeAt readBuf (conn.checkedIdx + 1) 0
            pure (.ok, { conn with readBuf := readBuf, checkedIdx := conn.checkedIdx + 2 })
          else pure (.bad, conn)
      else if temp = lineFeed then
        if 1 < conn.checkedIdx then do
          let previous ← readAt conn.readBuf (conn.checkedIdx - 1)
          if previous = carriageReturn then do
            let readBuf ← writeAt conn.readBuf (conn.checkedIdx - 1) 0
            let readBuf ← writeAt readBuf conn.checkedIdx 0
            pure (.ok, { conn with readBuf := readBuf, checkedIdx := conn.checkedIdx + 1 })
          else pure (.bad, conn)
        else pure (.bad, conn)
      else parseLineLoop remaining { conn with checkedIdx := conn.checkedIdx + 1 }

/-- `http_conn::parse_line` -/
def parseLine (conn : HttpConn) : Outcome (LineStatus × HttpConn) :=
  parseLineLoop (conn.readIdx - conn.checkedIdx) conn

/-! ## Lines in the buffer -/

/-- The bytes that have been read and not yet checked. -/
def unread (conn : HttpConn) : List Byte := (conn.readBuf.take conn.readIdx).drop conn.checkedIdx

/-- The indices are in order and in the buffer, and the last checked byte is no carriage
return: `parse_line` stops before one or removes it. -/
structure Positioned (conn : HttpConn) : Prop where
  bufferLength : conn.readBuf.length = readBufferSize
  read_le : conn.readIdx ≤ readBufferSize
  checked_le : conn.checkedIdx ≤ conn.readIdx
  start_le : conn.startLine ≤ conn.checkedIdx
  behind : ∀ index : Nat, index + 1 = conn.checkedIdx →
    conn.readBuf[index]? ≠ some carriageReturn

theorem init_positioned (conn : HttpConn) : Positioned conn.init :=
  ⟨List.length_replicate, Nat.zero_le _, Nat.le_refl _, Nat.le_refl _, fun _ last => nomatch last⟩

/-- The connection after `count` more bytes have been checked. -/
def check (conn : HttpConn) (count : Nat) : HttpConn :=
  { conn with checkedIdx := conn.checkedIdx + count }

/-- The connection after a line of `count` bytes has been found. -/
def endLine (conn : HttpConn) (count : Nat) : HttpConn :=
  { conn with
    readBuf := (conn.readBuf.set (conn.checkedIdx + count) 0).set (conn.checkedIdx + count + 1) 0
    checkedIdx := conn.checkedIdx + count + 2 }

theorem getElem?_endLine {conn : HttpConn} {index : Nat} (before : index < conn.checkedIdx)
    (count : Nat) : (conn.endLine count).readBuf[index]? = conn.readBuf[index]? := by
  dsimp only [endLine]
  rw [List.getElem?_set_ne (by omega), List.getElem?_set_ne (by omega)]

/-- The next line begins where the last one ends. -/
def startNext (conn : HttpConn) : HttpConn := { conn with startLine := conn.checkedIdx }

theorem Positioned.startNext {conn : HttpConn} (positioned : Positioned conn) :
    Positioned conn.startNext :=
  ⟨positioned.bufferLength, positioned.read_le, positioned.checked_le, Nat.le_refl _,
    positioned.behind⟩

/-- How `parse_line` ends for what stands in the buffer. -/
def lineResult (conn : HttpConn) : Scanned → LineStatus × HttpConn
  | .line content _ => (.ok, conn.endLine content.length)
  | .open content => (.open, conn.check content.length)
  | .bad content => (.bad, conn.check content.length)

theorem lineResult_push (conn : HttpConn) (byte : Byte) (scanned : Scanned) :
    conn.lineResult (scanned.push byte) = (conn.check 1).lineResult scanned := by
  cases scanned <;>
    simp [Scanned.push, lineResult, check, endLine, Nat.add_comm, Nat.add_left_comm]

theorem Positioned.check {conn : HttpConn} (positioned : Positioned conn) {count : Nat}
    (within : conn.checkedIdx + count ≤ conn.readIdx)
    (last : ∀ index : Nat, index + 1 = conn.checkedIdx + count →
      conn.readBuf[index]? ≠ some carriageReturn) : Positioned (conn.check count) where
  bufferLength := positioned.bufferLength
  read_le := positioned.read_le
  checked_le := within
  start_le := Nat.le_trans positioned.start_le (Nat.le_add_right ..)
  behind := last

theorem unread_eq_cons {conn : HttpConn} (readLe : conn.readIdx ≤ conn.readBuf.length)
    (more : conn.checkedIdx < conn.readIdx) :
    ∃ byte, conn.readBuf[conn.checkedIdx]? = some byte ∧
      conn.unread = byte :: (conn.check 1).unread := by
  have inBuffer : conn.checkedIdx < conn.readBuf.length := by omega
  have inTaken : conn.checkedIdx < (conn.readBuf.take conn.readIdx).length := by
    rw [List.length_take]
    omega
  refine ⟨conn.readBuf[conn.checkedIdx], List.getElem?_eq_getElem inBuffer, ?_⟩
  rw [unread, List.drop_eq_getElem_cons inTaken, List.getElem_take]
  rfl

theorem unread_eq_nil {conn : HttpConn} (done : conn.readIdx ≤ conn.checkedIdx) :
    conn.unread = [] := by
  apply List.drop_eq_nil_of_le
  rw [List.length_take]
  omega

theorem Positioned.readIdx_le_length {conn : HttpConn} (positioned : Positioned conn) :
    conn.readIdx ≤ conn.readBuf.length := by
  rw [positioned.bufferLength]
  exact positioned.read_le

/-- Bytes that are received behind the others, and the ones that have been there before. -/
theorem Positioned.receive {conn : HttpConn} (positioned : Positioned conn) {bytes : List Byte}
    (room : conn.readIdx + bytes.length ≤ readBufferSize) :
    ∃ readBuf, conn.receive bytes = .ok { conn with
        readBuf := readBuf, readIdx := conn.readIdx + bytes.length } ∧
      Positioned { conn with readBuf := readBuf, readIdx := conn.readIdx + bytes.length } ∧
      readBuf.take (conn.readIdx + bytes.length) = conn.readBuf.take conn.readIdx ++ bytes ∧
      ∀ place : Nat, place < conn.readIdx → readBuf[place]? = conn.readBuf[place]? := by
  have bufferLength := positioned.bufferLength
  have readLe := positioned.readIdx_le_length
  have checkedLe := positioned.checked_le
  have fits : conn.readIdx + bytes.length ≤ conn.readBuf.length := by
    rw [bufferLength]
    exact room
  have early : ∀ place : Nat, place < conn.readIdx →
      (overwrite conn.readBuf conn.readIdx bytes)[place]? = conn.readBuf[place]? :=
    fun place before => getElem?_overwrite_of_lt bytes readLe before
  have taken := take_overwrite bytes readLe (Nat.le_refl bytes.length)
  rw [List.take_length] at taken
  refine ⟨overwrite conn.readBuf conn.readIdx bytes, if_pos fits,
    ⟨(length_overwrite fits).trans bufferLength, room, ?_, positioned.start_le, ?_⟩, taken, early⟩
  · dsimp only
    omega
  · intro index last
    dsimp only at last ⊢
    rw [early index (by omega)]
    exact positioned.behind index last

theorem parseLineLoop_eq (remaining : Nat) {conn : HttpConn} (positioned : Positioned conn)
    (exact : conn.readIdx = conn.checkedIdx + remaining) :
    parseLineLoop remaining conn = .ok (conn.lineResult (scan conn.unread)) := by
  induction remaining generalizing conn with
  | zero =>
      rw [unread_eq_nil (by omega)]
      rfl
  | succ remaining induction =>
      have readLe := positioned.readIdx_le_length
      rcases unread_eq_cons readLe (by omega) with ⟨byte, found, unreadEq⟩
      rw [parseLineLoop, readAt_of_getElem? found, Outcome.ok_bind, unreadEq, scan]
      split
      · rename_i isReturn
        split
        · rename_i last
          rw [unread_eq_nil (show (conn.check 1).readIdx ≤ (conn.check 1).checkedIdx by
            dsimp only [check]; omega)]
          rfl
        · rename_i more
          rcases unread_eq_cons (show (conn.check 1).readIdx ≤ (conn.check 1).readBuf.length
            from readLe) (show (conn.check 1).checkedIdx < (conn.check 1).readIdx by
              dsimp only [check]; omega) with ⟨next, nextFound, nextEq⟩
          have nextRead : readAt conn.readBuf (conn.checkedIdx + 1) = .ok next :=
            readAt_of_getElem? nextFound
          rw [nextRead, Outcome.ok_bind, nextEq, scanReturn]
          split
          · rw [writeAt_of_lt _ (by omega), Outcome.ok_bind,
              writeAt_of_lt _ (by rw [List.length_set]; omega)]
            rfl
          · rfl
      · rename_i notReturn
        split
        · split
          · rename_i notFirst
            have previous : conn.checkedIdx - 1 < conn.readBuf.length := by omega
            have notReturn := positioned.behind (conn.checkedIdx - 1) (by omega)
            rw [List.getElem?_eq_getElem previous] at notReturn
            rw [readAt_of_lt previous, Outcome.ok_bind,
              if_neg (fun isReturn => notReturn (congrArg some isReturn))]
            rfl
          · rfl
        · rename_i notFeed
          rw [lineResult_push]
          apply induction
          · apply positioned.check (by omega)
            intro index equal
            have same : index = conn.checkedIdx := by omega
            rw [same, found]
            exact fun isReturn => notReturn (Option.some.inj isReturn)
          · dsimp only [check]
            omega

/-- `parse_line` finds the first line of the bytes that have not been checked. -/
theorem parseLine_eq {conn : HttpConn} (positioned : Positioned conn) :
    conn.parseLine = .ok (conn.lineResult (scan conn.unread)) :=
  parseLineLoop_eq _ positioned (by have := positioned.checked_le; omega)

/-! ## Where `parse_line` stops -/

section Stops

variable {conn : HttpConn} (positioned : Positioned conn)

include positioned

theorem length_unread : conn.unread.length = conn.readIdx - conn.checkedIdx := by
  have readLe := positioned.readIdx_le_length
  rw [unread, List.length_drop, List.length_take]
  omega

theorem getElem?_unread {place : Nat} (within : place < conn.unread.length) :
    conn.readBuf[conn.checkedIdx + place]? = conn.unread[place]? := by
  rw [length_unread positioned] at within
  rw [unread, List.getElem?_drop, List.getElem?_take_of_lt (by omega)]

/-- Unbroken bytes can be checked. -/
theorem Positioned.check_unbroken {content rest : List Byte} (unbroken : Unbroken content)
    (unreadEq : conn.unread = content ++ rest) : Positioned (conn.check content.length) := by
  have length := length_unread positioned
  have checkedLe := positioned.checked_le
  rw [unreadEq, List.length_append] at length
  apply positioned.check (by omega)
  intro index last
  rcases Nat.eq_zero_or_pos content.length with empty | some
  · exact positioned.behind index (by omega)
  · have split : index = conn.checkedIdx + (content.length - 1) := by omega
    have inContent : content.length - 1 < content.length := by omega
    rw [split, getElem?_unread positioned (by rw [unreadEq, List.length_append]; omega), unreadEq,
      List.getElem?_append_left inContent, List.getElem?_eq_getElem inContent]
    intro isReturn
    exact (unbroken _ (List.getElem_mem inContent)).1 (Option.some.inj isReturn)

/-- A line that has been found ends with two zeros. -/
structure LineEnded (conn after : HttpConn) (count : Nat) : Prop where
  positioned : Positioned after
  zeroed : Zeroed conn.readBuf after.readBuf
  checkedIdx : after.checkedIdx = conn.checkedIdx + count + 2
  firstZero : after.readBuf[conn.checkedIdx + count]? = some 0
  secondZero : after.readBuf[conn.checkedIdx + count + 1]? = some 0

theorem lineEnded {content rest : List Byte}
    (unreadEq : conn.unread = content ++ carriageReturn :: lineFeed :: rest) :
    LineEnded conn (conn.endLine content.length) content.length := by
  have length := length_unread positioned
  have checkedLe := positioned.checked_le
  have readLe := positioned.readIdx_le_length
  rw [unreadEq, List.length_append, List.length_cons, List.length_cons] at length
  have second : (conn.endLine content.length).readBuf[conn.checkedIdx + content.length + 1]? =
      some 0 := List.getElem?_set_self (by rw [List.length_set]; omega)
  refine ⟨⟨?_, positioned.read_le, ?_, ?_, ?_⟩, ?_, rfl, ?_, second⟩
  · dsimp only [endLine]
    rw [List.length_set, List.length_set]
    exact positioned.bufferLength
  · dsimp only [endLine]
    omega
  · have startLe := positioned.start_le
    dsimp only [endLine]
    omega
  · intro index last
    have place : index = conn.checkedIdx + content.length + 1 := by
      dsimp only [endLine] at last
      omega
    rw [place, second]
    decide
  · exact (zeroed_set _ _).trans (zeroed_set _ _)
  · dsimp only [endLine]
    rw [List.getElem?_set_ne (by omega)]
    exact List.getElem?_set_self (by omega)

/-- The line stands in the buffer with zeros behind it. -/
theorem drop_endLine {content rest : List Byte}
    (unreadEq : conn.unread = content ++ carriageReturn :: lineFeed :: rest) :
    ∃ more, (conn.endLine content.length).readBuf.drop conn.checkedIdx =
      content ++ 0 :: 0 :: more := by
  have checkedLe := positioned.checked_le
  have readLe := positioned.readIdx_le_length
  have taken : (conn.readBuf.take conn.readIdx).length = conn.readIdx :=
    List.length_take_of_le readLe
  have whole := List.take_append_drop conn.readIdx conn.readBuf
  have dropEq : conn.readBuf.drop conn.checkedIdx =
      conn.unread ++ conn.readBuf.drop conn.readIdx := by
    rw [unread, ← List.drop_append_of_le_length (by omega), whole]
  refine ⟨rest ++ conn.readBuf.drop conn.readIdx, ?_⟩
  dsimp only [endLine]
  rw [List.drop_set, if_neg (by omega), List.drop_set, if_neg (by omega), dropEq, unreadEq,
    Nat.add_sub_cancel_left, Nat.add_assoc, Nat.add_sub_cancel_left, List.append_assoc,
    List.set_append_right _ _ (Nat.le_refl _), Nat.sub_self, List.set_append_right _ _ (by omega),
    Nat.add_sub_cancel_left]
  rfl

end Stops

theorem unread_endLine {conn : HttpConn} {content rest : List Byte}
    (unreadEq : conn.unread = content ++ carriageReturn :: lineFeed :: rest) :
    (conn.endLine content.length).unread = rest := by
  dsimp only [unread, endLine]
  rw [List.take_set, List.take_set, List.drop_set, if_pos (by omega), List.drop_set,
    if_pos (by omega), Nat.add_assoc, ← List.drop_drop]
  have later : (content ++ carriageReturn :: lineFeed :: rest).drop (content.length + 2) = rest := by
    rw [← List.drop_drop, List.drop_left]
    rfl
  rw [← unreadEq, unread] at later
  exact later

/-- Only the bytes from the checked index on are unread. -/
theorem unread_congr {conn after : HttpConn} (readIdx : after.readIdx = conn.readIdx)
    (checkedIdx : after.checkedIdx = conn.checkedIdx)
    (same : ∀ index : Nat, conn.checkedIdx ≤ index →
      after.readBuf[index]? = conn.readBuf[index]?) : after.unread = conn.unread := by
  apply List.ext_getElem?
  intro place
  rw [unread, unread, readIdx, checkedIdx, List.getElem?_drop, List.getElem?_drop,
    List.getElem?_take, List.getElem?_take]
  split
  · exact same _ (Nat.le_add_right ..)
  · rfl

end HttpConn

end DataStructAlgorithm.HTTPD2
