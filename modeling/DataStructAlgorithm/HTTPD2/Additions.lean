import DataStructAlgorithm.HTTPD2.Response

/-! # Additions to the response

What stands in the write buffer after any calls of the functions that add to it. -/

namespace DataStructAlgorithm.HTTPD2

open Foundation

/-- A call of one of the functions that pass a text on to `add_response`. -/
inductive Addition
  | statusLine (status : Int) (title : List Byte)
  | contentLength (contentLen : Int)
  | linger
  | blankLine
  | content (content : List Byte)
  deriving DecidableEq, Repr

namespace Addition

def call : Addition → HttpConn → HttpConn × Bool
  | .statusLine status title => HttpConn.addStatusLine status title
  | .contentLength contentLen => HttpConn.addContentLength contentLen
  | .linger => HttpConn.addLinger
  | .blankLine => HttpConn.addBlankLine
  | .content form => HttpConn.addContent form

/-- The string that the format and the arguments of a call give. -/
def formatted (conn : HttpConn) : Addition → List Byte
  | .statusLine status title => ascii "HTTP/1.1" ++ ascii " " ++ decimal status ++ ascii " " ++
      title ++ ascii "\r\n"
  | .contentLength contentLen => ascii "Content-Length: " ++ decimal contentLen ++ ascii "\r\n"
  | .linger => ascii "Connection: " ++
      (if conn.linger then ascii "keep_alive" else ascii "close") ++ ascii "\r\n"
  | .blankLine => ascii "\r\n"
  | .content form => form

theorem call_eq (addition : Addition) (conn : HttpConn) :
    addition.call conn = HttpConn.addResponse (addition.formatted conn) conn := by
  cases addition <;> rfl

end Addition

namespace HttpConn

/-- Calls one after the other, and what each of them returns. -/
def addAll : List Addition → HttpConn → HttpConn × List Bool
  | [], conn => (conn, [])
  | addition :: rest, conn =>
      let (conn, added) := addition.call conn
      let (conn, results) := addAll rest conn
      (conn, added :: results)

/-- The strings of the calls that return true. -/
def addedText (conn : HttpConn) (additions : List Addition) (results : List Bool) : List Byte :=
  (additions.zip results).flatMap fun (addition, added) =>
    if added then addition.formatted conn else []

/-! ## One call -/

/-- A text is added if a byte remains in front of the last one of the buffer. -/
theorem addResponse_result (text : List Byte) (conn : HttpConn) :
    (addResponse text conn).2 = decide (conn.writeIdx + text.length < writeBufferSize - 1) := by
  by_cases filled : writeBufferSize ≤ conn.writeIdx
  · have long : ¬ conn.writeIdx + text.length < writeBufferSize - 1 := by omega
    rw [addResponse, if_pos filled, decide_eq_false long]
  · by_cases full : writeBufferSize - 1 - conn.writeIdx ≤ text.length
    · have long : ¬ conn.writeIdx + text.length < writeBufferSize - 1 := by omega
      rw [addResponse, if_neg filled, decide_eq_false long]
      exact congrArg Prod.snd (if_pos full)
    · have short : conn.writeIdx + text.length < writeBufferSize - 1 := by omega
      rw [addResponse, if_neg filled, decide_eq_true short]
      exact congrArg Prod.snd (if_neg full)

theorem addResponse_linger (text : List Byte) (conn : HttpConn) :
    (addResponse text conn).1.linger = conn.linger := by
  rw [addResponse]
  split
  · rfl
  · dsimp only
    split
    · rfl
    · rfl

/-- The text stands at the front of the write buffer, and the buffer is not full. -/
structure Holds (conn : HttpConn) (text : List Byte) : Prop where
  bufferLength : conn.writeBuf.length = writeBufferSize
  front : conn.writeBuf.take conn.writeIdx = text
  room : conn.writeIdx < writeBufferSize - 1

theorem holds_init (conn : HttpConn) : Holds conn.init [] :=
  ⟨List.length_replicate, List.take_zero, show 0 < writeBufferSize - 1 by decide⟩

section Call

variable {conn : HttpConn} {text : List Byte}

theorem Holds.added (holds : Holds conn text) (addition : Addition)
    (added : (addition.call conn).2 = true) :
    Holds (addition.call conn).1 (text ++ addition.formatted conn) := by
  rw [addition.call_eq] at added ⊢
  rw [addResponse_result, decide_eq_true_iff] at added
  rcases addResponse_spec holds.bufferLength (addition.formatted conn) with
    ⟨bufferLength, ⟨front, index, room⟩ | ⟨_, _, tooLong⟩⟩
  · exact ⟨bufferLength, front.trans (by rw [holds.front]), index ▸ room⟩
  · omega

/-- The cut text of a call that fails stands behind the front. -/
theorem Holds.refused (holds : Holds conn text) (addition : Addition)
    (refused : (addition.call conn).2 = false) :
    Holds (addition.call conn).1 text ∧ (addition.call conn).1.writeIdx = conn.writeIdx := by
  rw [addition.call_eq] at refused ⊢
  rw [addResponse_result, decide_eq_false_iff_not] at refused
  rcases addResponse_spec holds.bufferLength (addition.formatted conn) with
    ⟨bufferLength, ⟨_, _, room⟩ | ⟨front, index, _⟩⟩
  · exact absurd room refused
  · exact ⟨⟨bufferLength, front.trans holds.front, index ▸ holds.room⟩, index⟩

theorem formatted_call (addition other : Addition) (conn : HttpConn) :
    other.formatted (addition.call conn).1 = other.formatted conn := by
  rw [addition.call_eq]
  cases other with
  | linger => rw [Addition.formatted, Addition.formatted, addResponse_linger]
  | _ => rfl

end Call

/-! ## All calls -/

theorem addedText_congr {conn other : HttpConn}
    (same : ∀ addition : Addition, addition.formatted other = addition.formatted conn)
    (additions : List Addition) (results : List Bool) :
    addedText other additions results = addedText conn additions results := by
  simp only [addedText, same]

theorem holds_addAll (additions : List Addition) {conn : HttpConn} {text : List Byte}
    (holds : Holds conn text) :
    Holds (addAll additions conn).1
      (text ++ addedText conn additions (addAll additions conn).2) := by
  induction additions generalizing conn text with
  | nil =>
      rw [addedText, List.zip_nil_left, List.flatMap_nil, List.append_nil]
      exact holds
  | cons addition rest induction =>
      have same := addedText_congr (formatted_call addition · conn) rest
        (addAll rest (addition.call conn).1).2
      have split : addedText conn (addition :: rest) (addAll (addition :: rest) conn).2 =
          (if (addition.call conn).2 then addition.formatted conn else []) ++
            addedText (addition.call conn).1 rest (addAll rest (addition.call conn).1).2 := by
        rw [same]
        rfl
      rw [split, ← List.append_assoc]
      apply induction
      cases added : (addition.call conn).2 with
      | true => exact holds.added addition added
      | false =>
          rw [if_neg Bool.false_ne_true, List.append_nil]
          exact (holds.refused addition added).1

/-- After any calls the index is below the last byte but one, the strings of the calls that have
returned true stand in front of it, and a call that returns false changes neither. -/
theorem addAll_init (conn : HttpConn) (additions : List Addition) :
    let after := (addAll additions conn.init).1
    let results := (addAll additions conn.init).2
    after.writeIdx < writeBufferSize - 1 ∧
      after.writeBuf.take after.writeIdx = addedText conn.init additions results ∧
      ∀ addition : Addition, (addition.call after).2 = false →
        (addition.call after).1.writeIdx = after.writeIdx ∧
          (addition.call after).1.writeBuf.take after.writeIdx =
            after.writeBuf.take after.writeIdx := by
  intro after results
  have holds := holds_addAll additions (holds_init conn)
  rw [List.nil_append] at holds
  refine ⟨holds.room, holds.front, fun addition refused => ?_⟩
  rcases holds.refused addition refused with ⟨kept, index⟩
  have front := kept.front
  rw [index] at front
  exact ⟨index, front.trans holds.front.symm⟩

end HttpConn

end DataStructAlgorithm.HTTPD2
