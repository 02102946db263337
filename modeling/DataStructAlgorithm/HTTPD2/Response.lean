import DataStructAlgorithm.HTTPD2.HttpConn

/-! # The response of `http_conn.cpp` -/

namespace DataStructAlgorithm.HTTPD2

open Foundation

def ok200Title : List Byte := ascii "OK"

def error400Title : List Byte := ascii "Bad Request"

def error400Form : List Byte :=
  ascii "Your request has bad syntax or is interently impossible to satisfy.\n"

def error403Title : List Byte := ascii "Forbidden"

def error403Form : List Byte :=
  ascii "You do not have permission to get file from this server.\n"

def error404Title : List Byte := ascii "Not Found"

def error404Form : List Byte := ascii "The requested file was not found on this server.\n"

def error500Title : List Byte := ascii "Internal Error"

def error500Form : List Byte :=
  ascii "There was an unusual problem serving the requested file.\n"

namespace HttpConn

/-- `add_response` with the text that its format and arguments give. -/
def addResponse (text : List Byte) (conn : HttpConn) : HttpConn × Bool :=
  if writeBufferSize ≤ conn.writeIdx then (conn, false)
  else
    let size := writeBufferSize - 1 - conn.writeIdx
    let conn := { conn with writeBuf := printInto conn.writeBuf conn.writeIdx size text }
    if size ≤ text.length then (conn, false)
    else ({ conn with writeIdx := conn.writeIdx + text.length }, true)

def addStatusLine (status : Int) (title : List Byte) : HttpConn → HttpConn × Bool :=
  addResponse (ascii "HTTP/1.1" ++ ascii " " ++ decimal status ++ ascii " " ++ title ++
    ascii "\r\n")

def addContentLength (contentLen : Int) : HttpConn → HttpConn × Bool :=
  addResponse (ascii "Content-Length: " ++ decimal contentLen ++ ascii "\r\n")

def addLinger (conn : HttpConn) : HttpConn × Bool :=
  addResponse (ascii "Connection: " ++ (if conn.linger then ascii "keep_alive" else ascii "close") ++
    ascii "\r\n") conn

def addBlankLine : HttpConn → HttpConn × Bool := addResponse (ascii "\r\n")

/-- `add_headers`, whose result is never used. -/
def addHeaders (contentLen : Int) (conn : HttpConn) : HttpConn :=
  let (conn, _) := addContentLength contentLen conn
  let (conn, _) := addLinger conn
  let (conn, _) := addBlankLine conn
  conn

def addContent (content : List Byte) : HttpConn → HttpConn × Bool := addResponse content

/-- The end of `process_write`. -/
def offerBuffer (conn : HttpConn) : HttpConn :=
  { conn with iv := [⟨.writeBuf, conn.writeIdx⟩] }

/-- The header and the mapped file behind it. -/
def offerFile (conn : HttpConn) : HttpConn :=
  { conn with iv := [⟨.writeBuf, conn.writeIdx⟩, ⟨.fileAddress, conn.fileSize⟩] }

/-- The cases of `process_write` that answer with a text. -/
def answer (status : Int) (title form : List Byte) (conn : HttpConn) : HttpConn × Bool :=
  let (conn, _) := addStatusLine status title conn
  let conn := addHeaders form.length conn
  let (conn, added) := addContent form conn
  if added then (conn.offerBuffer, true) else (conn, false)

/-- `process_write`. An empty file gets as far as `add_content` and then falls into
the default case. -/
def processWrite (code : HttpCode) (conn : HttpConn) : HttpConn × Bool :=
  match code with
  | .internalError => answer 500 error500Title error500Form conn
  | .badRequest => answer 400 error400Title error400Form conn
  | .noResource => answer 404 error404Title error404Form conn
  | .forbiddenRequest => answer 403 error403Title error403Form conn
  | .fileRequest =>
      let (conn, _) := addStatusLine 200 ok200Title conn
      if conn.fileSize ≠ 0 then
        ((addHeaders (toInt conn.fileSize) conn).offerFile, true)
      else
        let okString := ascii "<html><body> hello ckr </body></html>"
        let conn := addHeaders okString.length conn
        let (conn, _) := addContent okString conn
        (conn, false)
  | _ => (conn, false)

/-! ## The first byte of the header -/

/-- The text in the write buffer begins with an `H`, and there is no other one in it. -/
structure BeginsWithH (conn : HttpConn) : Prop where
  bufferLength : conn.writeBuf.length = writeBufferSize
  text : ∃ tail, conn.writeBuf.take conn.writeIdx = 72 :: tail ∧ (72 : Byte) ∉ tail
  writeIdx_le : conn.writeIdx ≤ writeBufferSize

/-- What `add_response` leaves alone. -/
structure SameFile (conn after : HttpConn) : Prop where
  fileAddress : after.fileAddress = conn.fileAddress
  fileSize : after.fileSize = conn.fileSize

theorem SameFile.trans {first second third : HttpConn} (before : SameFile first second)
    (after : SameFile second third) : SameFile first third :=
  ⟨after.fileAddress.trans before.fileAddress, after.fileSize.trans before.fileSize⟩

theorem sameFile_addResponse (text : List Byte) (conn : HttpConn) :
    SameFile conn (addResponse text conn).1 := by
  rw [addResponse]
  split
  · exact ⟨rfl, rfl⟩
  · dsimp only
    split
    · exact ⟨rfl, rfl⟩
    · exact ⟨rfl, rfl⟩

theorem sameFile_addHeaders (contentLen : Int) (conn : HttpConn) :
    SameFile conn (addHeaders contentLen conn) :=
  (sameFile_addResponse _ conn).trans
    ((sameFile_addResponse _ _).trans (sameFile_addResponse _ _))

/-- A text that is added stands behind what is there. -/
theorem addResponse_spec {conn : HttpConn} (bufferLength : conn.writeBuf.length = writeBufferSize)
    (text : List Byte) :
    (addResponse text conn).1.writeBuf.length = writeBufferSize ∧
      ((addResponse text conn).1.writeBuf.take (addResponse text conn).1.writeIdx =
          conn.writeBuf.take conn.writeIdx ++ text ∧
        (addResponse text conn).1.writeIdx = conn.writeIdx + text.length ∧
        conn.writeIdx + text.length < writeBufferSize - 1 ∨
      (addResponse text conn).1.writeBuf.take (addResponse text conn).1.writeIdx =
          conn.writeBuf.take conn.writeIdx ∧
        (addResponse text conn).1.writeIdx = conn.writeIdx ∧
        writeBufferSize ≤ conn.writeIdx + text.length + 1) := by
  by_cases filled : writeBufferSize ≤ conn.writeIdx
  · rw [addResponse, if_pos filled]
    exact ⟨bufferLength, Or.inr ⟨rfl, rfl, by omega⟩⟩
  · let size := writeBufferSize - 1 - conn.writeIdx
    by_cases full : size ≤ text.length
    · have result : addResponse text conn = ({ conn with
          writeBuf := printInto conn.writeBuf conn.writeIdx size text }, false) := by
        rw [addResponse, if_neg filled]
        exact if_pos full
      rw [result]
      by_cases none : size = 0
      · simp only [printInto, if_pos none]
        exact ⟨bufferLength, Or.inr ⟨trivial, trivial, by omega⟩⟩
      · have room : conn.writeIdx + (text.take (size - 1) ++ [0]).length ≤
            conn.writeBuf.length := by
          simp only [List.length_append, List.length_take, List.length_singleton]
          omega
        simp only [printInto, if_neg none]
        refine ⟨(length_overwrite room).trans bufferLength, Or.inr ⟨?_, trivial, by omega⟩⟩
        have kept := take_overwrite (text.take (size - 1) ++ [0])
          (show conn.writeIdx ≤ conn.writeBuf.length by omega) (Nat.zero_le _)
        rw [Nat.add_zero, List.take_zero, List.append_nil] at kept
        exact kept
    · have result : addResponse text conn = ({ conn with
          writeBuf := printInto conn.writeBuf conn.writeIdx size text
          writeIdx := conn.writeIdx + text.length }, true) := by
        rw [addResponse, if_neg filled]
        exact if_neg full
      have some : size ≠ 0 := by omega
      have whole : text.take (size - 1) = text := List.take_of_length_le (by omega)
      have room : conn.writeIdx + (text ++ [0]).length ≤ conn.writeBuf.length := by
        simp only [List.length_append, List.length_singleton]
        omega
      rw [result]
      simp only [printInto, if_neg some, whole]
      refine ⟨(length_overwrite room).trans bufferLength, Or.inl ⟨?_, trivial, by omega⟩⟩
      rw [take_overwrite (text ++ [0]) (show conn.writeIdx ≤ conn.writeBuf.length by omega)
        (by simp), List.take_left]

theorem BeginsWithH.addResponse {conn : HttpConn} (begins : BeginsWithH conn) {text : List Byte}
    (absent : (72 : Byte) ∉ text) : BeginsWithH (addResponse text conn).1 := by
  rcases begins.text with ⟨tail, taken, unrepeated⟩
  rcases addResponse_spec begins.bufferLength text with
    ⟨length, ⟨added, index, room⟩ | ⟨same, index, _⟩⟩
  · refine ⟨length, ⟨tail ++ text, by rw [added, taken]; rfl, ?_⟩, by rw [index]; omega⟩
    rw [List.mem_append, not_or]
    exact ⟨unrepeated, absent⟩
  · exact ⟨length, ⟨tail, same.trans taken, unrepeated⟩, index ▸ begins.writeIdx_le⟩

theorem absent_decimal (value : Int) : (72 : Byte) ∉ decimal value := by
  intro member
  rcases digit_of_mem_decimal member with sign | digit
  · cases sign
  · exact absurd digit.2 (by decide)

theorem BeginsWithH.addHeaders {conn : HttpConn} (begins : BeginsWithH conn) (contentLen : Int) :
    BeginsWithH (addHeaders contentLen conn) := by
  have lengthAbsent : (72 : Byte) ∉
      ascii "Content-Length: " ++ decimal contentLen ++ ascii "\r\n" := by
    rw [List.mem_append, List.mem_append, not_or, not_or]
    exact ⟨⟨by decide, absent_decimal contentLen⟩, by decide⟩
  have lingerAbsent : ∀ linger : Bool, (72 : Byte) ∉ ascii "Connection: " ++
      (if linger then ascii "keep_alive" else ascii "close") ++ ascii "\r\n" := by
    decide
  have first := begins.addResponse lengthAbsent
  have second := first.addResponse (lingerAbsent (addContentLength contentLen conn).1.linger)
  exact second.addResponse (by decide)

/-- The status line is the first text in the buffer. -/
theorem beginsWithH_addStatusLine {conn : HttpConn}
    (bufferLength : conn.writeBuf.length = writeBufferSize) (empty : conn.writeIdx = 0)
    (status : Int) (title : List Byte)
    (absent : (72 : Byte) ∉ decimal status ++ ascii " " ++ title ++ ascii "\r\n")
    (short : (decimal status ++ title).length < 100) :
    BeginsWithH (addStatusLine status title conn).1 := by
  rcases addResponse_spec bufferLength (ascii "HTTP/1.1" ++ ascii " " ++ decimal status ++
    ascii " " ++ title ++ ascii "\r\n") with ⟨length, ⟨added, index, room⟩ | ⟨_, _, tooLong⟩⟩
  · refine ⟨length, ⟨ascii "TTP/1.1 " ++ (decimal status ++ ascii " " ++ title ++ ascii "\r\n"),
      ?_, ?_⟩, ?_⟩
    · rw [addStatusLine, added, empty, List.take_zero, List.nil_append]
      simp only [List.append_assoc]
      rfl
    · rw [List.mem_append, not_or]
      exact ⟨by decide, absent⟩
    · rw [addStatusLine, index]
      omega
  · simp only [List.length_append] at tooLong short
    have one : (ascii "HTTP/1.1").length = 8 := rfl
    have two : (ascii " ").length = 1 := rfl
    have three : (ascii "\r\n").length = 2 := rfl
    rw [one, two, three, empty, writeBufferSize] at tooLong
    omega

end HttpConn

end DataStructAlgorithm.HTTPD2
