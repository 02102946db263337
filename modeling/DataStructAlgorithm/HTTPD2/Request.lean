import DataStructAlgorithm.Foundation.CString
import DataStructAlgorithm.HTTPD2.Input

/-! # The request of `http_conn.cpp`

The lines that `process_read` prints are not modelled. -/

namespace DataStructAlgorithm.HTTPD2

open Foundation

/-- What `stat` tells about a file, and its bytes. -/
structure FileStat where
  othersRead : Bool
  isDirectory : Bool
  content : List Byte
  deriving DecidableEq, Repr

/-- The files by their paths. -/
abbrev Files := List Byte → Option FileStat

def docRoot : List Byte := ascii "."

def blanks : List Byte := ascii " \t"

namespace HttpConn

/-- The rest of `parse_request_line`, from the target on. -/
def parseTarget (conn : HttpConn) (url : Nat) : Outcome (HttpCode × HttpConn) := do
  let rest ← cString conn.readBuf url
  let url := url + strspn rest blanks
  let conn := { conn with url := some url }
  let rest ← cString conn.readBuf url
  match strpbrk rest blanks with
  | none => pure (.badRequest, { conn with version := none })
  | some offset => do
      let version := url + offset
      let readBuf ← writeAt conn.readBuf version 0
      let rest ← cString readBuf (version + 1)
      let version := version + 1 + strspn rest blanks
      let conn := { conn with readBuf := readBuf, version := some version }
      let versionText ← cString conn.readBuf version
      if ¬sameText versionText (ascii "HTTP/1.1") then pure (.badRequest, conn)
      else do
        let urlText ← cString conn.readBuf url
        let target := if sameStart 7 urlText (ascii "http://") then
            (strchr (urlText.drop 7) 47).map fun offset => url + 7 + offset
          else some url
        let conn := { conn with url := target }
        match target with
        | none => pure (.badRequest, conn)
        | some url => do
            let first ← readAt conn.readBuf url
            if first ≠ 47 then pure (.badRequest, conn)
            else pure (.noRequest, { conn with checkState := .header })

/-- `http_conn::parse_request_line` -/
def parseRequestLine (conn : HttpConn) (text : Nat) : Outcome (HttpCode × HttpConn) := do
  let line ← cString conn.readBuf text
  match strpbrk line blanks with
  | none => pure (.badRequest, { conn with url := none })
  | some offset => do
      let url := text + offset
      let readBuf ← writeAt conn.readBuf url 0
      let conn := { conn with readBuf := readBuf, url := some (url + 1) }
      let method ← cString conn.readBuf text
      if sameText method (ascii "GET") then
        parseTarget { conn with method := .get } (url + 1)
      else if sameText method (ascii "POST") then
        parseTarget { conn with method := .post, checkState := .content } (url + 1)
      else pure (.badRequest, conn)

/-- `http_conn::parse_headers`. The name `Connection` is compared with the zero behind
it, and what comes after that zero is taken for the value. -/
def parseHeaders (conn : HttpConn) (text : Nat) : Outcome (HttpCode × HttpConn) := do
  let line ← cString conn.readBuf text
  if line = [] then
    if conn.contentLength ≠ 0 then pure (.noRequest, { conn with checkState := .content })
    else pure (.getRequest, conn)
  else if sameStart 11 line (ascii "Connection") then do
    let rest ← cString conn.readBuf (text + 11)
    let value ← cString conn.readBuf (text + 11 + strspn rest blanks)
    if sameText value (ascii "keep-alive") then pure (.noRequest, { conn with linger := true })
    else pure (.noRequest, conn)
  else if sameStart 15 line (ascii "Content-Length:") then do
    let rest ← cString conn.readBuf (text + 15)
    let value ← cString conn.readBuf (text + 15 + strspn rest blanks)
    pure (.noRequest,
      { conn with contentLength := toInt (atol value), checkState := .content })
  else if sameStart 5 line (ascii "Host:") then do
    let rest ← cString conn.readBuf (text + 5)
    pure (.noRequest, { conn with host := some (text + 5 + strspn rest blanks) })
  else pure (.noRequest, conn)

/-- `http_conn::parse_content`, which ends without a value as long as the body is not
complete; `undefinedCode` is what the caller finds then. -/
def parseContent (conn : HttpConn) (text : Nat) (undefinedCode : HttpCode) :
    Outcome (HttpCode × HttpConn) := do
  let needed ← addInt conn.contentLength conn.checkedIdx
  if needed ≤ conn.readIdx then do
    let readBuf ← storeAt conn.readBuf (text + conn.contentLength) 0
    pure (.getRequest, { conn with readBuf := readBuf })
  else pure (undefinedCode, conn)

/-- `http_conn::do_request` -/
def doRequest (conn : HttpConn) (files : Files) : Outcome (HttpCode × HttpConn) :=
  match conn.url with
  | none => .error .nullPointer
  | some url => do
      let urlText ← cString conn.readBuf url
      let realFile := overwrite conn.realFile 0 (docRoot ++ [0])
      let len := docRoot.length
      let realFile := overwrite realFile len (strncpy urlText (fileNameLen - len - 1))
      let path ← cString realFile 0
      let conn := { conn with realFile := realFile }
      match files path with
      | none => pure (.noRequest, conn)
      | some stat =>
          let conn := { conn with fileSize := stat.content.length }
          if ¬stat.othersRead then pure (.forbiddenRequest, conn)
          else if stat.isDirectory then pure (.badRequest, conn)
          else pure (.fileRequest, { conn with fileAddress := some stat.content })

/-- The state of the loop of `process_read`. -/
structure Reading where
  conn : HttpConn
  lineStatus : LineStatus

/-- The condition of the loop: in the body no line is looked for as long as the status
of the last one is `LINE_OK`. -/
def nextLine (reading : Reading) : Outcome Reading :=
  if reading.conn.checkState = .content ∧ reading.lineStatus = .ok then .ok reading
  else do
    let (lineStatus, conn) ← reading.conn.parseLine
    pure ⟨conn, lineStatus⟩

/-- The body of the loop, for a line that begins at `text`. -/
def handleLine (files : Files) (undefinedCode : HttpConn → HttpCode) (conn : HttpConn)
    (text : Nat) : Outcome (Pass Reading (HttpCode × HttpConn)) :=
  match conn.checkState with
  | .requestLine => do
      let (ret, conn) ← conn.parseRequestLine text
      if ret = .badRequest then pure (.leave (.badRequest, conn)) else pure (.again ⟨conn, .ok⟩)
  | .header => do
      let (ret, conn) ← conn.parseHeaders text
      if ret = .badRequest then pure (.leave (.badRequest, conn))
      else if ret = .getRequest then do
        let result ← conn.doRequest files
        pure (.leave result)
      else pure (.again ⟨conn, .open⟩)
  | .content => do
      let (ret, conn) ← conn.parseContent text (undefinedCode conn)
      if ret = .getRequest then do
        let result ← conn.doRequest files
        pure (.leave result)
      else pure (.again ⟨conn, .open⟩)

/-- One pass through the loop of `process_read`. -/
def readPass (files : Files) (undefinedCode : HttpConn → HttpCode) (reading : Reading) :
    Outcome (Pass Reading (HttpCode × HttpConn)) := do
  let reading ← nextLine reading
  let conn := reading.conn
  if reading.lineStatus ≠ .ok then pure (.leave (.noRequest, conn))
  else handleLine files undefinedCode { conn with startLine := conn.checkedIdx } conn.startLine

/-- `http_conn::process_read` -/
def processRead (conn : HttpConn) (files : Files) (undefinedCode : HttpConn → HttpCode) :
    Outcome (HttpCode × HttpConn) :=
  repeatLoop (readPass files undefinedCode) (conn.readIdx - conn.checkedIdx + 2) ⟨conn, .ok⟩

end HttpConn

end DataStructAlgorithm.HTTPD2
