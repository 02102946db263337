import DataStructAlgorithm.HTTPD2.Response
import DataStructAlgorithm.HTTPD2.WellFormed

/-! # The codes of `process_read`

For the first bytes of a connection: when `process_read` waits for more, and when it
refuses the request. -/

namespace DataStructAlgorithm.HTTPD2

open Foundation

/-- The codes that `process_write` answers with an error. -/
def isError : HttpCode → Bool
  | .internalError => true
  | .badRequest => true
  | .noResource => true
  | .forbiddenRequest => true
  | _ => false

theorem processWrite_of_isError {code : HttpCode} (error : isError code = true) :
    ∃ status title form, HttpConn.processWrite code = HttpConn.answer status title form := by
  cases code with
  | internalError => exact ⟨500, error500Title, error500Form, rfl⟩
  | badRequest => exact ⟨400, error400Title, error400Form, rfl⟩
  | noResource => exact ⟨404, error404Title, error404Form, rfl⟩
  | forbiddenRequest => exact ⟨403, error403Title, error403Form, rfl⟩
  | noRequest => cases error
  | getRequest => cases error
  | fileRequest => cases error
  | closedConnection => cases error

/-- The request line is complete, and `parse_request_line` rejects it. -/
def Rejected (bytes : List Byte) : Prop :=
  ∃ content rest, scan bytes = .line content rest ∧ requestTarget (lineText content) = none

theorem not_rejected {bytes content rest : List Byte} (scanned : scan bytes = .line content rest)
    (accepted : requestTarget (lineText content) ≠ none) : ¬Rejected bytes := by
  rintro ⟨other, otherRest, otherScanned, noTarget⟩
  rw [scanned] at otherScanned
  cases otherScanned
  exact accepted noTarget

/-- The request is refused with a code that is answered. -/
def Refused (processed : Outcome (HttpCode × HttpConn)) : Prop :=
  ∃ code after, processed = .ok (code, after) ∧ isError code = true

/-- The file exists that a whole request at the beginning of the bytes asks for. -/
def FileFound (bytes : List Byte) (files : Files) : Prop :=
  ∃ (request : Request) (path : List Byte), request.bytes <+: bytes ∧
    requestTarget (lineText request.requestLine) = some path ∧ files (filePath path) ≠ none

/-- What is to be expected of `process_read` for the bytes in the buffer. -/
structure Handled (bytes : List Byte) (files : Files) (processed : Outcome (HttpCode × HttpConn)) :
    Prop where
  waits : ∀ after, processed = .ok (.noRequest, after) → Incomplete bytes
  malformed : MalformedLine bytes → Refused processed
  missing : ∀ (request : Request) (path : List Byte), request.bytes <+: bytes →
    requestTarget (lineText request.requestLine) = some path →
      files (filePath path) = none → Refused processed

namespace HttpConn

/-! ## The first bytes -/

/-- A new connection that has received some bytes. -/
structure Filled (bytes : List Byte) (conn : HttpConn) : Prop where
  positioned : Positioned conn
  ready : FileReady conn
  start : conn.startLine = conn.checkedIdx
  unread : conn.unread = bytes
  state : conn.checkState = .requestLine
  contentLength : conn.contentLength = 0

theorem receive_fresh (bytes : List Byte) (fits : bytes.length ≤ readBufferSize) :
    ∃ filled, fresh.init.receive bytes = .ok filled := by
  have zero : fresh.init.readIdx = 0 := rfl
  have room : fresh.init.readIdx + bytes.length ≤ readBufferSize := by
    rw [zero, Nat.zero_add]
    exact fits
  rcases (init_positioned fresh).receive room with ⟨_, received, _⟩
  exact ⟨_, received⟩

theorem filled_of_receive {conn filled : HttpConn} {bytes : List Byte}
    (received : conn.init.receive bytes = .ok filled) : Filled bytes filled := by
  have room : conn.init.readIdx + bytes.length ≤ readBufferSize := by
    rw [receive] at received
    split at received
    · rename_i room
      rw [← (init_positioned conn).bufferLength]
      exact room
    · cases received
  rcases (init_positioned conn).receive room with ⟨readBuf, same, positioned, taken, _⟩
  rw [same] at received
  cases received
  exact ⟨positioned, ⟨List.length_replicate, rfl⟩, rfl, taken, rfl, rfl⟩

/-- Unless a body is being read, the next line is the first one that is unread. -/
theorem nextLine_eq {reading : Reading} (positioned : Positioned reading.conn)
    (notInBody : ¬(reading.conn.checkState = .content ∧ reading.lineStatus = .ok)) :
    nextLine reading = .ok ⟨(reading.conn.lineResult (scan reading.conn.unread)).2,
      (reading.conn.lineResult (scan reading.conn.unread)).1⟩ := by
  rw [nextLine, if_neg notInBody, parseLine_eq positioned]
  rfl

section Line

variable (reading : Reading) (positioned : Positioned reading.conn)
  (notInBody : ¬(reading.conn.checkState = .content ∧ reading.lineStatus = .ok))
  (files : Files) (undefinedCode : HttpConn → HttpCode)

include positioned notInBody

/-- The loop ends with the first line that is not complete. -/
theorem readPass_stops (noLine : ∀ content rest, scan reading.conn.unread ≠ .line content rest) :
    ∃ after, readPass files undefinedCode reading = .ok (.leave (.noRequest, after)) := by
  rw [readPass, nextLine_eq positioned notInBody, Outcome.ok_bind]
  cases scanned : scan reading.conn.unread with
  | line content rest => exact absurd scanned (noLine content rest)
  | «open» content => exact ⟨_, rfl⟩
  | bad content => exact ⟨_, rfl⟩

theorem readPass_line {content rest : List Byte}
    (scanned : scan reading.conn.unread = .line content rest) :
    readPass files undefinedCode reading = handleLine files undefinedCode
      (reading.conn.endLine content.length).startNext reading.conn.startLine := by
  rw [readPass, nextLine_eq positioned notInBody, Outcome.ok_bind, scanned]
  rfl

end Line

/-- A line that has been found, as a string. -/
theorem endLine_stands {conn : HttpConn} {content rest : List Byte} (positioned : Positioned conn)
    (start : conn.startLine = conn.checkedIdx)
    (unreadEq : conn.unread = content ++ carriageReturn :: lineFeed :: rest) :
    StringAt (conn.endLine content.length).readBuf conn.startLine (lineText content) ∧
      conn.startLine + (lineText content).length + 2 ≤ (conn.endLine content.length).checkedIdx := by
  rcases drop_endLine positioned unreadEq with ⟨more, dropEq⟩
  rw [start]
  refine ⟨StringAt.of_takeWhile dropEq, ?_⟩
  have short := (List.takeWhile_sublist (p := fun byte : Byte => byte != 0) (l := content)).length_le
  dsimp only [lineText, endLine]
  omega

/-- A connection between two lines, behind a request line that asks for a path. -/
structure Between (path bytes : List Byte) (conn : HttpConn) : Prop where
  positioned : Positioned conn
  ready : FileReady conn
  start : conn.startLine = conn.checkedIdx
  unread : conn.unread = bytes
  target : ∃ url, conn.url = some url ∧ StringAt conn.readBuf url path ∧
    url + path.length < conn.checkedIdx

section First

variable {bytes content rest : List Byte} {conn : HttpConn} (filled : Filled bytes conn)
  (scanned : scan bytes = .line content rest) (files : Files)
  (undefinedCode : HttpConn → HttpCode)

include filled scanned

/-- The first pass, for a request line that is complete. -/
theorem first_pass :
    (requestTarget (lineText content) = none → ∃ after,
      readPass files undefinedCode ⟨conn, .ok⟩ = .ok (.leave (.badRequest, after))) ∧
    ∀ path, requestTarget (lineText content) = some path → ∃ next,
      readPass files undefinedCode ⟨conn, .ok⟩ = .ok (.again ⟨next, .ok⟩) ∧
        Between path rest next ∧ next.checkState = .header ∧ next.contentLength = 0 := by
  have notInBody : ¬(conn.checkState = .content ∧ LineStatus.ok = .ok) := by
    rw [filled.state]
    nofun
  have describes := scan_describes bytes
  rw [scanned] at describes
  have unreadEq := filled.unread.trans describes.2
  rcases endLine_stands filled.positioned filled.start unreadEq with ⟨stands, lineLe⟩
  have ended := lineEnded filled.positioned unreadEq
  have positioned := ended.positioned.startNext
  have finds := parseRequestLine_eq (show StringAt
    (conn.endLine content.length).startNext.readBuf conn.startLine (lineText content) from stands)
  have passEq := readPass_line ⟨conn, .ok⟩ filled.positioned notInBody files
    undefinedCode (filled.unread ▸ scanned)
  have state : (conn.endLine content.length).startNext.checkState = .requestLine := filled.state
  rw [passEq, handleLine, state]
  constructor
  · intro rejected
    rw [rejected] at finds
    rcases finds with ⟨after, parsed, _⟩
    rw [parsed]
    exact ⟨_, rfl⟩
  · intro path accepted
    rw [accepted] at finds
    rcases finds with ⟨after, target, parsed, kept, header, length, beyond, url, stands, within⟩
    rw [parsed]
    refine ⟨after, rfl, ⟨kept.positioned positioned, ?_, ?_, ?_, ?_⟩, header,
      length.trans filled.contentLength⟩
    · refine ⟨?_, ?_⟩
      · rw [kept.realFile]
        exact filled.ready.length
      · rw [kept.realFile]
        exact filled.ready.ends
    · rw [kept.startLine, kept.checkedIdx]
      rfl
    · rw [unread_congr kept.readIdx kept.checkedIdx fun index later => beyond index ?_]
      · exact unread_endLine unreadEq
      · dsimp only [startNext] at later
        omega
    · refine ⟨target, url, stands, ?_⟩
      rw [kept.checkedIdx]
      dsimp only [startNext]
      omega

end First

/-! ## Without files -/

theorem checkState_parseLineLoop (remaining : Nat) {conn after : HttpConn} {status : LineStatus}
    (parsed : parseLineLoop remaining conn = .ok (status, after)) :
    after.checkState = conn.checkState := by
  induction remaining generalizing conn with
  | zero =>
      cases parsed
      rfl
  | succ remaining induction =>
      rw [parseLineLoop] at parsed
      rcases Outcome.bind_eq_ok parsed with ⟨temp, _, parsed⟩
      split at parsed
      · split at parsed
        · cases parsed
          rfl
        · rcases Outcome.bind_eq_ok parsed with ⟨next, _, parsed⟩
          split at parsed
          · rcases Outcome.bind_eq_ok parsed with ⟨first, _, parsed⟩
            rcases Outcome.bind_eq_ok parsed with ⟨second, _, parsed⟩
            cases parsed
            rfl
          · cases parsed
            rfl
      · split at parsed
        · split at parsed
          · rcases Outcome.bind_eq_ok parsed with ⟨previous, _, parsed⟩
            split at parsed
            · rcases Outcome.bind_eq_ok parsed with ⟨first, _, parsed⟩
              rcases Outcome.bind_eq_ok parsed with ⟨second, _, parsed⟩
              cases parsed
              rfl
            · cases parsed
              rfl
          · cases parsed
            rfl
        · have same := induction parsed
          exact same

theorem checkState_nextLine {reading after : Reading} (found : nextLine reading = .ok after) :
    after.conn.checkState = reading.conn.checkState := by
  rw [nextLine] at found
  split at found
  · cases found
    rfl
  · rcases Outcome.bind_eq_ok found with ⟨⟨status, conn⟩, parsed, found⟩
    cases found
    exact checkState_parseLineLoop _ parsed

/-- `parse_headers` rejects nothing. -/
theorem parseHeaders_accepts {conn after : HttpConn} {text : Nat} {ret : HttpCode}
    (notFirst : conn.checkState ≠ .requestLine)
    (parsed : conn.parseHeaders text = .ok (ret, after)) :
    ret ≠ .badRequest ∧ after.checkState ≠ .requestLine := by
  rw [parseHeaders] at parsed
  rcases Outcome.bind_eq_ok parsed with ⟨line, _, parsed⟩
  split at parsed
  · split at parsed
    · cases parsed
      exact ⟨fun equal => (by cases equal), fun equal => (by cases equal)⟩
    · cases parsed
      exact ⟨fun equal => (by cases equal), notFirst⟩
  · split at parsed
    · rcases Outcome.bind_eq_ok parsed with ⟨rest, _, parsed⟩
      rcases Outcome.bind_eq_ok parsed with ⟨value, _, parsed⟩
      split at parsed
      · cases parsed
        exact ⟨fun equal => (by cases equal), notFirst⟩
      · cases parsed
        exact ⟨fun equal => (by cases equal), notFirst⟩
    · split at parsed
      · rcases Outcome.bind_eq_ok parsed with ⟨rest, _, parsed⟩
        rcases Outcome.bind_eq_ok parsed with ⟨value, _, parsed⟩
        cases parsed
        exact ⟨fun equal => (by cases equal), fun equal => (by cases equal)⟩
      · split at parsed
        · rcases Outcome.bind_eq_ok parsed with ⟨rest, _, parsed⟩
          cases parsed
          exact ⟨fun equal => (by cases equal), notFirst⟩
        · cases parsed
          exact ⟨fun equal => (by cases equal), notFirst⟩

theorem checkState_parseContent {conn after : HttpConn} {text : Nat} {ret undefinedCode : HttpCode}
    (parsed : conn.parseContent text undefinedCode = .ok (ret, after)) :
    after.checkState = conn.checkState := by
  rw [parseContent] at parsed
  rcases Outcome.bind_eq_ok parsed with ⟨needed, _, parsed⟩
  split at parsed
  · rcases Outcome.bind_eq_ok parsed with ⟨buffer, _, parsed⟩
    cases parsed
    rfl
  · cases parsed
    rfl

/-- A file that does not exist gives the code of an unfinished request. -/
theorem doRequest_without_files {conn : HttpConn} {result : HttpCode × HttpConn}
    (requested : conn.doRequest (fun _ => none) = .ok result) : result.1 = .noRequest := by
  rw [doRequest] at requested
  split at requested
  · cases requested
  · rcases Outcome.bind_eq_ok requested with ⟨urlText, _, requested⟩
    rcases Outcome.bind_eq_ok requested with ⟨path, _, requested⟩
    cases requested
    rfl

/-- Behind the request line, how a pass ends when there are no files. -/
def EndsWaiting : Outcome (Pass Reading (HttpCode × HttpConn)) → Prop
  | .error _ => True
  | .ok (.again next) => next.conn.checkState ≠ .requestLine
  | .ok (.leave result) => result.1 = .noRequest

theorem doRequest_endsWaiting (conn : HttpConn) :
    EndsWaiting (do
      let result ← conn.doRequest (fun _ => none)
      pure (.leave result)) := by
  cases requested : conn.doRequest (fun _ => none) with
  | error fault => trivial
  | ok result => exact doRequest_without_files requested

theorem readPass_endsWaiting (undefinedCode : HttpConn → HttpCode) {reading : Reading}
    (notFirst : reading.conn.checkState ≠ .requestLine) :
    EndsWaiting (readPass (fun _ => none) undefinedCode reading) := by
  rw [readPass]
  cases found : nextLine reading with
  | error fault => trivial
  | ok after =>
      have afterNotFirst : after.conn.startNext.checkState ≠ .requestLine := by
        rw [← checkState_nextLine found] at notFirst
        exact notFirst
      rw [Outcome.ok_bind]
      split
      · rfl
      · change EndsWaiting (handleLine _ _ after.conn.startNext after.conn.startLine)
        rw [handleLine]
        split
        · rename_i first
          exact absurd first afterNotFirst
        · cases parsed : after.conn.startNext.parseHeaders after.conn.startLine with
          | error fault => trivial
          | ok result =>
              have accepts := parseHeaders_accepts afterNotFirst parsed
              rw [Outcome.ok_bind]
              dsimp only
              rw [if_neg accepts.1]
              split
              · exact doRequest_endsWaiting result.2
              · exact accepts.2
        · rename_i content
          cases parsed : after.conn.startNext.parseContent after.conn.startLine
              (undefinedCode after.conn.startNext) with
          | error fault => trivial
          | ok result =>
              rw [Outcome.ok_bind]
              dsimp only
              split
              · exact doRequest_endsWaiting result.2
              · change result.2.checkState ≠ .requestLine
                rw [checkState_parseContent parsed]
                exact afterNotFirst

theorem repeatLoop_waits (undefinedCode : HttpConn → HttpCode) (fuel : Nat) {reading : Reading}
    (notFirst : reading.conn.checkState ≠ .requestLine) {result : HttpCode × HttpConn}
    (returned : repeatLoop (readPass (fun _ => none) undefinedCode) fuel reading = .ok result) :
    result.1 = .noRequest := by
  apply repeatLoop_partial (fun reading : Reading => reading.conn.checkState ≠ .requestLine)
    (fun result : HttpCode × HttpConn => result.1 = .noRequest) _ _ fuel reading result notFirst
    returned
  · intro state next kept pass
    have ends := readPass_endsWaiting undefinedCode kept
    rw [pass] at ends
    exact ends
  · intro state final kept pass
    have ends := readPass_endsWaiting undefinedCode kept
    rw [pass] at ends
    exact ends

/-! ## Whole requests -/

section Finish

variable {path content rest : List Byte} {conn : HttpConn} (files : Files)
  (undefinedCode : HttpConn → HttpCode)

theorem Between.request_finishes {bytes : List Byte} (between : Between path bytes conn) :
    ∃ after : HttpConn, (do
      let result ← conn.doRequest files
      pure (Pass.leave result) : Outcome (Pass Reading (HttpCode × HttpConn))) =
        .ok (.leave (fileCode (files (filePath path)), after)) := by
  rcases between.target with ⟨url, urlEq, stands, _⟩
  rcases doRequest_eq files urlEq stands between.ready with ⟨after, requested, _⟩
  exact ⟨after, by rw [requested]; rfl⟩

/-- Zeros behind the target do not matter. -/
theorem target_congr {after : HttpConn}
    (target : ∃ url, conn.url = some url ∧ StringAt conn.readBuf url path ∧
      url + path.length < conn.checkedIdx)
    (url : after.url = conn.url) (further : conn.checkedIdx ≤ after.checkedIdx)
    (same : ∀ index : Nat, index < conn.checkedIdx →
      after.readBuf[index]? = conn.readBuf[index]?) :
    ∃ url, after.url = some url ∧ StringAt after.readBuf url path ∧
      url + path.length < after.checkedIdx := by
  rcases target with ⟨place, urlEq, stands, within⟩
  refine ⟨place, url.trans urlEq, stands.congr fun index _ high => same index (by omega), by omega⟩

theorem Between.nextLine
    (between : Between path (content ++ carriageReturn :: lineFeed :: rest) conn) :
    Between path rest (conn.endLine content.length).startNext := by
  have ended := lineEnded between.positioned between.unread
  refine ⟨ended.positioned.startNext, ⟨between.ready.length, between.ready.ends⟩, rfl,
    unread_endLine between.unread, ?_⟩
  refine target_congr between.target
    (rfl : (conn.endLine content.length).startNext.url = conn.url) ?_ ?_
  · dsimp only [startNext, endLine]
    omega
  · exact fun index before => getElem?_endLine before content.length

/-- In the header, and in the body after a line, a pass looks for the next line. -/
theorem Between.pass (status : LineStatus)
    (between : Between path (content ++ carriageReturn :: lineFeed :: rest) conn)
    (unbroken : Unbroken content) (looks : conn.checkState = .header ∨ status = .open) :
    readPass files undefinedCode ⟨conn, status⟩ = handleLine files undefinedCode
      (conn.endLine content.length).startNext conn.startLine := by
  apply readPass_line ⟨conn, status⟩ between.positioned
  · rintro ⟨inBody, found⟩
    rcases looks with header | isOpen
    · exact nomatch header.symm.trans inBody
    · exact nomatch isOpen.symm.trans found
  · rw [between.unread]
    exact scan_line unbroken rest

/-- A pass over a header line. -/
theorem header_pass (status : LineStatus)
    (between : Between path (content ++ carriageReturn :: lineFeed :: rest) conn)
    (unbroken : Unbroken content) (state : conn.checkState = .header)
    (noLength : conn.contentLength = 0) :
    (∃ after, readPass files undefinedCode ⟨conn, status⟩ =
      .ok (.leave (fileCode (files (filePath path)), after))) ∨
    lineText content ≠ [] ∧ ∃ next, readPass files undefinedCode ⟨conn, status⟩ =
        .ok (.again ⟨next, .open⟩) ∧ Between path rest next ∧
      next.contentLength = (declaredLength (lineText content)).getD 0 ∧
      next.checkState = if (declaredLength (lineText content)).isSome then .content else .header := by
  have later := between.nextLine
  have ended := lineEnded between.positioned between.unread
  rcases endLine_stands between.positioned between.start between.unread with ⟨stands, lineLe⟩
  have passEq := between.pass files undefinedCode status unbroken (Or.inl state)
  have afterState : (conn.endLine content.length).startNext.checkState = .header := state
  rw [passEq, handleLine, afterState]
  dsimp only
  by_cases blank : lineText content = []
  · left
    rw [blank] at stands
    have parsed := parseHeaders_blank (show StringAt
      (conn.endLine content.length).startNext.readBuf conn.startLine [] from stands) noLength
    rw [parsed]
    exact later.request_finishes files
  · right
    have zero : (conn.endLine content.length).startNext.readBuf[
        conn.checkedIdx + content.length + 1]? = some 0 := ended.secondZero
    have within : conn.startLine + (lineText content).length <
        conn.checkedIdx + content.length + 1 := by
      dsimp only [endLine] at lineLe
      omega
    rcases parseHeaders_eq (show StringAt (conn.endLine content.length).startNext.readBuf
      conn.startLine (lineText content) from stands) within zero blank with ⟨after, parsed, read⟩
    rw [parsed]
    refine ⟨blank, after, rfl, ⟨read.kept.positioned later.positioned, ?_, ?_, ?_, ?_⟩, ?_, ?_⟩
    · refine ⟨?_, ?_⟩
      · rw [read.kept.realFile]
        exact later.ready.length
      · rw [read.kept.realFile]
        exact later.ready.ends
    · rw [read.kept.startLine, read.kept.checkedIdx]
      rfl
    · rw [unread_congr read.kept.readIdx read.kept.checkedIdx fun index _ => by rw [read.readBuf]]
      exact later.unread
    · apply target_congr later.target read.url (Nat.le_of_eq read.kept.checkedIdx.symm)
      intro index _
      rw [read.readBuf]
    · rw [read.contentLength]
      exact congrArg _ noLength
    · rw [read.checkState, afterState]

/-- `parse_content` for a body that is complete. -/
theorem parseContent_complete {text : Nat} (undefinedCode : HttpCode) (positioned : Positioned conn)
    (within : text < conn.checkedIdx) (nonnegative : 0 ≤ conn.contentLength)
    (enough : conn.contentLength + conn.checkedIdx ≤ conn.readIdx) :
    conn.parseContent text undefinedCode = .ok (.getRequest,
      { conn with readBuf := conn.readBuf.set (text + conn.contentLength.toNat) 0 }) := by
  have bufferLength := positioned.bufferLength
  have readLe := positioned.read_le
  unfold readBufferSize at bufferLength readLe
  have index : ((text : Int) + conn.contentLength).toNat = text + conn.contentLength.toNat := by
    omega
  rw [parseContent, addInt, if_pos (by omega), Outcome.ok_bind, if_pos enough, storeAt,
    if_pos (by omega), index, writeAt_of_lt _ (by omega)]
  rfl

/-- A pass over a line when the bytes behind it suffice for the body. -/
theorem body_pass
    (between : Between path (content ++ carriageReturn :: lineFeed :: rest) conn)
    (unbroken : Unbroken content) (state : conn.checkState = .content)
    (nonnegative : 0 ≤ conn.contentLength) (enough : conn.contentLength ≤ rest.length) :
    ∃ after, readPass files undefinedCode ⟨conn, .open⟩ =
      .ok (.leave (fileCode (files (filePath path)), after)) := by
  have later := between.nextLine
  have passEq := between.pass files undefinedCode .open unbroken (Or.inr rfl)
  have further : conn.startLine < (conn.endLine content.length).startNext.checkedIdx := by
    rw [between.start]
    dsimp only [startNext, endLine]
    omega
  have restLength := length_unread later.positioned
  have checkedLe := later.positioned.checked_le
  rw [later.unread] at restLength
  have complete : (conn.endLine content.length).startNext.contentLength +
      (conn.endLine content.length).startNext.checkedIdx ≤
        (conn.endLine content.length).startNext.readIdx := by
    have sameLength : (conn.endLine content.length).startNext.contentLength =
        conn.contentLength := rfl
    omega
  have afterState : (conn.endLine content.length).startNext.checkState = .content := state
  rw [passEq, handleLine, afterState]
  dsimp only
  rw [parseContent_complete _ later.positioned further nonnegative complete, Outcome.ok_bind]
  rcases between.target with ⟨url, urlEq, stands, within⟩
  have start := between.start
  have cut : StringAt ((conn.endLine content.length).readBuf.set
      (conn.startLine + conn.contentLength.toNat) 0) url path := by
    apply stands.congr
    intro index _ high
    dsimp only [endLine]
    rw [List.getElem?_set_ne (by omega), List.getElem?_set_ne (by omega),
      List.getElem?_set_ne (by omega)]
  let stored : HttpConn := { (conn.endLine content.length).startNext with
    readBuf := (conn.endLine content.length).readBuf.set
      (conn.startLine + conn.contentLength.toNat) 0 }
  have ready : FileReady stored := ⟨between.ready.length, between.ready.ends⟩
  rcases doRequest_eq files (show stored.url = some url from urlEq) cut ready with
    ⟨after, requested, _⟩
  refine ⟨after, ?_⟩
  change (do
    let result ← stored.doRequest files
    pure (Pass.leave result) : Outcome (Pass Reading (HttpCode × HttpConn))) = _
  rw [requested]
  rfl

/-- Some complete line follows, and enough bytes follow it. -/
theorem exists_line (headers : List (List Byte)) (headerLines : HeaderLines headers)
    (rest : List Byte) :
    ∃ content later, Unbroken content ∧ rest.length ≤ later.length ∧
      lineBytes headers ++ lineEnd ++ rest = content ++ carriageReturn :: lineFeed :: later := by
  cases headers with
  | nil => exact ⟨[], rest, unbroken_nil, Nat.le_refl _, rfl⟩
  | cons header headers =>
      rw [headerLines_cons] at headerLines
      refine ⟨header, lineBytes headers ++ lineEnd ++ rest, headerLines.1.2, ?_, ?_⟩
      · rw [List.length_append]
        exact Nat.le_add_left ..
      · exact lineBytes_cons_append header headers rest

/-- Behind the request line, a whole request is answered with the code of its file. -/
theorem headers_finish (headers : List (List Byte)) (status : LineStatus) (fuel : Nat)
    {conn : HttpConn} (headerLines : HeaderLines headers)
    (between : Between path (lineBytes headers ++ lineEnd ++ rest) conn)
    (state : conn.checkState = .header) (noLength : conn.contentLength = 0)
    (nonnegative : 0 ≤ contentLengthOf headers)
    (enough : contentLengthOf headers ≤ rest.length) (passes : headers.length + 2 ≤ fuel) :
    ∃ after, repeatLoop (readPass files undefinedCode) fuel ⟨conn, status⟩ =
      .ok (fileCode (files (filePath path)), after) := by
  induction headers generalizing conn status fuel with
  | nil =>
      have more : ∃ less, fuel = less + 1 := ⟨fuel - 1, by omega⟩
      rcases more with ⟨fuel, rfl⟩
      have blankLine : Between path ([] ++ carriageReturn :: lineFeed :: rest) conn := between
      rcases header_pass files undefinedCode status blankLine unbroken_nil state noLength with
        ⟨after, pass⟩ | ⟨someText, _⟩
      · exact ⟨after, repeatLoop_leave fuel pass⟩
      · exact absurd rfl someText
  | cons header headers induction =>
      have more : ∃ less, fuel = less + 2 := ⟨fuel - 2, by omega⟩
      rcases more with ⟨fuel, rfl⟩
      rw [headerLines_cons] at headerLines
      have line : Between path (header ++ carriageReturn :: lineFeed ::
          (lineBytes headers ++ lineEnd ++ rest)) conn := lineBytes_cons_append .. ▸ between
      rcases header_pass files undefinedCode status line headerLines.1.2 state noLength with
        ⟨after, pass⟩ | ⟨_, next, pass, later, length, nextState⟩
      · exact ⟨after, repeatLoop_leave _ pass⟩
      · rw [repeatLoop_again _ pass]
        cases declared : declaredLength (lineText header) with
        | none =>
            rw [declared] at length nextState
            rw [contentLengthOf_undeclared headers declared] at nonnegative enough
            rw [List.length_cons] at passes
            exact induction .open (fuel + 1) headerLines.2 later nextState length nonnegative
              enough (by omega)
        | some value =>
            rw [declared] at length nextState
            rw [contentLengthOf_declared headers declared] at nonnegative enough
            rcases exists_line headers headerLines.2 rest with
              ⟨content, others, unbroken, longer, same⟩
            rw [same] at later
            have nextLength : next.contentLength = value := length
            rcases body_pass files undefinedCode later unbroken nextState (by omega) (by omega) with
              ⟨after, bodyPass⟩
            exact ⟨after, repeatLoop_leave _ bodyPass⟩

end Finish

/-! ## The first call -/

theorem scan_of_complete {bytes : List Byte} {request : Request}
    (begins : request.bytes <+: bytes) :
    ∃ extra, scan bytes = .line request.requestLine
      (lineBytes request.headers ++ lineEnd ++ (request.body ++ extra)) := by
  rcases begins with ⟨extra, same⟩
  have split : bytes = request.requestLine ++ carriageReturn :: lineFeed ::
      (lineBytes request.headers ++ lineEnd ++ (request.body ++ extra)) := by
    rw [← same, Request.bytes, Request.head]
    simp only [List.append_assoc]
    rfl
  exact ⟨extra, by rw [split]; exact scan_line request.unbroken _⟩

section Calls

variable {bytes : List Byte} {conn : HttpConn} (filled : Filled bytes conn) (files : Files)
  (undefinedCode : HttpConn → HttpCode)

include filled

theorem processRead_rejected (rejected : Rejected bytes) :
    ∃ after, conn.processRead files undefinedCode = .ok (.badRequest, after) := by
  rcases rejected with ⟨content, rest, scanned, noTarget⟩
  rcases (first_pass filled scanned files undefinedCode).1 noTarget with ⟨after, pass⟩
  exact ⟨after, repeatLoop_leave _ pass⟩

/-- Without files no request is refused but for its request line. -/
theorem not_refused_without_files (notRejected : ¬Rejected bytes) :
    ¬Refused (conn.processRead (fun _ => none) undefinedCode) := by
  rintro ⟨code, after, returned, error⟩
  have waits : code = .noRequest := by
    rw [processRead] at returned
    cases scanned : scan bytes with
    | line content rest =>
        cases target : requestTarget (lineText content) with
        | none => exact absurd ⟨content, rest, scanned, target⟩ notRejected
        | some path =>
            rcases (first_pass filled scanned (fun _ => none) undefinedCode).2 path target with
              ⟨next, pass, _, state, _⟩
            rw [repeatLoop_again _ pass] at returned
            have notFirst : next.checkState ≠ .requestLine := by
              rw [state]
              nofun
            exact repeatLoop_waits undefinedCode _ notFirst returned
    | «open» content =>
        rcases readPass_stops ⟨conn, .ok⟩ filled.positioned (by rw [filled.state]; nofun)
          (fun _ => none) undefinedCode (by rw [filled.unread, scanned]; nofun) with ⟨last, pass⟩
        rw [repeatLoop_leave _ pass] at returned
        cases returned
        rfl
    | bad content =>
        rcases readPass_stops ⟨conn, .ok⟩ filled.positioned (by rw [filled.state]; nofun)
          (fun _ => none) undefinedCode (by rw [filled.unread, scanned]; nofun) with ⟨last, pass⟩
        rw [repeatLoop_leave _ pass] at returned
        cases returned
        rfl
  rw [waits] at error
  cases error

/-- A whole request is answered with the code of its file. -/
theorem processRead_complete {request : Request} {path : List Byte}
    (begins : request.bytes <+: bytes)
    (target : requestTarget (lineText request.requestLine) = some path)
    (nonnegative : 0 ≤ contentLengthOf request.headers) :
    ∃ after, conn.processRead files undefinedCode =
      .ok (fileCode (files (filePath path)), after) := by
  rcases scan_of_complete begins with ⟨extra, scanned⟩
  rcases (first_pass filled scanned files undefinedCode).2 path target with
    ⟨next, pass, between, state, noLength⟩
  have bodyLength := request.bodyLength
  have enough : contentLengthOf request.headers ≤ (request.body ++ extra).length := by
    rw [List.length_append]
    omega
  have headersLe := length_le_lineBytes request.headers
  have describes := scan_describes bytes
  rw [scanned] at describes
  have length := length_unread filled.positioned
  rw [filled.unread, describes.2] at length
  simp only [List.length_append, List.length_cons] at length
  rw [processRead, repeatLoop_again _ pass]
  apply headers_finish files undefinedCode request.headers .ok _ request.headerLines between state
    noLength nonnegative enough
  omega

end Calls

/-- A file that exists has another code than an unfinished request. -/
theorem fileCode_ne_noRequest {found : Option FileStat} (isFile : found ≠ none) :
    fileCode found ≠ .noRequest := by
  cases found with
  | none => exact absurd rfl isFile
  | some stat =>
      rw [fileCode]
      split
      · nofun
      · split <;> nofun

section Handling

variable {bytes : List Byte} {conn : HttpConn} (filled : Filled bytes conn)

include filled

theorem handled_of_rejected (rejected : Rejected bytes) (files : Files)
    (undefinedCode : HttpConn → HttpCode) :
    Handled bytes files (conn.processRead files undefinedCode) := by
  rcases processRead_rejected filled files undefinedCode rejected with ⟨after, returned⟩
  have refused : Refused (conn.processRead files undefinedCode) :=
    ⟨.badRequest, after, returned, rfl⟩
  refine ⟨fun other waiting => ?_, fun _ => refused, fun _ _ _ _ _ => refused⟩
  rw [returned] at waiting
  cases waiting

omit filled in
theorem handled_of_incomplete (wellFormed : ¬MalformedLine bytes) (partly : ¬Complete bytes)
    (files : Files) (processed : Outcome (HttpCode × HttpConn)) :
    Handled bytes files processed := by
  refine ⟨fun _ _ => ?_, fun malformed => absurd malformed wellFormed,
    fun request _ begins _ _ => absurd ⟨request, begins⟩ partly⟩
  rcases malformed_or_complete_or_incomplete bytes with malformed | complete | incomplete
  · exact absurd malformed wellFormed
  · exact absurd complete partly
  · exact incomplete

theorem handled_of_found (wellFormed : ¬MalformedLine bytes) {files : Files}
    (nonnegative : ∀ request : Request, request.bytes <+: bytes →
      0 ≤ contentLengthOf request.headers)
    (found : FileFound bytes files) (undefinedCode : HttpConn → HttpCode) :
    Handled bytes files (conn.processRead files undefinedCode) := by
  rcases found with ⟨request, path, begins, target, isFile⟩
  rcases processRead_complete filled files undefinedCode begins target
    (nonnegative request begins) with ⟨after, returned⟩
  refine ⟨fun other waiting => ?_, fun malformed => absurd malformed wellFormed,
    fun other otherPath otherBegins otherTarget missing => ?_⟩
  · rw [returned] at waiting
    have waits := (Prod.mk.inj (Except.ok.inj waiting)).1
    exact absurd waits (fileCode_ne_noRequest isFile)
  · rcases scan_of_complete begins with ⟨extra, scanned⟩
    rcases scan_of_complete otherBegins with ⟨otherExtra, otherScanned⟩
    rw [scanned] at otherScanned
    have sameLine := (Scanned.line.inj otherScanned).1
    rw [← sameLine, target] at otherTarget
    cases otherTarget
    exact absurd missing isFile

/-- Which of the three things that is to be expected fails for a malformed line or a
whole request, if there are no files. -/
theorem not_handled_without_files (notRejected : ¬Rejected bytes)
    (found : MalformedLine bytes ∨ Complete bytes) (undefinedCode : HttpConn → HttpCode) :
    ¬Handled bytes (fun _ => none) (conn.processRead (fun _ => none) undefinedCode) := by
  intro handled
  have notRefused := not_refused_without_files filled undefinedCode notRejected
  rcases found with malformed | ⟨request, begins⟩
  · exact notRefused (handled.malformed malformed)
  · rcases scan_of_complete begins with ⟨extra, scanned⟩
    cases target : requestTarget (lineText request.requestLine) with
    | none => exact notRejected ⟨_, _, scanned, target⟩
    | some path => exact notRefused (handled.missing request path begins target rfl)

theorem found_of_handled (notRejected : ¬Rejected bytes) (complete : Complete bytes)
    (nonnegative : ∀ request : Request, request.bytes <+: bytes →
      0 ≤ contentLengthOf request.headers)
    {files : Files} {undefinedCode : HttpConn → HttpCode}
    (handled : Handled bytes files (conn.processRead files undefinedCode)) :
    FileFound bytes files := by
  rcases complete with ⟨request, begins⟩
  rcases scan_of_complete begins with ⟨extra, scanned⟩
  cases target : requestTarget (lineText request.requestLine) with
  | none => exact absurd ⟨_, _, scanned, target⟩ notRejected
  | some path =>
      refine ⟨request, path, begins, target, fun missing => ?_⟩
      rcases processRead_complete filled files undefinedCode begins target
        (nonnegative request begins) with ⟨after, returned⟩
      rcases handled.missing request path begins target missing with
        ⟨code, other, refused, error⟩
      rw [returned, missing] at refused
      cases refused
      cases error

end Handling

/-- Whatever the files are, `process_read` does what is to be expected exactly for a
request line that is rejected, and for bytes without a malformed line that are no whole
request. For given files it also does so for a whole request without a malformed line
and with a length that is not negative, exactly if its file exists. -/
theorem handled_iff {conn filled : HttpConn} {bytes : List Byte}
    (received : conn.init.receive bytes = .ok filled) :
    ((∀ files undefinedCode, Handled bytes files (filled.processRead files undefinedCode)) ↔
        Rejected bytes ∨ ¬MalformedLine bytes ∧ ¬Complete bytes) ∧
      (¬MalformedLine bytes → (∀ request : Request, request.bytes <+: bytes →
          0 ≤ contentLengthOf request.headers) → ∀ files,
        ((∀ undefinedCode, Handled bytes files (filled.processRead files undefinedCode)) ↔
          Rejected bytes ∨ ¬Complete bytes ∨ FileFound bytes files)) := by
  have isFilled := filled_of_receive received
  constructor
  · constructor
    · intro handled
      rcases Classical.em (Rejected bytes) with rejected | notRejected
      · exact Or.inl rejected
      · have notFound : ¬(MalformedLine bytes ∨ Complete bytes) := fun found =>
          not_handled_without_files isFilled notRejected found (fun _ => .noRequest) (handled _ _)
        exact Or.inr (not_or.mp notFound)
    · rintro (rejected | ⟨wellFormed, partly⟩) files undefinedCode
      · exact handled_of_rejected isFilled rejected files undefinedCode
      · exact handled_of_incomplete wellFormed partly files _
  · intro wellFormed nonnegative files
    constructor
    · intro handled
      rcases Classical.em (Rejected bytes) with rejected | notRejected
      · exact Or.inl rejected
      · rcases Classical.em (Complete bytes) with complete | partly
        · exact Or.inr (Or.inr (found_of_handled isFilled notRejected complete nonnegative
            (handled fun _ => .noRequest)))
        · exact Or.inr (Or.inl partly)
    · rintro (rejected | partly | found) undefinedCode
      · exact handled_of_rejected isFilled rejected files undefinedCode
      · exact handled_of_incomplete wellFormed partly files _
      · exact handled_of_found isFilled wellFormed nonnegative found undefinedCode

/-- A request line without a target is refused. -/
theorem handled_iff_rejected :
    ∃ filled, fresh.init.receive (ascii "FOO\r\n") = .ok filled ∧ ∀ files undefinedCode,
      Handled (ascii "FOO\r\n") files (filled.processRead files undefinedCode) :=
  have ⟨filled, received⟩ := receive_fresh (ascii "FOO\r\n") (by decide +kernel)
  ⟨filled, received, (handled_iff received).1.mpr
    (Or.inl ⟨ascii "FOO", [], by decide +kernel, by decide +kernel⟩)⟩

/-- With a line that is malformed, and with a whole request for a file that does not
exist, the code is not one of an error. -/
theorem processRead_waits_forever :
    (MalformedLine (ascii "GET / HTTP/1.1\r\nHost\r:\r\n\r\n") ∧
      ∃ filled, fresh.init.receive (ascii "GET / HTTP/1.1\r\nHost\r:\r\n\r\n") = .ok filled ∧
        ¬Refused (filled.processRead (fun _ => none) fun _ => .noRequest)) ∧
    ((∃ request : Request, request.bytes = ascii "GET / HTTP/1.1\r\n\r\n") ∧
      ∃ filled, fresh.init.receive (ascii "GET / HTTP/1.1\r\n\r\n") = .ok filled ∧
        ¬Refused (filled.processRead (fun _ => none) fun _ => .noRequest)) := by
  have scanned : ∀ rest : List Byte,
      scan (ascii "GET / HTTP/1.1" ++ carriageReturn :: lineFeed :: rest) =
        .line (ascii "GET / HTTP/1.1") rest :=
    fun rest => scan_line (by decide +kernel) rest
  have accepted : requestTarget (lineText (ascii "GET / HTTP/1.1")) ≠ none := by decide +kernel
  constructor
  · have malformed : MalformedLine (ascii "GET / HTTP/1.1\r\nHost\r:\r\n\r\n") :=
      ⟨ascii "GET / HTTP/1.1\r\n", ascii "Host", ascii "\r:\r\n\r\n", by decide +kernel,
        by decide +kernel, Or.inr ⟨by decide +kernel, 58, ascii "\r\n\r\n", by decide +kernel,
          by decide +kernel⟩,
        Or.inr ⟨ascii "GET / HTTP/1.1", [], by decide +kernel, nofun, by decide +kernel⟩⟩
    rcases receive_fresh (ascii "GET / HTTP/1.1\r\nHost\r:\r\n\r\n")
      (by decide +kernel) with ⟨filled, received⟩
    refine ⟨malformed, filled, received, ?_⟩
    apply not_refused_without_files (filled_of_receive received)
    exact not_rejected (scanned (ascii "Host\r:\r\n\r\n")) accepted
  · rcases receive_fresh (ascii "GET / HTTP/1.1\r\n\r\n")
      (by decide +kernel) with ⟨filled, received⟩
    have whole : (Request.mk (ascii "GET / HTTP/1.1") [] [] (by decide +kernel) nofun
      (by decide +kernel)).bytes = ascii "GET / HTTP/1.1\r\n\r\n" := by decide +kernel
    refine ⟨⟨_, whole⟩, filled, received, ?_⟩
    apply not_refused_without_files (filled_of_receive received)
    exact not_rejected (scanned (ascii "\r\n")) accepted

end HttpConn

end DataStructAlgorithm.HTTPD2
