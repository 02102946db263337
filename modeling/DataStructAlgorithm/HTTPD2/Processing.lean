import DataStructAlgorithm.HTTPD2.Chunks
import DataStructAlgorithm.HTTPD2.HeaderOrder

/-! # Processing a connection

`process`, which a worker calls after every event of a readable socket. For a request without a
body it does not matter to `process_read` where the stream of the client is cut: it waits until
the empty line has been received. -/

namespace DataStructAlgorithm.HTTPD2

open Foundation

/-- What becomes of a connection: it is watched for input again or for output, or it is closed. -/
inductive Ending
  | waits
  | answers
  | closes
  deriving DecidableEq, Repr

namespace HttpConn

/-- `http_conn::process`. Behind `close_conn` the call of `modfd` fails. -/
def process (conn : HttpConn) (files : Files) (undefinedCode : HttpConn → HttpCode) :
    Outcome (Ending × HttpConn) := do
  let (readRet, conn) ← conn.processRead files undefinedCode
  if readRet = .noRequest then pure (.waits, conn)
  else
    let (conn, writeRet) := processWrite readRet conn
    pure (if writeRet then .answers else .closes, conn)

/-- An event of a readable socket in `main.cpp`, for which `recv` gives some pieces. -/
def arrive (files : Files) (undefinedCode : HttpConn → HttpCode) (conn : HttpConn)
    (pieces : List (List Byte)) : Outcome (Ending × HttpConn) := do
  let (readable, conn) ← conn.read (pieces.map .received)
  if readable then conn.process files undefinedCode else pure (.closes, conn)

/-- The events up to the first one that is not followed by another one for input. -/
def exchange (files : Files) (undefinedCode : HttpConn → HttpCode) :
    HttpConn → List (List (List Byte)) → Outcome (Ending × HttpConn)
  | conn, [] => .ok (.waits, conn)
  | conn, pieces :: rest => do
      let (ending, conn) ← conn.arrive files undefinedCode pieces
      if ending = .waits then exchange files undefinedCode conn rest else pure (ending, conn)

/-! ## What reading leaves alone -/

structure SameOutput (conn after : HttpConn) : Prop where
  readIdx : after.readIdx = conn.readIdx
  writeBuf : after.writeBuf = conn.writeBuf
  writeIdx : after.writeIdx = conn.writeIdx

theorem SameOutput.trans {first second third : HttpConn} (before : SameOutput first second)
    (after : SameOutput second third) : SameOutput first third :=
  ⟨after.readIdx.trans before.readIdx, after.writeBuf.trans before.writeBuf,
    after.writeIdx.trans before.writeIdx⟩

section Functions

variable {conn after : HttpConn} {code : HttpCode}

theorem parseTarget_output {url : Nat} (parsed : conn.parseTarget url = .ok (code, after)) :
    SameOutput conn after := by
  rcases Outcome.bind_eq_ok parsed with ⟨rest, _, parsed⟩
  rcases Outcome.bind_eq_ok parsed with ⟨text, _, parsed⟩
  split at parsed
  · cases parsed
    exact ⟨rfl, rfl, rfl⟩
  · rcases Outcome.bind_eq_ok parsed with ⟨readBuf, _, parsed⟩
    rcases Outcome.bind_eq_ok parsed with ⟨rest, _, parsed⟩
    rcases Outcome.bind_eq_ok parsed with ⟨version, _, parsed⟩
    split at parsed
    · cases parsed
      exact ⟨rfl, rfl, rfl⟩
    · rcases Outcome.bind_eq_ok parsed with ⟨urlText, _, parsed⟩
      dsimp only at parsed
      split at parsed
      · cases parsed
        exact ⟨rfl, rfl, rfl⟩
      · rcases Outcome.bind_eq_ok parsed with ⟨first, _, parsed⟩
        split at parsed
        · cases parsed
          exact ⟨rfl, rfl, rfl⟩
        · cases parsed
          exact ⟨rfl, rfl, rfl⟩

theorem parseRequestLine_output {text : Nat}
    (parsed : conn.parseRequestLine text = .ok (code, after)) : SameOutput conn after := by
  rcases Outcome.bind_eq_ok parsed with ⟨line, _, parsed⟩
  split at parsed
  · cases parsed
    exact ⟨rfl, rfl, rfl⟩
  · rcases Outcome.bind_eq_ok parsed with ⟨readBuf, _, parsed⟩
    rcases Outcome.bind_eq_ok parsed with ⟨method, _, parsed⟩
    split at parsed
    · have same := parseTarget_output parsed
      exact ⟨same.readIdx, same.writeBuf, same.writeIdx⟩
    · split at parsed
      · have same := parseTarget_output parsed
        exact ⟨same.readIdx, same.writeBuf, same.writeIdx⟩
      · cases parsed
        exact ⟨rfl, rfl, rfl⟩

theorem parseHeaders_output {text : Nat} (parsed : conn.parseHeaders text = .ok (code, after)) :
    SameOutput conn after := by
  rcases Outcome.bind_eq_ok parsed with ⟨line, _, parsed⟩
  split at parsed
  · split at parsed
    · cases parsed
      exact ⟨rfl, rfl, rfl⟩
    · cases parsed
      exact ⟨rfl, rfl, rfl⟩
  · split at parsed
    · rcases Outcome.bind_eq_ok parsed with ⟨rest, _, parsed⟩
      rcases Outcome.bind_eq_ok parsed with ⟨value, _, parsed⟩
      split at parsed
      · cases parsed
        exact ⟨rfl, rfl, rfl⟩
      · cases parsed
        exact ⟨rfl, rfl, rfl⟩
    · split at parsed
      · rcases Outcome.bind_eq_ok parsed with ⟨rest, _, parsed⟩
        rcases Outcome.bind_eq_ok parsed with ⟨value, _, parsed⟩
        cases parsed
        exact ⟨rfl, rfl, rfl⟩
      · split at parsed
        · rcases Outcome.bind_eq_ok parsed with ⟨rest, _, parsed⟩
          cases parsed
          exact ⟨rfl, rfl, rfl⟩
        · cases parsed
          exact ⟨rfl, rfl, rfl⟩

end Functions

/-- What `do_request` keeps of a file. -/
def keepFile (conn : HttpConn) : Option FileStat → HttpConn
  | none => conn
  | some stat =>
      let conn := { conn with fileSize := stat.content.length }
      if ¬stat.othersRead then conn
      else if stat.isDirectory then conn
      else { conn with fileAddress := some stat.content }

theorem doRequest_keepFile {conn : HttpConn} {url : Nat} {target : List Byte} (files : Files)
    (urlEq : conn.url = some url) (stands : StringAt conn.readBuf url target)
    (ready : FileReady conn) :
    ∃ realFile, conn.doRequest files = .ok (fileCode (files (filePath target)),
      { conn with realFile := realFile }.keepFile (files (filePath target))) := by
  have plain : (0 : Byte) ∉ filePath target := by
    intro member
    rcases List.mem_append.mp member with inRoot | inTarget
    · exact absurd inRoot (by decide)
    · exact stands.1 (List.mem_of_mem_take inTarget)
  have path : StringAt (filePath target ++
      List.replicate (fileNameLen - docRoot.length - 1 - target.length + 1) 0) 0
        (filePath target) := ⟨plain, _, rfl⟩
  refine ⟨filePath target ++
    List.replicate (fileNameLen - docRoot.length - 1 - target.length + 1) 0, ?_⟩
  rw [doRequest, urlEq]
  dsimp only
  rw [stands.cString_eq, Outcome.ok_bind, overwritten_eq ready.length ready.ends target,
    path.cString_eq, Outcome.ok_bind]
  cases files (filePath target) with
  | none => rfl
  | some stat =>
      dsimp only [fileCode, keepFile]
      split
      · rfl
      · split
        · rfl
        · rfl

/-! ## Calls that are interrupted -/

/-- The connection before any byte of the current line was checked. -/
def rewind (conn : HttpConn) : HttpConn := { conn with checkedIdx := conn.startLine }

theorem lineResult_foldr_push (content : List Byte) (conn : HttpConn) (scanned : Scanned) :
    conn.lineResult (content.foldr Scanned.push scanned) =
      (conn.check content.length).lineResult scanned := by
  induction content generalizing conn with
  | nil => rfl
  | cons byte content induction =>
      have longer : (conn.check 1).check content.length = conn.check (byte :: content).length := by
        simp only [check, List.length_cons, Nat.add_assoc, Nat.add_comm 1]
      rw [List.foldr_cons, lineResult_push, induction, longer]

section Resumed

variable {conn : HttpConn} (waiting : Waiting conn)

include waiting

/-- Bytes of the line that have been checked need not be checked again. -/
theorem Waiting.parseLine_rewind (rewound : Positioned conn.rewind) :
    conn.rewind.parseLine = conn.parseLine := by
  have startLe := waiting.positioned.start_le
  have checkedLe := waiting.positioned.checked_le
  have readLe := waiting.positioned.readIdx_le_length
  have length : ((conn.readBuf.take conn.checkedIdx).drop conn.startLine).length =
      conn.checkedIdx - conn.startLine := by
    rw [List.length_drop, List.length_take]
    omega
  have again : conn.rewind.check (conn.checkedIdx - conn.startLine) = conn := by
    rw [HttpConn.check, rewind]
    dsimp only
    rw [Nat.add_sub_cancel' startLe]
  have scanned : scan conn.rewind.unread =
      ((conn.readBuf.take conn.checkedIdx).drop conn.startLine).foldr Scanned.push
        (scan conn.unread) := waiting.scan_pending
  rw [parseLine_eq rewound, parseLine_eq waiting.positioned, scanned, lineResult_foldr_push,
    length, again]

theorem Waiting.readPass_rewind (rewound : Positioned conn.rewind)
    (notInBody : conn.checkState ≠ .content) (files : Files)
    (undefinedCode : HttpConn → HttpCode) (status : LineStatus) :
    readPass files undefinedCode ⟨conn.rewind, status⟩ =
      readPass files undefinedCode ⟨conn, status⟩ := by
  have rewoundState : conn.rewind.checkState ≠ .content := notInBody
  have sameLine : HttpConn.nextLine ⟨conn.rewind, status⟩ = HttpConn.nextLine ⟨conn, status⟩ := by
    rw [HttpConn.nextLine, HttpConn.nextLine, if_neg fun both => rewoundState both.1,
      if_neg fun both => notInBody both.1]
    dsimp only
    rw [waiting.parseLine_rewind rewound]
  rw [readPass, readPass, sameLine]

/-- Without a line the call ends, and nothing but the checked index changes. -/
theorem Waiting.open_pass (notInBody : conn.checkState ≠ .content)
    (noLine : ∀ content rest, scan conn.pending ≠ .line content rest) (files : Files)
    (undefinedCode : HttpConn → HttpCode) (status : LineStatus) :
    ∃ count, readPass files undefinedCode ⟨conn, status⟩ =
      .ok (.leave (.noRequest, conn.check count)) ∧ Waiting (conn.check count) := by
  have noUnread : ∀ content rest, scan conn.unread ≠ .line content rest := by
    intro content rest scanned
    apply noLine _ rest
    rw [waiting.scan_pending, scanned, foldr_push_line]
  rcases lineResult_none noUnread with ⟨content, rest, unreadEq, unbroken, result⟩
  have notOk : scanStatus (scan conn.unread) ≠ .ok := by
    cases scanned : scan conn.unread with
    | line content rest => exact absurd scanned (noUnread content rest)
    | «open» content => exact nofun
    | bad content => exact nofun
  refine ⟨content.length, ?_, waiting.check unbroken unreadEq⟩
  rw [readPass, nextLine_eq waiting.positioned fun both => notInBody both.1, Outcome.ok_bind,
    result]
  exact if_pos notOk

end Resumed

/-- A line that has not been received as a whole is not found. -/
theorem no_line_of_short {content rest part more : List Byte} (unbroken : Unbroken content)
    (same : part ++ more = content ++ carriageReturn :: lineFeed :: rest)
    (short : part.length < content.length + 2) (line others : List Byte) :
    scan part ≠ .line line others := by
  intro scanned
  have describes := scan_describes part
  rw [scanned] at describes
  rcases describes with ⟨lineUnbroken, partEq⟩
  have first := scan_line unbroken rest
  have second := scan_line lineUnbroken (others ++ more)
  have whole : line ++ carriageReturn :: lineFeed :: (others ++ more) =
      content ++ carriageReturn :: lineFeed :: rest := by
    rw [← same, partEq, List.append_assoc]
    rfl
  rw [whole, first] at second
  have sameLine := (Scanned.line.inj second).1
  rw [partEq, ← sameLine] at short
  simp only [List.length_append, List.length_cons] at short
  omega

/-! ## A connection between two events -/

/-- Nothing has been written for the client. -/
structure Unanswered (conn : HttpConn) : Prop where
  bufferLength : conn.writeBuf.length = writeBufferSize
  empty : conn.writeIdx = 0

theorem Unanswered.congr {conn after : HttpConn} (unanswered : Unanswered conn)
    (same : SameOutput conn after) : Unanswered after where
  bufferLength := (congrArg List.length same.writeBuf).trans unanswered.bufferLength
  empty := same.writeIdx.trans unanswered.empty

/-- The request line has been accepted, and the bytes of `part` stand from the beginning of the
current line on. -/
structure Paused (path part : List Byte) (conn : HttpConn) : Prop where
  waiting : Waiting conn
  between : Between path part conn.rewind
  state : conn.checkState = .header
  contentLength : conn.contentLength = 0
  noted : ∃ host, Noted host conn.rewind
  unanswered : Unanswered conn

/-- Header lines without a zero, none of which declares a length. -/
def Bodiless (headers : List (List Byte)) : Prop :=
  ∀ header ∈ headers, (header ≠ [] ∧ Unbroken header) ∧ (0 : Byte) ∉ header ∧
    declaredLength header = none

/-- A connection whose last line has just been handled. -/
theorem Between.paused {path part : List Byte} {host : Option (List Byte)} {conn : HttpConn}
    (between : Between path part conn) (state : conn.checkState = .header)
    (contentLength : conn.contentLength = 0) (noted : Noted host conn)
    (unanswered : Unanswered conn) : Paused path part conn := by
  have atStart : conn.rewind = conn :=
    congrArg (fun index => { conn with checkedIdx := index }) between.start
  refine ⟨⟨between.positioned, ?_⟩, atStart.symm ▸ between, state, contentLength,
    ⟨host, atStart.symm ▸ noted⟩, unanswered⟩
  rw [between.start, List.drop_eq_nil_of_le (List.length_take_le _ _)]
  exact unbroken_nil

section Passes

variable {path part rest : List Byte} {conn : HttpConn} (files : Files)
  (undefinedCode : HttpConn → HttpCode)

theorem Paused.readPass_rewind (paused : Paused path part conn) (status : LineStatus) :
    readPass files undefinedCode ⟨conn.rewind, status⟩ =
      readPass files undefinedCode ⟨conn, status⟩ := by
  apply paused.waiting.readPass_rewind paused.between.positioned
  rw [paused.state]
  nofun

theorem Paused.open_pass (paused : Paused path part conn)
    (noLine : ∀ content rest, scan part ≠ .line content rest) (status : LineStatus) :
    ∃ count, readPass files undefinedCode ⟨conn, status⟩ =
      .ok (.leave (.noRequest, conn.check count)) ∧ Paused path part (conn.check count) := by
  have notInBody : conn.checkState ≠ .content := by
    rw [paused.state]
    nofun
  have pending : conn.pending = part := paused.between.unread
  rw [← pending] at noLine
  rcases paused.waiting.open_pass notInBody noLine files undefinedCode status with
    ⟨count, pass, waiting⟩
  exact ⟨count, pass, waiting, paused.between, paused.state, paused.contentLength, paused.noted,
    paused.unanswered.bufferLength, paused.unanswered.empty⟩

/-- The pass that finds the request line. -/
theorem request_pass {content : List Byte} (waiting : Waiting conn)
    (filled : Filled part conn.rewind) (noted : Noted none conn.rewind)
    (unanswered : Unanswered conn) (scanned : scan part = .line content rest)
    (target : requestTarget (lineText content) = some path) :
    ∃ next, readPass files undefinedCode ⟨conn, .ok⟩ = .ok (.again ⟨next, .ok⟩) ∧
      Paused path rest next ∧ next.readIdx = conn.readIdx := by
  have notInBody : conn.checkState ≠ .content := by
    rw [show conn.checkState = .requestLine from filled.state]
    simp
  rw [← waiting.readPass_rewind filled.positioned notInBody]
  rcases (first_pass filled scanned files undefinedCode).2 path target with
    ⟨next, pass, between, state, contentLength⟩
  refine ⟨next, pass, ?_⟩
  have firstState : (conn.rewind.endLine content.length).startNext.checkState = .requestLine :=
    filled.state
  rw [readPass_line ⟨conn.rewind, .ok⟩ filled.positioned (fun both => notInBody both.1)
    files undefinedCode (filled.unread ▸ scanned)] at pass
  have notes := handleRequestLine_again firstState pass
  rw [handleLine, firstState] at pass
  rcases Outcome.bind_eq_ok pass with ⟨⟨ret, middle⟩, parsed, handled⟩
  dsimp only at handled
  split at handled
  · cases handled
  · cases handled
    have ended : SameOutput conn (conn.rewind.endLine content.length).startNext := ⟨rfl, rfl, rfl⟩
    have output := ended.trans (parseRequestLine_output parsed)
    have nextNoted : Noted none next := ⟨notes.linger.trans noted.linger,
      fun _ => notes.host.trans (noted.noHost rfl), fun _ impossible => by cases impossible⟩
    exact ⟨between.paused state contentLength nextNoted (unanswered.congr output), output.readIdx⟩

/-- The pass that finds a header line. -/
theorem Paused.header_pass {header : List Byte}
    (paused : Paused path (header ++ carriageReturn :: lineFeed :: rest) conn)
    (line : header ≠ [] ∧ Unbroken header) (plain : (0 : Byte) ∉ header)
    (undeclared : declaredLength header = none) (status : LineStatus) :
    ∃ next, readPass files undefinedCode ⟨conn, status⟩ = .ok (.again ⟨next, .open⟩) ∧
      Paused path rest next ∧ next.readIdx = conn.readIdx := by
  have state : conn.rewind.checkState = .header := paused.state
  rcases paused.noted with ⟨host, noted⟩
  rcases header_pass_noted files undefinedCode status paused.between line.2 line.1 plain state
    paused.contentLength noted with ⟨next, pass, between, length, nextState, nextNoted⟩
  rw [undeclared] at length nextState
  have passEq := paused.between.pass files undefinedCode status line.2 (Or.inl state)
  rw [pass] at passEq
  rcases handleHeader_again
    (show (conn.rewind.endLine header.length).startNext.checkState = .header from state)
    passEq.symm with ⟨ret, parsed⟩
  have ended : SameOutput conn (conn.rewind.endLine header.length).startNext := ⟨rfl, rfl, rfl⟩
  have output := ended.trans (parseHeaders_output parsed)
  rw [← paused.readPass_rewind]
  exact ⟨next, pass, between.paused nextState length nextNoted (paused.unanswered.congr output),
    output.readIdx⟩

/-- What a completed request leaves for `process_write`. -/
structure Completed (found : Option FileStat) (conn : HttpConn) : Prop where
  unanswered : Unanswered conn
  linger : conn.linger = false
  file : ∀ stat, found = some stat → fileCode found = .fileRequest →
    conn.fileSize = stat.content.length ∧ conn.fileAddress = some stat.content

theorem completed_keepFile {conn : HttpConn} (unanswered : Unanswered conn)
    (linger : conn.linger = false) (found : Option FileStat) :
    Completed found (conn.keepFile found) := by
  cases found with
  | none => exact ⟨unanswered, linger, nofun⟩
  | some stat =>
      dsimp only [keepFile]
      split
      · rename_i refused
        refine ⟨⟨unanswered.bufferLength, unanswered.empty⟩, linger, fun other same code => ?_⟩
        rw [fileCode, if_pos refused] at code
        cases code
      · rename_i readable
        split
        · rename_i directory
          refine ⟨⟨unanswered.bufferLength, unanswered.empty⟩, linger, fun other same code => ?_⟩
          rw [fileCode, if_neg readable, if_pos directory] at code
          cases code
        · refine ⟨⟨unanswered.bufferLength, unanswered.empty⟩, linger, fun other same _ => ?_⟩
          cases same
          exact ⟨rfl, rfl⟩

/-- The pass that finds the empty line. -/
theorem Paused.blank_pass (paused : Paused path (carriageReturn :: lineFeed :: rest) conn)
    (status : LineStatus) :
    ∃ after, readPass files undefinedCode ⟨conn, status⟩ =
      .ok (.leave (fileCode (files (filePath path)), after)) ∧
        Completed (files (filePath path)) after := by
  have line : Between path ([] ++ carriageReturn :: lineFeed :: rest) conn.rewind := paused.between
  have state : (conn.rewind.endLine 0).startNext.checkState = .header := paused.state
  have noLength : (conn.rewind.endLine 0).startNext.contentLength = 0 := paused.contentLength
  rcases endLine_stands line.positioned line.start line.unread with ⟨stands, _⟩
  have parsed := parseHeaders_blank (show StringAt
    (conn.rewind.endLine 0).startNext.readBuf conn.startLine [] from stands) noLength
  have later := line.nextLine
  rcases later.target with ⟨url, urlEq, target, _⟩
  rcases doRequest_keepFile files urlEq target later.ready with ⟨realFile, requested⟩
  rcases paused.noted with ⟨host, noted⟩
  let blank : HttpConn := { (conn.rewind.endLine 0).startNext with realFile := realFile }
  have unanswered : Unanswered blank := ⟨paused.unanswered.bufferLength, paused.unanswered.empty⟩
  have linger : blank.linger = false := noted.linger
  refine ⟨blank.keepFile (files (filePath path)), ?_, completed_keepFile unanswered linger _⟩
  rw [← paused.readPass_rewind, line.pass files undefinedCode status unbroken_nil
    (Or.inl (show conn.rewind.checkState = .header from paused.state)), handleLine]
  dsimp only [List.length_nil]
  rw [state]
  dsimp only
  rw [show conn.rewind.startLine = conn.startLine from rfl, parsed, Outcome.ok_bind]
  exact congrArg (· >>= fun result => pure (Pass.leave result)) requested

end Passes

/-! ## The bytes of a call -/

/-- What stands behind a line has not been checked, and neither has the end of the line. -/
theorem Waiting.length_of_line {conn : HttpConn} {content rest : List Byte}
    (waiting : Waiting conn) (scanned : scan conn.pending = .line content rest) :
    rest.length + 2 ≤ conn.unread.length := by
  have pending := waiting.scan_pending
  have describes := scan_describes conn.unread
  have status := scanStatus_foldr_push ((conn.readBuf.take conn.checkedIdx).drop conn.startLine)
    (scan conn.unread)
  rw [← pending, scanned] at status
  cases found : scan conn.unread with
  | line others behind =>
      rw [found] at describes pending
      rw [scanned, foldr_push_line] at pending
      rw [describes.2, (Scanned.line.inj pending).2]
      simp only [List.length_append, List.length_cons]
      omega
  | «open» others =>
      rw [found] at status
      cases status
  | bad others =>
      rw [found] at status
      cases status

theorem Paused.length_unread_le {path part : List Byte} {conn : HttpConn}
    (paused : Paused path part conn) : conn.unread.length ≤ part.length := by
  have pending : conn.pending = part := paused.between.unread
  rw [← pending, paused.waiting.positioned.pending_eq, List.length_append]
  exact Nat.le_add_left ..

/-- Bytes that go beyond the end of a line. -/
theorem exists_rest {content rest part more : List Byte}
    (same : part ++ more = content ++ carriageReturn :: lineFeed :: rest)
    (long : content.length + 2 ≤ part.length) :
    ∃ others, part = content ++ carriageReturn :: lineFeed :: others ∧ others ++ more = rest := by
  have line : content ++ carriageReturn :: lineFeed :: rest = content ++ lineEnd ++ rest := by
    rw [List.append_assoc]
    rfl
  rw [line] at same
  have prefixOf : content ++ lineEnd <+: part := by
    apply List.prefix_of_prefix_length_le ⟨rest, rfl⟩ ⟨more, same⟩
    rw [List.length_append]
    exact long
  rcases prefixOf with ⟨others, rfl⟩
  rw [List.append_assoc, List.append_cancel_left_eq] at same
  exact ⟨others, List.append_assoc .., same⟩

section Headers

variable {path : List Byte} (files : Files) (undefinedCode : HttpConn → HttpCode)

/-- The rest of the header has been received. -/
theorem Paused.finishes (headers : List (List Byte)) (status : LineStatus) (fuel : Nat)
    {conn : HttpConn} (paused : Paused path (lineBytes headers ++ lineEnd) conn)
    (bodiless : Bodiless headers) (enough : conn.unread.length < fuel) :
    ∃ after, repeatLoop (readPass files undefinedCode) fuel ⟨conn, status⟩ =
      .ok (fileCode (files (filePath path)), after) ∧ Completed (files (filePath path)) after := by
  induction headers generalizing conn status fuel with
  | nil =>
      have more : ∃ less, fuel = less + 1 := ⟨fuel - 1, by omega⟩
      rcases more with ⟨fuel, rfl⟩
      rcases paused.blank_pass files undefinedCode status with ⟨after, pass, completed⟩
      exact ⟨after, repeatLoop_leave fuel pass, completed⟩
  | cons header headers induction =>
      have more : ∃ less, fuel = less + 1 := ⟨fuel - 1, by omega⟩
      rcases more with ⟨fuel, rfl⟩
      rcases List.forall_mem_cons.mp bodiless with ⟨⟨line, plain, undeclared⟩, others⟩
      have split := lineBytes_cons_append header headers []
      rw [List.append_nil, List.append_nil] at split
      rw [split] at paused
      have scanned : scan conn.pending = .line header (lineBytes headers ++ lineEnd) := by
        rw [show conn.pending = _ from paused.between.unread]
        exact scan_line line.2 _
      have longer := paused.waiting.length_of_line scanned
      rcases paused.header_pass files undefinedCode line plain undeclared status with
        ⟨next, pass, nextPaused, _⟩
      have shorter := nextPaused.length_unread_le
      rw [repeatLoop_again fuel pass]
      exact induction .open fuel nextPaused others (by omega)

/-- Some bytes of the header are still to come. -/
theorem Paused.stops (headers : List (List Byte)) (status : LineStatus) (fuel : Nat)
    {part more : List Byte} {conn : HttpConn} (paused : Paused path part conn)
    (bodiless : Bodiless headers) (same : part ++ more = lineBytes headers ++ lineEnd)
    (someMore : more ≠ []) (enough : conn.unread.length < fuel) :
    ∃ after rest others, repeatLoop (readPass files undefinedCode) fuel ⟨conn, status⟩ =
        .ok (.noRequest, after) ∧ after.readIdx = conn.readIdx ∧ Paused path rest after ∧
      Bodiless others ∧ rest ++ more = lineBytes others ++ lineEnd := by
  have some := List.length_pos_iff.mpr someMore
  have positive : ∃ less, fuel = less + 1 := ⟨fuel - 1, by omega⟩
  induction headers generalizing conn status fuel part with
  | nil =>
      rcases positive with ⟨fuel, rfl⟩
      have lengths := congrArg List.length same
      have two : (lineBytes [] ++ lineEnd).length = 2 := rfl
      rw [List.length_append, two] at lengths
      have short : part.length < ([] : List Byte).length + 2 := by
        rw [List.length_nil]
        omega
      rcases paused.open_pass files undefinedCode (no_line_of_short unbroken_nil same short) status
        with ⟨count, pass, later⟩
      exact ⟨_, part, [], repeatLoop_leave fuel pass, rfl, later, bodiless, same⟩
  | cons header headers induction =>
      rcases positive with ⟨fuel, rfl⟩
      rcases List.forall_mem_cons.mp bodiless with ⟨⟨line, plain, undeclared⟩, others⟩
      have split := lineBytes_cons_append header headers []
      rw [List.append_nil, List.append_nil] at split
      by_cases short : part.length < header.length + 2
      · rcases paused.open_pass files undefinedCode
          (no_line_of_short line.2 (same.trans split) short) status with ⟨count, pass, later⟩
        exact ⟨_, part, _, repeatLoop_leave fuel pass, rfl, later, bodiless, same⟩
      · rcases exists_rest (same.trans split) (Nat.le_of_not_lt short) with ⟨rest, rfl, restSame⟩
        have scanned : scan conn.pending = .line header rest := by
          rw [show conn.pending = _ from paused.between.unread]
          exact scan_line line.2 _
        have longer := paused.waiting.length_of_line scanned
        rcases paused.header_pass files undefinedCode line plain undeclared status with
          ⟨next, pass, nextPaused, readIdx⟩
        have shorter := nextPaused.length_unread_le
        have left : ∃ less, fuel = less + 1 := ⟨fuel - 1, by omega⟩
        rcases induction .open fuel nextPaused others restSame (by omega) left with
          ⟨after, last, lines, run, afterIdx, afterPaused, linesBodiless, lastSame⟩
        rw [repeatLoop_again fuel pass]
        exact ⟨after, last, lines, run, afterIdx.trans readIdx, afterPaused, linesBodiless, lastSame⟩

end Headers

/-! ## The events of a request -/

/-- The connection after some bytes have been received. -/
def append (conn : HttpConn) (bytes : List Byte) : HttpConn :=
  { conn with
    readBuf := overwrite conn.readBuf conn.readIdx bytes
    readIdx := conn.readIdx + bytes.length }

section Append

variable {conn : HttpConn} {bytes : List Byte} (room : conn.readIdx + bytes.length ≤ readBufferSize)

include room

theorem Positioned.receive_eq (positioned : Positioned conn) :
    conn.receive bytes = .ok (conn.append bytes) := by
  apply if_pos
  rw [positioned.bufferLength]
  exact room

theorem Positioned.append (positioned : Positioned conn) : Positioned (conn.append bytes) := by
  rcases positioned.receive room with ⟨readBuf, received, appended, _⟩
  rw [positioned.receive_eq room] at received
  rw [Except.ok.inj received]
  exact appended

theorem Waiting.append (waiting : Waiting conn) : Waiting (conn.append bytes) := by
  rcases receive_waiting waiting room with ⟨after, received, appended, _⟩
  rw [waiting.positioned.receive_eq room] at received
  rw [Except.ok.inj received]
  exact appended

omit room in
theorem Positioned.unread_append (positioned : Positioned conn) :
    (conn.append bytes).unread = conn.unread ++ bytes := by
  have checkedLe := positioned.checked_le
  have readLe := positioned.readIdx_le_length
  have taken := take_overwrite bytes readLe (Nat.le_refl bytes.length)
  rw [List.take_length] at taken
  dsimp only [unread, HttpConn.append]
  rw [taken, List.drop_append_of_le_length]
  rw [List.length_take]
  omega

theorem Filled.append {part : List Byte} (filled : Filled part conn) :
    Filled (part ++ bytes) (conn.append bytes) where
  positioned := filled.positioned.append room
  ready := ⟨filled.ready.length, filled.ready.ends⟩
  start := filled.start
  unread := by rw [filled.positioned.unread_append, filled.unread]
  state := filled.state
  contentLength := filled.contentLength

omit room in
theorem Positioned.getElem?_append (positioned : Positioned conn) {index : Nat}
    (before : index < conn.checkedIdx) :
    (conn.append bytes).readBuf[index]? = conn.readBuf[index]? := by
  have checkedLe := positioned.checked_le
  exact getElem?_overwrite_of_lt bytes positioned.readIdx_le_length (by omega)

theorem Between.append {path part : List Byte} (between : Between path part conn) :
    Between path (part ++ bytes) (conn.append bytes) where
  positioned := between.positioned.append room
  ready := ⟨between.ready.length, between.ready.ends⟩
  start := between.start
  unread := by rw [between.positioned.unread_append, between.unread]
  target := target_congr between.target rfl (Nat.le_refl _) fun _ before =>
    between.positioned.getElem?_append before

omit room in
theorem Noted.append {host : Option (List Byte)} (noted : Noted host conn)
    (positioned : Positioned conn) : Noted host (conn.append bytes) :=
  noted.congr ⟨rfl, rfl⟩ (Nat.le_refl _) fun _ before => positioned.getElem?_append before

theorem Paused.append {path part : List Byte} (paused : Paused path part conn) :
    Paused path (part ++ bytes) (conn.append bytes) where
  waiting := paused.waiting.append room
  between := by
    have rewound : conn.rewind.readIdx + bytes.length ≤ readBufferSize := room
    exact paused.between.append rewound
  state := paused.state
  contentLength := paused.contentLength
  noted := paused.noted.imp fun _ noted => noted.append paused.between.positioned
  unanswered := ⟨paused.unanswered.bufferLength, paused.unanswered.empty⟩

end Append

/-- How far a connection has come when `more` bytes of the request are still to come. -/
inductive Progress (request : Request) (path more : List Byte) (conn : HttpConn) : Prop
  | requestLine (part : List Byte) (waiting : Waiting conn) (filled : Filled part conn.rewind)
      (noted : Noted none conn.rewind) (unanswered : Unanswered conn)
      (same : part ++ more = request.requestLine ++ carriageReturn :: lineFeed ::
        (lineBytes request.headers ++ lineEnd))
  | header (part : List Byte) (headers : List (List Byte)) (paused : Paused path part conn)
      (bodiless : Bodiless headers) (same : part ++ more = lineBytes headers ++ lineEnd)

/-- The connection has received the request but for the bytes of `more`. -/
structure Awaits (request : Request) (path more : List Byte) (conn : HttpConn) : Prop where
  progress : Progress request path more conn
  readIdx : conn.readIdx + more.length = request.bytes.length

theorem contentLengthOf_bodiless {headers : List (List Byte)} (bodiless : Bodiless headers) :
    contentLengthOf headers = 0 := by
  induction headers with
  | nil => rfl
  | cons header headers induction =>
      rcases List.forall_mem_cons.mp bodiless with ⟨⟨_, plain, undeclared⟩, others⟩
      rw [contentLengthOf_undeclared headers (by rw [lineText_of_plain plain]; exact undeclared)]
      exact induction others

theorem bytes_bodiless {request : Request} (bodiless : Bodiless request.headers) :
    request.bytes = request.requestLine ++ carriageReturn :: lineFeed ::
      (lineBytes request.headers ++ lineEnd) := by
  have bodyLength := request.bodyLength
  rw [contentLengthOf_bodiless bodiless] at bodyLength
  rw [Request.bytes, Request.head, List.eq_nil_of_length_eq_zero bodyLength]
  simp only [List.append_assoc, List.append_nil]
  rfl

theorem awaits_init (conn : HttpConn) {request : Request} (path : List Byte)
    (bodiless : Bodiless request.headers) : Awaits request path request.bytes conn.init where
  progress := .requestLine [] ⟨init_positioned conn, unbroken_nil⟩
    ⟨init_positioned conn, ⟨List.length_replicate, rfl⟩, rfl, rfl, rfl, rfl⟩
    ⟨rfl, fun _ => rfl, nofun⟩ ⟨List.length_replicate, rfl⟩ (bytes_bodiless bodiless)
  readIdx := Nat.zero_add _

section Events

variable {request : Request} {path more : List Byte} {conn : HttpConn}

theorem Awaits.append {bytes : List Byte} (awaits : Awaits request path (bytes ++ more) conn)
    (fits : request.bytes.length ≤ readBufferSize) :
    conn.receive bytes = .ok (conn.append bytes) ∧ Awaits request path more (conn.append bytes) := by
  have readIdx := awaits.readIdx
  rw [List.length_append] at readIdx
  have room : conn.readIdx + bytes.length ≤ readBufferSize := by omega
  have total : (conn.append bytes).readIdx + more.length = request.bytes.length := by
    dsimp only [HttpConn.append]
    omega
  cases awaits.progress with
  | requestLine part waiting filled noted unanswered same =>
      have rewound : conn.rewind.readIdx + bytes.length ≤ readBufferSize := room
      refine ⟨waiting.positioned.receive_eq room, ?_, total⟩
      rw [← List.append_assoc] at same
      exact .requestLine (part ++ bytes) (waiting.append room) (filled.append rewound)
        (noted.append filled.positioned) ⟨unanswered.bufferLength, unanswered.empty⟩ same
  | header part headers paused bodiless same =>
      refine ⟨paused.waiting.positioned.receive_eq room, ?_, total⟩
      rw [← List.append_assoc] at same
      exact .header (part ++ bytes) headers (paused.append room) bodiless same

theorem Awaits.readLoop (pieces : List (List Byte))
    (awaits : Awaits request path (pieces.flatten ++ more) conn) (nonempty : [] ∉ pieces)
    (fits : request.bytes.length ≤ readBufferSize) :
    ∃ after, conn.readLoop (pieces.map .received) = .ok (true, after) ∧
      Awaits request path more after := by
  induction pieces generalizing conn with
  | nil => exact ⟨conn, rfl, awaits⟩
  | cons piece pieces induction =>
      rw [List.flatten_cons, List.append_assoc] at awaits
      rw [List.mem_cons, not_or] at nonempty
      have readIdx := awaits.readIdx
      rw [List.length_append] at readIdx
      have whole : piece.take (readBufferSize - conn.readIdx) = piece :=
        List.take_of_length_le (by omega)
      rcases awaits.append fits with ⟨received, later⟩
      rw [List.map_cons, HttpConn.readLoop, whole, if_neg (Ne.symm nonempty.1), received, Outcome.ok_bind]
      exact induction later nonempty.2

theorem Awaits.read (pieces : List (List Byte))
    (awaits : Awaits request path (pieces.flatten ++ more) conn) (nonempty : [] ∉ pieces)
    (fits : request.bytes.length < readBufferSize) :
    ∃ after, conn.read (pieces.map .received) = .ok (true, after) ∧
      Awaits request path more after := by
  have readIdx := awaits.readIdx
  rw [HttpConn.read, if_neg (by omega)]
  exact awaits.readLoop pieces nonempty (Nat.le_of_lt fits)

variable (bodiless : Bodiless request.headers) (files : Files)
  (undefinedCode : HttpConn → HttpCode)

include bodiless

/-- As long as bytes are missing, `process_read` waits for them. -/
theorem Awaits.processRead_waits (awaits : Awaits request path more conn) (someMore : more ≠ [])
    (target : requestTarget (lineText request.requestLine) = some path) :
    ∃ after, conn.processRead files undefinedCode = .ok (.noRequest, after) ∧
      Awaits request path more after := by
  have readIdx := awaits.readIdx
  cases awaits.progress with
  | requestLine part waiting filled noted unanswered same =>
      have notInBody : conn.checkState ≠ .content := by
        rw [show conn.checkState = .requestLine from filled.state]
        nofun
      have pending : conn.pending = part := filled.unread
      have length := length_unread waiting.positioned
      by_cases short : part.length < request.requestLine.length + 2
      · have noLine := no_line_of_short request.unbroken same short
        rw [← pending] at noLine
        rcases waiting.open_pass notInBody noLine files undefinedCode .ok with
          ⟨count, pass, later⟩
        exact ⟨_, repeatLoop_leave _ pass, .requestLine part later filled noted
          ⟨unanswered.bufferLength, unanswered.empty⟩ same, readIdx⟩
      · rcases exists_rest same (Nat.le_of_not_lt short) with ⟨rest, rfl, restSame⟩
        have scanned := scan_line request.unbroken rest
        have longer := waiting.length_of_line (pending ▸ scanned)
        rcases request_pass files undefinedCode waiting filled noted unanswered scanned target with
          ⟨next, pass, paused, nextIdx⟩
        have shorter := paused.length_unread_le
        rw [processRead, repeatLoop_again _ pass]
        rcases paused.stops files undefinedCode request.headers .ok
          (conn.readIdx - conn.checkedIdx + 1) bodiless restSame someMore (by omega) with
          ⟨after, last, others, run, afterIdx, afterPaused, othersBodiless, lastSame⟩
        refine ⟨after, run, .header last others afterPaused othersBodiless lastSame, ?_⟩
        rw [afterIdx, nextIdx]
        exact readIdx
  | header part headers paused headersBodiless same =>
      have length := length_unread paused.waiting.positioned
      rcases paused.stops files undefinedCode headers .ok (conn.readIdx - conn.checkedIdx + 2)
        headersBodiless same someMore (by omega) with
        ⟨after, last, others, run, afterIdx, afterPaused, othersBodiless, lastSame⟩
      refine ⟨after, run, .header last others afterPaused othersBodiless lastSame, ?_⟩
      rw [afterIdx]
      exact readIdx

/-- The whole request is answered with the code of its file. -/
theorem Awaits.processRead_finishes (awaits : Awaits request path [] conn)
    (target : requestTarget (lineText request.requestLine) = some path) :
    ∃ after, conn.processRead files undefinedCode =
        .ok (fileCode (files (filePath path)), after) ∧
      Completed (files (filePath path)) after := by
  cases awaits.progress with
  | requestLine part waiting filled noted unanswered same =>
      rw [List.append_nil] at same
      subst same
      have pending : conn.pending = _ := filled.unread
      have length := length_unread waiting.positioned
      have scanned := scan_line request.unbroken (lineBytes request.headers ++ lineEnd)
      have longer := waiting.length_of_line (pending ▸ scanned)
      rcases request_pass files undefinedCode waiting filled noted unanswered scanned target with
        ⟨next, pass, paused, _⟩
      have shorter := paused.length_unread_le
      rw [processRead, repeatLoop_again _ pass]
      exact paused.finishes files undefinedCode request.headers .ok _ bodiless (by omega)
  | header part headers paused headersBodiless same =>
      rw [List.append_nil] at same
      subst same
      have length := length_unread paused.waiting.positioned
      exact paused.finishes files undefinedCode headers .ok _ headersBodiless (by omega)

end Events

end HttpConn

end DataStructAlgorithm.HTTPD2
