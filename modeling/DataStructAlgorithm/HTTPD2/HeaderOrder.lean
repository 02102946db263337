import DataStructAlgorithm.HTTPD2.ErrorCodes

/-! # The order of header lines

Which of the host, the body length and the wish to keep the connection `process_read` records,
depending on where the header lines stand. -/

namespace DataStructAlgorithm.HTTPD2

open Foundation

/-- The host that a line names. -/
def hostOf (line : List Byte) : Option (List Byte) :=
  if sameStart 5 line (ascii "Host:") then some (skipBlanks (line.drop 5)) else none

/-- The line `Connection: keep-alive` -/
def isKeepAlive (line : List Byte) : Bool :=
  sameStart 11 line (ascii "Connection:") &&
    sameText (skipBlanks (line.drop 11)) (ascii "keep-alive")

/-- At most one line of each kind, no zero in a line, and a body of the declared length. -/
structure WellFormed (request : Request) : Prop where
  plain : ∀ header ∈ request.headers, (0 : Byte) ∉ header
  hosts : (request.headers.filterMap hostOf).length ≤ 1
  keepAlives : (request.headers.filter isKeepAlive).length ≤ 1
  lengths : (request.headers.filterMap declaredLength).length ≤ 1
  body : contentLengthOf request.headers = request.body.length

/-- The lines in front of the one that declares the length of the body, and that line with the
ones behind it. -/
def beforeLength (headers : List (List Byte)) : List (List Byte) :=
  headers.takeWhile fun header => (declaredLength header).isNone

def fromLength (headers : List (List Byte)) : List (List Byte) :=
  headers.dropWhile fun header => (declaredLength header).isNone

theorem lineText_of_plain {line : List Byte} (plain : (0 : Byte) ∉ line) : lineText line = line := by
  have pass : ∀ byte ∈ line, (byte != 0) = true := by
    intro byte member
    rw [bne_iff_ne]
    exact fun isZero => plain (isZero ▸ member)
  have whole : (line ++ []).takeWhile (· != 0) = line ++ [].takeWhile (· != 0) :=
    List.takeWhile_append_of_pos pass
  rw [List.append_nil] at whole
  exact whole.trans (List.append_nil line)

namespace HttpConn

/-- The host that `m_host` points to. -/
def hostText (conn : HttpConn) : Option (List Byte) :=
  conn.host.bind fun place => (cString conn.readBuf place).toOption

/-- The connection has recorded what the header lines say. -/
structure Records (headers : List (List Byte)) (conn : HttpConn) : Prop where
  host : conn.hostText = headers.findSome? hostOf
  linger : conn.linger = headers.any isKeepAlive
  contentLength : conn.contentLength = contentLengthOf headers

/-! ## What a function records -/

/-- The host and the wish to keep the connection stay. -/
structure SameNotes (conn after : HttpConn) : Prop where
  host : after.host = conn.host
  linger : after.linger = conn.linger

/-- The bytes of the host and the length of the body stay, too. -/
structure SameRecord (conn after : HttpConn) : Prop extends SameNotes conn after where
  readBuf : after.readBuf = conn.readBuf
  contentLength : after.contentLength = conn.contentLength

section Functions

variable {conn after : HttpConn} {code : HttpCode}

theorem parseTarget_notes {url : Nat} (parsed : conn.parseTarget url = .ok (code, after)) :
    SameNotes conn after := by
  rcases Outcome.bind_eq_ok parsed with ⟨rest, _, parsed⟩
  rcases Outcome.bind_eq_ok parsed with ⟨text, _, parsed⟩
  split at parsed
  · cases parsed
    exact ⟨rfl, rfl⟩
  · rcases Outcome.bind_eq_ok parsed with ⟨readBuf, _, parsed⟩
    rcases Outcome.bind_eq_ok parsed with ⟨rest, _, parsed⟩
    rcases Outcome.bind_eq_ok parsed with ⟨version, _, parsed⟩
    split at parsed
    · cases parsed
      exact ⟨rfl, rfl⟩
    · rcases Outcome.bind_eq_ok parsed with ⟨urlText, _, parsed⟩
      dsimp only at parsed
      split at parsed
      · cases parsed
        exact ⟨rfl, rfl⟩
      · rcases Outcome.bind_eq_ok parsed with ⟨first, _, parsed⟩
        split at parsed
        · cases parsed
          exact ⟨rfl, rfl⟩
        · cases parsed
          exact ⟨rfl, rfl⟩

theorem parseRequestLine_notes {text : Nat}
    (parsed : conn.parseRequestLine text = .ok (code, after)) : SameNotes conn after := by
  rcases Outcome.bind_eq_ok parsed with ⟨line, _, parsed⟩
  split at parsed
  · cases parsed
    exact ⟨rfl, rfl⟩
  · rcases Outcome.bind_eq_ok parsed with ⟨readBuf, _, parsed⟩
    rcases Outcome.bind_eq_ok parsed with ⟨method, _, parsed⟩
    split at parsed
    · have same := parseTarget_notes parsed
      exact ⟨same.host, same.linger⟩
    · split at parsed
      · have same := parseTarget_notes parsed
        exact ⟨same.host, same.linger⟩
      · cases parsed
        exact ⟨rfl, rfl⟩

theorem doRequest_notes {files : Files} (requested : conn.doRequest files = .ok (code, after)) :
    SameRecord conn after := by
  rw [doRequest] at requested
  split at requested
  · cases requested
  · rcases Outcome.bind_eq_ok requested with ⟨urlText, _, requested⟩
    rcases Outcome.bind_eq_ok requested with ⟨path, _, requested⟩
    dsimp only at requested
    split at requested
    · cases requested
      exact ⟨⟨rfl, rfl⟩, rfl, rfl⟩
    · split at requested
      · cases requested
        exact ⟨⟨rfl, rfl⟩, rfl, rfl⟩
      · split at requested
        · cases requested
          exact ⟨⟨rfl, rfl⟩, rfl, rfl⟩
        · cases requested
          exact ⟨⟨rfl, rfl⟩, rfl, rfl⟩

/-- Texts that begin like two others. -/
theorem head_eq_of_sameStart {count otherCount : Nat} {first second : Byte}
    {text firsts seconds : List Byte} (same : sameStart (count + 1) text (first :: firsts) = true)
    (otherSame : sameStart (otherCount + 1) text (second :: seconds) = true) :
    toLower first = toLower second := by
  cases text with
  | nil => cases same
  | cons byte text =>
      rw [sameStart, sameText, List.take_succ_cons, List.take_succ_cons, beq_iff_eq] at same otherSame
      exact (List.cons.inj same).1.symm.trans (List.cons.inj otherSame).1

theorem hostOf_eq_none {count : Nat} {first : Byte} {line name : List Byte}
    (same : sameStart (count + 1) line (first :: name) = true) (different : toLower first ≠ 104) :
    hostOf line = none := by
  apply if_neg
  intro host
  exact different (head_eq_of_sameStart same host)

/-- A line whose end is followed by two zeros: `Connection` is never found with a value. -/
theorem parseHeaders_notes {text : Nat} {line : List Byte} (stands : StringAt conn.readBuf text line)
    (zero : conn.readBuf[text + line.length + 1]? = some 0)
    (parsed : conn.parseHeaders text = .ok (code, after)) :
    after.linger = conn.linger ∧ (hostOf line = none ∧ after.host = conn.host ∨
      ∃ host place, hostOf line = some host ∧ after.host = some place ∧
        StringAt conn.readBuf place host ∧ place + host.length = text + line.length) := by
  rw [parseHeaders, stands.cString_eq, Outcome.ok_bind] at parsed
  split at parsed
  · rename_i blank
    have noHost : hostOf line = none := by
      rw [blank]
      decide
    split at parsed
    · cases parsed
      exact ⟨rfl, Or.inl ⟨noHost, rfl⟩⟩
    · cases parsed
      exact ⟨rfl, Or.inl ⟨noHost, rfl⟩⟩
  · split at parsed
    · rename_i connection
      have length := length_eq_of_sameStart connection (by decide)
      have ten : (ascii "Connection").length = 10 := rfl
      rw [length, ten] at zero
      rcases StringAt.exists_of_zero (Nat.le_refl (text + 11)) zero with ⟨empty, behind, short⟩
      have isEmpty : empty = [] := List.eq_nil_of_length_eq_zero (by omega)
      rw [isEmpty] at behind
      have skipped := skip_stands behind
      rw [behind.cString_eq, Outcome.ok_bind, skipped.cString_eq, Outcome.ok_bind] at parsed
      cases parsed
      exact ⟨rfl, Or.inl ⟨hostOf_eq_none connection (by decide), rfl⟩⟩
    · split at parsed
      · rename_i declares
        rcases Outcome.bind_eq_ok parsed with ⟨rest, _, parsed⟩
        rcases Outcome.bind_eq_ok parsed with ⟨value, _, parsed⟩
        cases parsed
        exact ⟨rfl, Or.inl ⟨hostOf_eq_none declares (by decide), rfl⟩⟩
      · split at parsed
        · rename_i names
          have long := le_length_of_sameStart names (by decide)
          have behind := stands.drop long
          have spanned := strspn_le (line.drop 5) blanks
          rw [List.length_drop] at spanned
          rw [behind.cString_eq, Outcome.ok_bind] at parsed
          cases parsed
          refine ⟨rfl, Or.inr ⟨_, _, if_pos names, rfl, skip_stands behind, ?_⟩⟩
          rw [skipBlanks, List.length_drop, List.length_drop]
          omega
        · rename_i noName
          cases parsed
          exact ⟨rfl, Or.inl ⟨if_neg noName, rfl⟩⟩

/-- Reading a body changes a byte behind the line that it begins with. -/
theorem parseContent_notes {text : Nat} {undefinedCode : HttpCode}
    (nonnegative : 0 ≤ conn.contentLength)
    (parsed : conn.parseContent text undefinedCode = .ok (code, after)) :
    SameNotes conn after ∧ after.contentLength = conn.contentLength ∧
      after.checkedIdx = conn.checkedIdx ∧ ∀ index : Nat, index < text →
        after.readBuf[index]? = conn.readBuf[index]? := by
  rw [parseContent] at parsed
  rcases Outcome.bind_eq_ok parsed with ⟨needed, _, parsed⟩
  split at parsed
  · rcases Outcome.bind_eq_ok parsed with ⟨readBuf, stored, parsed⟩
    cases parsed
    refine ⟨⟨rfl, rfl⟩, rfl, rfl, fun index before => ?_⟩
    rw [storeAt] at stored
    split at stored
    · rw [writeAt] at stored
      split at stored
      · cases stored
        exact List.getElem?_set_ne (by omega)
      · cases stored
    · cases stored
  · cases parsed
    exact ⟨⟨rfl, rfl⟩, rfl, rfl, fun _ _ => rfl⟩

end Functions

/-! ## What a pass records -/

section Handled

variable {files : Files} {undefinedCode : HttpConn → HttpCode} {conn next after : HttpConn}
  {text : Nat} {status : LineStatus} {code : HttpCode}

theorem handleRequestLine_again (state : conn.checkState = .requestLine)
    (handled : handleLine files undefinedCode conn text = .ok (.again ⟨next, status⟩)) :
    SameNotes conn next := by
  rw [handleLine, state] at handled
  rcases Outcome.bind_eq_ok handled with ⟨⟨ret, middle⟩, parsed, handled⟩
  dsimp only at handled
  split at handled
  · cases handled
  · cases handled
    exact parseRequestLine_notes parsed

theorem handleHeader_again (state : conn.checkState = .header)
    (handled : handleLine files undefinedCode conn text = .ok (.again ⟨next, status⟩)) :
    ∃ ret, conn.parseHeaders text = .ok (ret, next) := by
  rw [handleLine, state] at handled
  rcases Outcome.bind_eq_ok handled with ⟨⟨ret, middle⟩, parsed, handled⟩
  dsimp only at handled
  split at handled
  · cases handled
  · split at handled
    · rcases Outcome.bind_eq_ok handled with ⟨result, _, handled⟩
      cases handled
    · cases handled
      exact ⟨ret, parsed⟩

theorem handleHeader_leave (state : conn.checkState = .header)
    (handled : handleLine files undefinedCode conn text = .ok (.leave (code, after))) :
    ∃ ret middle, conn.parseHeaders text = .ok (ret, middle) ∧ ret ≠ .noRequest ∧
      SameRecord middle after := by
  rw [handleLine, state] at handled
  rcases Outcome.bind_eq_ok handled with ⟨⟨ret, middle⟩, parsed, handled⟩
  dsimp only at handled
  split at handled
  · rename_i isBad
    cases handled
    exact ⟨ret, after, parsed, by rw [isBad]; decide, ⟨rfl, rfl⟩, rfl, rfl⟩
  · split at handled
    · rename_i isComplete
      rcases Outcome.bind_eq_ok handled with ⟨result, requested, handled⟩
      cases handled
      exact ⟨ret, middle, parsed, by rw [isComplete]; decide, doRequest_notes requested⟩
    · cases handled

theorem handleContent_leave (state : conn.checkState = .content)
    (handled : handleLine files undefinedCode conn text = .ok (.leave (code, after))) :
    ∃ ret middle, conn.parseContent text (undefinedCode conn) = .ok (ret, middle) ∧
      SameRecord middle after := by
  rw [handleLine, state] at handled
  rcases Outcome.bind_eq_ok handled with ⟨⟨ret, middle⟩, parsed, handled⟩
  dsimp only at handled
  split at handled
  · rcases Outcome.bind_eq_ok handled with ⟨result, requested, handled⟩
    cases handled
    exact ⟨ret, middle, parsed, doRequest_notes requested⟩
  · cases handled

end Handled

/-- The connection has noted a host, in front of the next line, and no wish to keep the
connection. -/
structure Noted (host : Option (List Byte)) (conn : HttpConn) : Prop where
  linger : conn.linger = false
  noHost : host = none → conn.host = none
  pointer : ∀ text, host = some text → ∃ place, conn.host = some place ∧
    StringAt conn.readBuf place text ∧ place + text.length < conn.checkedIdx

theorem Noted.congr {host : Option (List Byte)} {conn after : HttpConn} (noted : Noted host conn)
    (same : SameNotes conn after) (further : conn.checkedIdx ≤ after.checkedIdx)
    (sameBytes : ∀ index : Nat, index < conn.checkedIdx →
      after.readBuf[index]? = conn.readBuf[index]?) : Noted host after where
  linger := same.linger.trans noted.linger
  noHost := fun none => same.host.trans (noted.noHost none)
  pointer := by
    intro text isHost
    rcases noted.pointer text isHost with ⟨place, isPlace, stands, within⟩
    exact ⟨place, same.host.trans isPlace,
      stands.congr fun index _ high => sameBytes index (by omega), by omega⟩

theorem Noted.hostText_eq {host : Option (List Byte)} {conn : HttpConn} (noted : Noted host conn) :
    conn.hostText = host := by
  cases host with
  | none => rw [hostText, noted.noHost rfl, Option.bind_none]
  | some text =>
      rcases noted.pointer text rfl with ⟨place, isPlace, stands, _⟩
      rw [hostText, isPlace, Option.bind_some, stands.cString_eq]
      rfl

/-- What a completed request leaves. -/
structure Finished (host : Option (List Byte)) (length : Int) (conn : HttpConn) : Prop where
  host : conn.hostText = host
  linger : conn.linger = false
  contentLength : conn.contentLength = length

theorem Noted.finished {host : Option (List Byte)} {conn after : HttpConn} (noted : Noted host conn)
    (same : SameRecord conn after) : Finished host conn.contentLength after where
  host := by
    rw [hostText, same.host, same.readBuf]
    exact noted.hostText_eq
  linger := same.linger.trans noted.linger
  contentLength := same.contentLength

section Passes

variable {path content rest : List Byte} {host : Option (List Byte)} {conn : HttpConn}
  (files : Files) (undefinedCode : HttpConn → HttpCode)

theorem Noted.nextLine (noted : Noted host conn) (count : Nat) :
    Noted host (conn.endLine count).startNext := by
  have same : SameNotes conn (conn.endLine count).startNext := ⟨rfl, rfl⟩
  apply noted.congr same
  · dsimp only [startNext, endLine]
    omega
  · exact fun index before => getElem?_endLine before count

/-- The pass over the empty line. -/
theorem blank_pass_noted (status : LineStatus)
    (between : Between path (carriageReturn :: lineFeed :: rest) conn)
    (state : conn.checkState = .header) (noLength : conn.contentLength = 0)
    (noted : Noted host conn) :
    ∃ after, readPass files undefinedCode ⟨conn, status⟩ =
      .ok (.leave (fileCode (files (filePath path)), after)) ∧ Finished host 0 after := by
  have line : Between path ([] ++ carriageReturn :: lineFeed :: rest) conn := between
  have passEq := line.pass files undefinedCode status unbroken_nil (Or.inl state)
  rcases header_pass files undefinedCode status line unbroken_nil state noLength with
    ⟨after, pass⟩ | ⟨someText, _⟩
  · refine ⟨after, pass, ?_⟩
    rw [passEq] at pass
    rcases handleHeader_leave (show (conn.endLine 0).startNext.checkState = .header from state)
      pass with ⟨ret, middle, parsed, _, same⟩
    rcases endLine_stands line.positioned line.start line.unread with ⟨stands, _⟩
    have blank := parseHeaders_blank (show StringAt
      (conn.endLine 0).startNext.readBuf conn.startLine [] from stands) noLength
    have both := Except.ok.inj (blank.symm.trans parsed)
    rw [← (Prod.mk.inj both).2] at same
    have finished := (noted.nextLine 0).finished same
    rw [show (conn.endLine 0).startNext.contentLength = 0 from noLength] at finished
    exact finished
  · exact absurd rfl someText

/-- The pass over a header line. -/
theorem header_pass_noted (status : LineStatus)
    (between : Between path (content ++ carriageReturn :: lineFeed :: rest) conn)
    (unbroken : Unbroken content) (someText : content ≠ []) (plain : (0 : Byte) ∉ content)
    (state : conn.checkState = .header) (noLength : conn.contentLength = 0)
    (noted : Noted host conn) :
    ∃ next, readPass files undefinedCode ⟨conn, status⟩ = .ok (.again ⟨next, .open⟩) ∧
      Between path rest next ∧ next.contentLength = (declaredLength content).getD 0 ∧
      next.checkState = (if (declaredLength content).isSome then .content else .header) ∧
      Noted ((hostOf content).or host) next := by
  have text := lineText_of_plain plain
  have passEq := between.pass files undefinedCode status unbroken (Or.inl state)
  have ended := lineEnded between.positioned between.unread
  have afterState : (conn.endLine content.length).startNext.checkState = .header := state
  rcases endLine_stands between.positioned between.start between.unread with ⟨stands, _⟩
  rw [text] at stands
  have atLine : StringAt (conn.endLine content.length).startNext.readBuf conn.startLine content :=
    stands
  have zero : (conn.endLine content.length).startNext.readBuf[
      conn.startLine + content.length + 1]? = some 0 := by
    rw [between.start]
    exact ended.secondZero
  rcases header_pass files undefinedCode status between unbroken state noLength with
    ⟨after, pass⟩ | ⟨_, next, pass, later, length, nextState⟩
  · rw [passEq] at pass
    rcases handleHeader_leave afterState pass with ⟨ret, middle, parsed, isRequest, _⟩
    rcases parseHeaders_eq atLine (Nat.lt_succ_self _) zero someText with ⟨other, accepted, _⟩
    have both := Except.ok.inj (accepted.symm.trans parsed)
    exact absurd (Prod.mk.inj both).1.symm isRequest
  · rw [text] at length nextState
    refine ⟨next, pass, later, length, nextState, ?_⟩
    rw [passEq] at pass
    rcases handleHeader_again afterState pass with ⟨ret, parsed⟩
    have nextNoted := noted.nextLine content.length
    rcases parseHeaders_eq atLine (Nat.lt_succ_self _) zero someText with ⟨other, accepted, read⟩
    have both := Except.ok.inj (accepted.symm.trans parsed)
    rw [(Prod.mk.inj both).2] at read
    rcases parseHeaders_notes atLine zero parsed with ⟨linger, ⟨noHost, same⟩ | isHost⟩
    · rw [noHost, Option.none_or]
      apply nextNoted.congr ⟨same, linger⟩ (Nat.le_of_eq read.kept.checkedIdx.symm)
      intro index _
      rw [read.readBuf]
    · rcases isHost with ⟨name, place, isName, isPlace, stands, within⟩
      rw [isName, Option.some_or]
      refine ⟨linger.trans nextNoted.linger, nofun, ?_⟩
      intro named isNamed
      cases isNamed
      refine ⟨place, isPlace, ?_, ?_⟩
      · rw [read.readBuf]
        exact stands
      · rw [read.kept.checkedIdx, within, between.start]
        dsimp only [startNext, endLine]
        omega

/-- The pass that finds the body complete. -/
theorem body_pass_noted
    (between : Between path (content ++ carriageReturn :: lineFeed :: rest) conn)
    (unbroken : Unbroken content) (state : conn.checkState = .content)
    (nonnegative : 0 ≤ conn.contentLength) (enough : conn.contentLength ≤ rest.length)
    (noted : Noted host conn) :
    ∃ after, readPass files undefinedCode ⟨conn, .open⟩ =
      .ok (.leave (fileCode (files (filePath path)), after)) ∧
      Finished host conn.contentLength after := by
  have passEq := between.pass files undefinedCode .open unbroken (Or.inr rfl)
  rcases body_pass files undefinedCode between unbroken state nonnegative enough with ⟨after, pass⟩
  refine ⟨after, pass, ?_⟩
  rw [passEq] at pass
  have afterState : (conn.endLine content.length).startNext.checkState = .content := state
  rcases handleContent_leave afterState pass with ⟨ret, middle, parsed, same⟩
  rcases parseContent_notes (show 0 ≤ (conn.endLine content.length).startNext.contentLength
    from nonnegative) parsed with ⟨sameNotes, sameLength, checkedIdx, sameBytes⟩
  have middleNotes : SameNotes conn middle := ⟨sameNotes.host, sameNotes.linger⟩
  have middleLength : middle.contentLength = conn.contentLength := sameLength
  have middleNoted : Noted host middle := by
    apply noted.congr middleNotes
    · rw [checkedIdx]
      dsimp only [startNext, endLine]
      omega
    · intro index before
      rw [sameBytes index (by rw [between.start]; exact before)]
      exact getElem?_endLine before content.length
  rw [← middleLength]
  exact middleNoted.finished same

end Passes

/-! ## All header lines -/

section Lines

variable {path rest : List Byte} (files : Files) (undefinedCode : HttpConn → HttpCode)

/-- The host that is noted is the last one in front of the line that declares the length. -/
theorem headers_recorded (headers : List (List Byte)) (status : LineStatus) (fuel : Nat)
    {host : Option (List Byte)} {conn : HttpConn} (headerLines : HeaderLines headers)
    (plain : ∀ header ∈ headers, (0 : Byte) ∉ header)
    (between : Between path (lineBytes headers ++ lineEnd ++ rest) conn)
    (state : conn.checkState = .header) (noLength : conn.contentLength = 0)
    (nonnegative : 0 ≤ contentLengthOf headers) (enough : contentLengthOf headers ≤ rest.length)
    (passes : headers.length + 2 ≤ fuel) (noted : Noted host conn) :
    ∃ after, repeatLoop (readPass files undefinedCode) fuel ⟨conn, status⟩ =
        .ok (fileCode (files (filePath path)), after) ∧
      Finished (((beforeLength headers).filterMap hostOf).getLast?.or host)
        (contentLengthOf headers) after := by
  induction headers generalizing conn status fuel host with
  | nil =>
      have more : ∃ less, fuel = less + 1 := ⟨fuel - 1, by omega⟩
      rcases more with ⟨fuel, rfl⟩
      rcases blank_pass_noted files undefinedCode status between state noLength noted with
        ⟨after, pass, finished⟩
      exact ⟨after, repeatLoop_leave fuel pass, finished⟩
  | cons header headers induction =>
      have more : ∃ less, fuel = less + 2 := ⟨fuel - 2, by omega⟩
      rcases more with ⟨fuel, rfl⟩
      rw [headerLines_cons] at headerLines
      rw [List.forall_mem_cons] at plain
      have line : Between path (header ++ carriageReturn :: lineFeed ::
          (lineBytes headers ++ lineEnd ++ rest)) conn := lineBytes_cons_append .. ▸ between
      rcases header_pass_noted files undefinedCode status line headerLines.1.2 headerLines.1.1
        plain.1 state noLength noted with ⟨next, pass, later, length, nextState, nextNoted⟩
      rw [repeatLoop_again _ pass]
      have text := lineText_of_plain plain.1
      cases declared : declaredLength header with
      | none =>
          rw [declared] at length nextState
          rw [contentLengthOf_undeclared headers (by rw [text]; exact declared)] at nonnegative enough ⊢
          rw [List.length_cons] at passes
          rcases induction .open (fuel + 1) headerLines.2 plain.2 later nextState length nonnegative
            enough (by omega) nextNoted with ⟨after, run, finished⟩
          refine ⟨after, run, ?_⟩
          have more : beforeLength (header :: headers) = header :: beforeLength headers := by
            rw [beforeLength, List.takeWhile_cons, declared]
            rfl
          rw [more, List.filterMap_cons]
          cases named : hostOf header with
          | none =>
              rw [named, Option.none_or] at finished
              exact finished
          | some name =>
              rw [named, Option.some_or] at finished
              dsimp only
              rw [List.getLast?_cons, Option.some_or, ← Option.or_some]
              exact finished
      | some value =>
          rw [declared] at length nextState
          rw [contentLengthOf_declared headers (by rw [text]; exact declared)] at nonnegative enough ⊢
          rcases exists_line headers headerLines.2 rest with
            ⟨content, others, unbroken, longer, same⟩
          rw [same] at later
          have nextLength : next.contentLength = value := length
          rcases body_pass_noted files undefinedCode later unbroken nextState (by omega) (by omega)
            nextNoted with ⟨after, bodyPass, finished⟩
          refine ⟨after, repeatLoop_leave _ bodyPass, ?_⟩
          have noMore : beforeLength (header :: headers) = [] := by
            rw [beforeLength, List.takeWhile_cons, declared]
            rfl
          have noName : hostOf header = none := by
            rw [declaredLength] at declared
            split at declared
            · rename_i declares
              exact hostOf_eq_none declares (by decide)
            · cases declared
          rw [noMore]
          rw [noName, Option.none_or, nextLength] at finished
          exact finished

end Lines

/-! ## A whole request -/

theorem receive_notes {conn after : HttpConn} {bytes : List Byte}
    (received : conn.receive bytes = .ok after) : SameNotes conn after := by
  rw [receive] at received
  split at received
  · cases received
    exact ⟨rfl, rfl⟩
  · cases received

section Whole

variable {conn filled : HttpConn} {request : Request} {path : List Byte}

theorem processRead_finished (files : Files) (undefinedCode : HttpConn → HttpCode)
    (received : conn.init.receive request.bytes = .ok filled)
    (target : requestTarget (lineText request.requestLine) = some path)
    (wellFormed : WellFormed request) :
    ∃ after, filled.processRead files undefinedCode =
        .ok (fileCode (files (filePath path)), after) ∧
      Finished ((beforeLength request.headers).filterMap hostOf).getLast?
        (contentLengthOf request.headers) after := by
  have isFilled := filled_of_receive received
  rcases scan_of_complete (List.prefix_refl request.bytes) with ⟨extra, scanned⟩
  rcases (first_pass isFilled scanned files undefinedCode).2 path target with
    ⟨next, pass, between, state, noLength⟩
  have noted : Noted none next := by
    have notInBody : ¬(filled.checkState = .content ∧ LineStatus.ok = .ok) := by
      rw [isFilled.state]
      nofun
    have filledNotes := receive_notes received
    have passEq := readPass_line ⟨filled, .ok⟩ isFilled.positioned notInBody files undefinedCode
      (isFilled.unread ▸ scanned)
    rw [pass] at passEq
    have firstState : (filled.endLine request.requestLine.length).startNext.checkState =
        .requestLine := isFilled.state
    have nextNotes := handleRequestLine_again firstState passEq.symm
    exact ⟨nextNotes.linger.trans filledNotes.linger,
      fun _ => nextNotes.host.trans filledNotes.host, nofun⟩
  have body := wellFormed.body
  have enough : contentLengthOf request.headers ≤ (request.body ++ extra).length := by
    rw [List.length_append]
    omega
  have headersLe := length_le_lineBytes request.headers
  have describes := scan_describes request.bytes
  rw [scanned] at describes
  have length := length_unread isFilled.positioned
  rw [isFilled.unread, describes.2] at length
  simp only [List.length_append, List.length_cons] at length
  rcases headers_recorded files undefinedCode request.headers .ok
    (filled.readIdx - filled.checkedIdx + 1) request.headerLines wellFormed.plain between state
    noLength (by omega) enough (by omega) noted with ⟨after, run, finished⟩
  refine ⟨after, ?_, ?_⟩
  · rw [processRead, repeatLoop_again _ pass]
    exact run
  · rw [Option.or_none] at finished
    exact finished

end Whole

/-- With at most one name of a host, the last one in front of the length is the first one of all
exactly if there is none behind the length. -/
theorem host_before_iff {headers : List (List Byte)}
    (hosts : (headers.filterMap hostOf).length ≤ 1) :
    ((beforeLength headers).filterMap hostOf).getLast? = headers.findSome? hostOf ↔
      ∀ header ∈ fromLength headers, hostOf header = none := by
  have parts := List.takeWhile_append_dropWhile
    (p := fun header => (declaredLength header).isNone) (l := headers)
  have split : headers.filterMap hostOf =
      (beforeLength headers).filterMap hostOf ++ (fromLength headers).filterMap hostOf := by
    rw [← List.filterMap_append, beforeLength, fromLength, parts]
  rw [← List.head?_filterMap, split, ← List.filterMap_eq_nil_iff]
  rw [split, List.length_append] at hosts
  cases before : (beforeLength headers).filterMap hostOf with
  | nil =>
      cases (fromLength headers).filterMap hostOf with
      | nil => exact iff_of_true rfl rfl
      | cons host others => exact iff_of_false nofun nofun
  | cons host others =>
      rw [before, List.length_cons] at hosts
      have noOthers : others = [] := List.eq_nil_of_length_eq_zero (by omega)
      have noneBehind : (fromLength headers).filterMap hostOf = [] :=
        List.eq_nil_of_length_eq_zero (by omega)
      rw [noOthers]
      exact iff_of_true rfl noneBehind

/-- A well-formed request is completed. What it says is recorded exactly if it does not ask to
keep the connection and does not name the host behind the length of the body. -/
theorem records_iff {conn filled : HttpConn} {request : Request} {path : List Byte}
    (received : conn.init.receive request.bytes = .ok filled)
    (target : requestTarget (lineText request.requestLine) = some path)
    (wellFormed : WellFormed request) (files : Files) (undefinedCode : HttpConn → HttpCode) :
    ∃ after, filled.processRead files undefinedCode =
        .ok (fileCode (files (filePath path)), after) ∧
      (Records request.headers after ↔ (∀ header ∈ request.headers, ¬isKeepAlive header) ∧
        ∀ header ∈ fromLength request.headers, hostOf header = none) := by
  rcases processRead_finished files undefinedCode received target wellFormed with
    ⟨after, run, finished⟩
  refine ⟨after, run, ?_⟩
  rw [← host_before_iff wellFormed.hosts]
  constructor
  · intro records
    constructor
    · have noLine := records.linger
      rw [finished.linger] at noLine
      exact List.any_eq_false.mp noLine.symm
    · rw [← finished.host]
      exact records.host
  · rintro ⟨noLine, sameHost⟩
    refine ⟨finished.host.trans sameHost, ?_, finished.contentLength⟩
    rw [finished.linger]
    exact (List.any_eq_false.mpr noLine).symm

/-- A host in front of the length. -/
theorem records_iff_host : ∃ request : Request,
    request.bytes = ascii "GET / HTTP/1.1\r\nHost: a\r\nContent-Length: 2\r\n\r\nhi" ∧
    ∃ filled, fresh.init.receive request.bytes = .ok filled ∧
      ∃ after, filled.processRead (fun _ => none) (fun _ => .noRequest) =
          .ok (fileCode none, after) ∧
        (Records request.headers after ↔ (∀ header ∈ request.headers, ¬isKeepAlive header) ∧
          ∀ header ∈ fromLength request.headers, hostOf header = none) := by
  let request : Request :=
    ⟨ascii "GET / HTTP/1.1", [ascii "Host: a", ascii "Content-Length: 2"], ascii "hi",
      by decide +kernel, by unfold HeaderLines; decide +kernel, by decide +kernel⟩
  have wellFormed : WellFormed request :=
    ⟨by decide +kernel, by decide +kernel, by decide +kernel, by decide +kernel, by decide +kernel⟩
  have target : requestTarget (lineText request.requestLine) = some (ascii "/") := by decide +kernel
  rcases receive_fresh request.bytes (by decide +kernel) with ⟨filled, received⟩
  exact ⟨request, by decide +kernel, filled, received,
    records_iff received target wellFormed (fun _ => none) (fun _ => .noRequest)⟩

/-- A request to keep the connection is not recorded, and a host is not recorded behind the
length of the body. -/
theorem request_not_recorded :
    (∃ request : Request,
      request.bytes = ascii "GET / HTTP/1.1\r\nConnection: keep-alive\r\n\r\n" ∧
      WellFormed request ∧ request.headers.any isKeepAlive = true ∧
      ∃ filled, fresh.init.receive request.bytes = .ok filled ∧
        ∃ after, filled.processRead (fun _ => none) (fun _ => .noRequest) = .ok (.noRequest, after) ∧
          after.linger = false) ∧
    ∃ first second : Request,
      first.bytes = ascii "GET / HTTP/1.1\r\nHost: a\r\nContent-Length: 0\r\n\r\n" ∧
      second.bytes = ascii "GET / HTTP/1.1\r\nContent-Length: 0\r\nHost: a\r\n\r\n" ∧
      WellFormed first ∧ WellFormed second ∧ first.headers.Perm second.headers ∧
      ∃ filled other, fresh.init.receive first.bytes = .ok filled ∧
        fresh.init.receive second.bytes = .ok other ∧
        ∃ after otherAfter,
          filled.processRead (fun _ => none) (fun _ => .noRequest) = .ok (.noRequest, after) ∧
          other.processRead (fun _ => none) (fun _ => .noRequest) = .ok (.noRequest, otherAfter) ∧
          after.hostText = some (ascii "a") ∧ otherAfter.hostText = none := by
  have line : requestTarget (lineText (ascii "GET / HTTP/1.1")) = some (ascii "/") := by
    decide +kernel
  constructor
  · let request : Request := ⟨ascii "GET / HTTP/1.1", [ascii "Connection: keep-alive"], [],
      by decide +kernel, by unfold HeaderLines; decide +kernel, by decide +kernel⟩
    have wellFormed : WellFormed request := ⟨by decide +kernel, by decide +kernel,
      by decide +kernel, by decide +kernel, by decide +kernel⟩
    rcases receive_fresh request.bytes (by decide +kernel) with ⟨filled, received⟩
    rcases processRead_finished (fun _ => none) (fun _ => .noRequest) received line wellFormed with
      ⟨after, run, finished⟩
    exact ⟨request, by decide +kernel, wellFormed, by decide +kernel, filled, received, after, run,
      finished.linger⟩
  · let first : Request := ⟨ascii "GET / HTTP/1.1", [ascii "Host: a", ascii "Content-Length: 0"],
      [], by decide +kernel, by unfold HeaderLines; decide +kernel, by decide +kernel⟩
    let second : Request := ⟨ascii "GET / HTTP/1.1", [ascii "Content-Length: 0", ascii "Host: a"],
      [], by decide +kernel, by unfold HeaderLines; decide +kernel, by decide +kernel⟩
    have firstFormed : WellFormed first := ⟨by decide +kernel, by decide +kernel,
      by decide +kernel, by decide +kernel, by decide +kernel⟩
    have secondFormed : WellFormed second := ⟨by decide +kernel, by decide +kernel,
      by decide +kernel, by decide +kernel, by decide +kernel⟩
    rcases receive_fresh first.bytes (by decide +kernel) with ⟨filled, received⟩
    rcases receive_fresh second.bytes (by decide +kernel) with ⟨other, otherReceived⟩
    rcases processRead_finished (fun _ => none) (fun _ => .noRequest) received line firstFormed with
      ⟨after, run, finished⟩
    rcases processRead_finished (fun _ => none) (fun _ => .noRequest) otherReceived line
      secondFormed with ⟨otherAfter, otherRun, otherFinished⟩
    refine ⟨first, second, by decide +kernel, by decide +kernel, firstFormed, secondFormed,
      List.Perm.swap _ _ [], filled, other, received, otherReceived, after, otherAfter, run,
      otherRun, finished.host.trans ?_, otherFinished.host.trans ?_⟩
    · decide +kernel
    · decide +kernel

end HttpConn

end DataStructAlgorithm.HTTPD2
