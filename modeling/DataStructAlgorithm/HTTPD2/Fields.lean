import DataStructAlgorithm.HTTPD2.Request

/-! # What the parsers make of a line

The functions of `http_conn.cpp` for one line, in terms of the text of the line. -/

namespace DataStructAlgorithm.HTTPD2

open Foundation

def skipBlanks (text : List Byte) : List Byte := text.drop (strspn text blanks)

/-- The text in front of the first blank, and what follows the blanks there. -/
def cutBlank (text : List Byte) : Option (List Byte × List Byte) :=
  (strpbrk text blanks).map fun offset => (text.take offset, skipBlanks (text.drop (offset + 1)))

/-- A target without the scheme and the host. -/
def localTarget (target : List Byte) : Option (List Byte) :=
  if sameStart 7 target (ascii "http://") then
    (strchr (target.drop 7) 47).map fun offset => target.drop (7 + offset)
  else some target

/-- The path in the target, if the version is the right one. -/
def acceptTarget (rest : List Byte) : Option (List Byte) := do
  let (target, version) ← cutBlank rest
  if sameText version (ascii "HTTP/1.1") then do
    let path ← localTarget target
    if path.head? = some 47 then some path else none
  else none

/-- The path that a request line asks for, unless `parse_request_line` rejects it. -/
def requestTarget (line : List Byte) : Option (List Byte) := do
  let (method, rest) ← cutBlank line
  if sameText method (ascii "GET") ∨ sameText method (ascii "POST") then acceptTarget rest
  else none

/-- The number in a `Content-Length` line. -/
def declaredLength (line : List Byte) : Option Int :=
  if sameStart 15 line (ascii "Content-Length:") then
    some (toInt (atol (skipBlanks (line.drop 15))))
  else none

/-- The path that `do_request` builds. -/
def filePath (target : List Byte) : List Byte :=
  docRoot ++ target.take (fileNameLen - docRoot.length - 1)

/-- The code that `do_request` returns for a file. -/
def fileCode : Option FileStat → HttpCode
  | none => .noRequest
  | some stat =>
      if ¬stat.othersRead then .forbiddenRequest
      else if stat.isDirectory then .badRequest
      else .fileRequest

namespace HttpConn

/-- What the parsers of a line leave alone. -/
structure Kept (conn after : HttpConn) : Prop where
  readBuf : Zeroed conn.readBuf after.readBuf
  readIdx : after.readIdx = conn.readIdx
  checkedIdx : after.checkedIdx = conn.checkedIdx
  startLine : after.startLine = conn.startLine
  realFile : after.realFile = conn.realFile

theorem Kept.refl (conn : HttpConn) : Kept conn conn := ⟨Zeroed.refl _, rfl, rfl, rfl, rfl⟩

theorem Kept.positioned {conn after : HttpConn} (kept : Kept conn after)
    (positioned : Positioned conn) : Positioned after where
  bufferLength := kept.readBuf.length.trans positioned.bufferLength
  read_le := kept.readIdx ▸ positioned.read_le
  checked_le := by
    rw [kept.readIdx, kept.checkedIdx]
    exact positioned.checked_le
  start_le := by
    rw [kept.startLine, kept.checkedIdx]
    exact positioned.start_le
  behind := by
    intro index last
    rw [kept.checkedIdx] at last
    rcases kept.readBuf.bytes index with same | zero
    · rw [same]
      exact positioned.behind index last
    · rw [zero]
      decide

/-! ## The request line -/

/-- How the parsing of a request line that ends at `limit` ends. -/
def FindsTarget (conn : HttpConn) (limit : Nat) (parsed : Outcome (HttpCode × HttpConn)) :
    Option (List Byte) → Prop
  | none => ∃ after, parsed = .ok (.badRequest, after) ∧ Kept conn after
  | some path => ∃ after target, parsed = .ok (.noRequest, after) ∧ Kept conn after ∧
      after.checkState = .header ∧ after.contentLength = conn.contentLength ∧
      (∀ index : Nat, limit ≤ index → after.readBuf[index]? = conn.readBuf[index]?) ∧
      after.url = some target ∧ StringAt after.readBuf target path ∧ target + path.length < limit

theorem Kept.trans {first second third : HttpConn} (before : Kept first second)
    (after : Kept second third) : Kept first third :=
  ⟨before.readBuf.trans after.readBuf, after.readIdx.trans before.readIdx,
    after.checkedIdx.trans before.checkedIdx, after.startLine.trans before.startLine,
    after.realFile.trans before.realFile⟩

theorem FindsTarget.after {conn before : HttpConn} {limit : Nat}
    {parsed : Outcome (HttpCode × HttpConn)} {found : Option (List Byte)}
    (finds : FindsTarget before limit parsed found) (kept : Kept conn before)
    (sameLength : before.contentLength = conn.contentLength)
    (beyond : ∀ index : Nat, limit ≤ index → before.readBuf[index]? = conn.readBuf[index]?) :
    FindsTarget conn limit parsed found := by
  cases found with
  | none =>
      rcases finds with ⟨after, parsedEq, later⟩
      exact ⟨after, parsedEq, kept.trans later⟩
  | some path =>
      rcases finds with ⟨after, target, parsedEq, later, state, length, same, url, stands, within⟩
      exact ⟨after, target, parsedEq, kept.trans later, state, length.trans sameLength,
        fun index outside => (same index outside).trans (beyond index outside), url, stands, within⟩

theorem skip_stands {buffer : List Byte} {index : Nat} {text : List Byte}
    (stands : StringAt buffer index text) :
    StringAt buffer (index + strspn text blanks) (skipBlanks text) :=
  stands.drop (strspn_le _ _)

/-- The end of the parsing: the path has to begin with a slash. -/
theorem slash_finds {conn : HttpConn} {limit target : Nat} {path : List Byte}
    (before : HttpConn) (kept : Kept conn before)
    (sameLength : before.contentLength = conn.contentLength)
    (beyond : ∀ index : Nat, limit ≤ index → before.readBuf[index]? = conn.readBuf[index]?)
    (url : before.url = some target) (stands : StringAt before.readBuf target path)
    (within : target + path.length < limit) :
    FindsTarget conn limit (do
        let first ← readAt before.readBuf target
        if first ≠ 47 then pure (.badRequest, before)
        else pure (.noRequest, { before with checkState := .header }))
      (if path.head? = some 47 then some path else none) := by
  rw [stands.readAt_eq, Outcome.ok_bind]
  by_cases slash : path.head? = some 47
  · have first : path.headD 0 = 47 := by
      rw [List.headD_eq_head?_getD, slash]
      rfl
    rw [if_pos slash, if_neg (not_not_intro first)]
    exact ⟨_, target, rfl, ⟨kept.readBuf, kept.readIdx, kept.checkedIdx, kept.startLine,
      kept.realFile⟩, rfl, sameLength, beyond, url, stands, within⟩
  · have notFirst : path.headD 0 ≠ 47 := by
      cases path with
      | nil => decide
      | cons first rest => exact fun equal => slash (congrArg some equal)
    rw [if_neg slash, if_pos notFirst]
    exact ⟨before, rfl, kept⟩

theorem parseTarget_eq {conn : HttpConn} {url : Nat} {rest : List Byte}
    (stands : StringAt conn.readBuf url rest) :
    FindsTarget conn (url + rest.length) (conn.parseTarget url)
      (acceptTarget (skipBlanks rest)) := by
  have skipped := skip_stands stands
  have skippedLength : (skipBlanks rest).length = rest.length - strspn rest blanks :=
    List.length_drop
  have spanned := strspn_le rest blanks
  rw [parseTarget, stands.cString_eq, Outcome.ok_bind]
  dsimp only
  rw [skipped.cString_eq, Outcome.ok_bind, acceptTarget, cutBlank]
  have limit : url + rest.length = url + strspn rest blanks + (skipBlanks rest).length := by omega
  rw [limit]
  generalize skipBlanks rest = text at skipped ⊢
  generalize url + strspn rest blanks = url at skipped ⊢
  cases found : strpbrk text blanks with
  | none => exact ⟨_, rfl, ⟨Zeroed.refl _, rfl, rfl, rfl, rfl⟩⟩
  | some offset =>
      have within := strpbrk_lt found
      have room := skipped.end_lt
      have behind := skipped.behind within
      rw [← Nat.add_assoc] at behind
      have version := skip_stands behind
      have target := skipped.cut within
      have targetLength : (text.take offset).length = offset :=
        List.length_take_of_le (Nat.le_of_lt within)
      have zeroed := zeroed_set conn.readBuf (url + offset)
      have beyond : ∀ index : Nat, url + text.length ≤ index →
          (conn.readBuf.set (url + offset) 0)[index]? = conn.readBuf[index]? :=
        fun index outside => List.getElem?_set_ne (by omega)
      dsimp only
      rw [writeAt_of_lt _ (by omega), Outcome.ok_bind, behind.cString_eq, Outcome.ok_bind,
        version.cString_eq, Outcome.ok_bind]
      simp only [Option.map_some, Option.bind_eq_bind, Option.bind_some]
      let parsed : HttpConn := { conn with
        readBuf := conn.readBuf.set (url + offset) 0
        version := some (url + offset + 1 + strspn (text.drop (offset + 1)) blanks) }
      cases same : sameText (skipBlanks (text.drop (offset + 1))) (ascii "HTTP/1.1") with
      | false => exact ⟨_, rfl, ⟨zeroed, rfl, rfl, rfl, rfl⟩⟩
      | true =>
          rw [if_neg (by simp), if_pos rfl, target.cString_eq, Outcome.ok_bind, localTarget]
          generalize text.take offset = targetText at target targetLength ⊢
          cases scheme : sameStart 7 targetText (ascii "http://") with
          | false =>
              rw [if_neg (by simp), if_neg (by simp)]
              exact slash_finds { parsed with url := some url } ⟨zeroed, rfl, rfl, rfl, rfl⟩ rfl
                beyond rfl target (by omega)
          | true =>
              rw [if_pos rfl, if_pos rfl]
              have long := le_length_of_sameStart scheme (by decide)
              cases slash : strchr (targetText.drop 7) 47 with
              | none => exact ⟨_, rfl, ⟨zeroed, rfl, rfl, rfl, rfl⟩⟩
              | some place =>
                  have placeLt := strchr_lt slash
                  rw [List.length_drop] at placeLt
                  have path := target.drop (show 7 + place ≤ targetText.length by omega)
                  rw [← Nat.add_assoc] at path
                  have ended : url + 7 + place + (targetText.drop (7 + place)).length <
                      url + text.length := by
                    rw [List.length_drop]
                    omega
                  exact slash_finds { parsed with url := some (url + 7 + place) }
                    ⟨zeroed, rfl, rfl, rfl, rfl⟩ rfl beyond rfl path ended

theorem parseRequestLine_eq {conn : HttpConn} {text : Nat} {line : List Byte}
    (stands : StringAt conn.readBuf text line) :
    FindsTarget conn (text + line.length) (conn.parseRequestLine text) (requestTarget line) := by
  rw [parseRequestLine, stands.cString_eq, Outcome.ok_bind, requestTarget, cutBlank]
  cases found : strpbrk line blanks with
  | none => exact ⟨_, rfl, ⟨Zeroed.refl _, rfl, rfl, rfl, rfl⟩⟩
  | some offset =>
      have within := strpbrk_lt found
      have room := stands.end_lt
      have behind := stands.behind within
      rw [← Nat.add_assoc] at behind
      have method := stands.cut within
      have zeroed := zeroed_set conn.readBuf (text + offset)
      have beyond : ∀ index : Nat, text + offset + 1 + (line.drop (offset + 1)).length ≤ index →
          (conn.readBuf.set (text + offset) 0)[index]? = conn.readBuf[index]? :=
        fun index outside => List.getElem?_set_ne (by omega)
      dsimp only
      rw [writeAt_of_lt _ (by omega), Outcome.ok_bind, method.cString_eq, Outcome.ok_bind]
      simp only [Option.map_some, Option.bind_eq_bind, Option.bind_some]
      have limit : text + line.length = text + offset + 1 + (line.drop (offset + 1)).length := by
        rw [List.length_drop]
        omega
      rw [limit]
      by_cases get : sameText (line.take offset) (ascii "GET") = true
      · rw [if_pos get, if_pos (Or.inl get)]
        exact (parseTarget_eq behind).after ⟨zeroed, rfl, rfl, rfl, rfl⟩ rfl beyond
      · rw [if_neg get]
        by_cases post : sameText (line.take offset) (ascii "POST") = true
        · rw [if_pos post, if_pos (Or.inr post)]
          exact (parseTarget_eq behind).after ⟨zeroed, rfl, rfl, rfl, rfl⟩ rfl beyond
        · rw [if_neg post, if_neg (by rw [not_or]; exact ⟨get, post⟩)]
          exact ⟨_, rfl, ⟨zeroed, rfl, rfl, rfl, rfl⟩⟩

/-! ## Header lines -/

/-- What a header line that is not empty does, by the length that it declares. -/
structure HeaderRead (conn after : HttpConn) (declared : Option Int) : Prop where
  kept : Kept conn after
  readBuf : after.readBuf = conn.readBuf
  url : after.url = conn.url
  contentLength : after.contentLength = declared.getD conn.contentLength
  checkState : after.checkState = if declared.isSome then .content else conn.checkState

theorem declaredLength_eq_none {line : List Byte}
    (other : sameStart 15 line (ascii "Content-Length:") = false) : declaredLength line = none := by
  rw [declaredLength, other]
  rfl

/-- A name that is followed by a zero is shorter than `Content-Length:`. -/
theorem declaredLength_connection {line : List Byte}
    (connection : sameStart 11 line (ascii "Connection") = true) : declaredLength line = none := by
  apply declaredLength_eq_none
  cases same : sameStart 15 line (ascii "Content-Length:") with
  | false => rfl
  | true =>
      have short := length_eq_of_sameStart connection (by decide)
      have long := le_length_of_sameStart same (by decide)
      rw [short] at long
      exact absurd long (by decide)

theorem parseHeaders_eq {conn : HttpConn} {text last : Nat} {line : List Byte}
    (stands : StringAt conn.readBuf text line) (within : text + line.length < last)
    (zero : conn.readBuf[last]? = some 0) (someText : line ≠ []) :
    ∃ after, conn.parseHeaders text = .ok (.noRequest, after) ∧
      HeaderRead conn after (declaredLength line) := by
  rw [parseHeaders, stands.cString_eq, Outcome.ok_bind, if_neg someText]
  cases connection : sameStart 11 line (ascii "Connection") with
  | true =>
      have length := length_eq_of_sameStart connection (by decide)
      have ten : (ascii "Connection").length = 10 := rfl
      rcases StringAt.exists_of_zero (show text + 11 ≤ last by omega) zero with ⟨rest, behind, _⟩
      rw [if_pos rfl, behind.cString_eq, Outcome.ok_bind, (skip_stands behind).cString_eq,
        Outcome.ok_bind, declaredLength_connection connection]
      cases sameText (skipBlanks rest) (ascii "keep-alive") with
      | true => exact ⟨_, rfl, ⟨Zeroed.refl _, rfl, rfl, rfl, rfl⟩, rfl, rfl, rfl, rfl⟩
      | false => exact ⟨_, rfl, Kept.refl conn, rfl, rfl, rfl, rfl⟩
  | false =>
      rw [if_neg (by simp)]
      cases contentLength : sameStart 15 line (ascii "Content-Length:") with
      | true =>
          have long := le_length_of_sameStart contentLength (by decide)
          have behind := stands.drop long
          rw [if_pos rfl, behind.cString_eq, Outcome.ok_bind, (skip_stands behind).cString_eq,
            Outcome.ok_bind, declaredLength, contentLength]
          exact ⟨_, rfl, ⟨Zeroed.refl _, rfl, rfl, rfl, rfl⟩, rfl, rfl, rfl, rfl⟩
      | false =>
          rw [if_neg (by simp), declaredLength_eq_none contentLength]
          cases host : sameStart 5 line (ascii "Host:") with
          | true =>
              have long := le_length_of_sameStart host (by decide)
              rw [if_pos rfl, (stands.drop long).cString_eq, Outcome.ok_bind]
              exact ⟨_, rfl, ⟨Zeroed.refl _, rfl, rfl, rfl, rfl⟩, rfl, rfl, rfl, rfl⟩
          | false => exact ⟨_, rfl, Kept.refl conn, rfl, rfl, rfl, rfl⟩

theorem parseHeaders_blank {conn : HttpConn} {text : Nat}
    (stands : StringAt conn.readBuf text []) (noBody : conn.contentLength = 0) :
    conn.parseHeaders text = .ok (.getRequest, conn) := by
  rw [parseHeaders, stands.cString_eq, Outcome.ok_bind, if_pos rfl, if_neg (not_not_intro noBody)]
  rfl

/-! ## The file -/

/-- `m_real_file` has its size, and its last byte has never been written to. -/
structure FileReady (conn : HttpConn) : Prop where
  length : conn.realFile.length = fileNameLen
  ends : conn.realFile[fileNameLen - 1]? = some 0

/-- What `do_request` leaves alone. -/
structure SameInput (conn after : HttpConn) : Prop where
  readBuf : after.readBuf = conn.readBuf
  readIdx : after.readIdx = conn.readIdx
  checkedIdx : after.checkedIdx = conn.checkedIdx
  startLine : after.startLine = conn.startLine
  checkState : after.checkState = conn.checkState
  url : after.url = conn.url

theorem overwritten_eq {realFile : List Byte} (length : realFile.length = fileNameLen)
    (ends : realFile[fileNameLen - 1]? = some 0) (target : List Byte) :
    overwrite (overwrite realFile 0 (docRoot ++ [0])) docRoot.length
        (strncpy target (fileNameLen - docRoot.length - 1)) =
      filePath target ++
        List.replicate (fileNameLen - docRoot.length - 1 - target.length + 1) 0 := by
  have lastByte : realFile.drop 199 = [0] := by
    have more : realFile.drop 200 = [] := List.drop_eq_nil_of_le (by rw [length]; decide)
    have found : realFile[199]? = some 0 := ends
    rcases List.getElem?_eq_some_iff.mp found with ⟨within, value⟩
    rw [List.drop_eq_getElem_cons within, more]
    exact congrArg (· :: []) value
  have copied : (strncpy target 198).length = 198 := by
    rw [strncpy, List.length_append, List.length_take, List.length_replicate]
    omega
  have tail : ((46 : Byte) :: 0 :: realFile.drop 2).drop (1 + (strncpy target 198).length) = [0] := by
    rw [copied, ← lastByte]
    simp only [List.drop_succ_cons, List.drop_drop, Nat.reduceAdd]
  show [46] ++ strncpy target 198 ++
    ((46 : Byte) :: 0 :: realFile.drop 2).drop (1 + (strncpy target 198).length) = _
  rw [tail, strncpy, List.append_assoc, List.append_assoc, ← List.replicate_succ']
  rfl

theorem doRequest_eq {conn : HttpConn} {url : Nat} {target : List Byte} (files : Files)
    (urlEq : conn.url = some url) (stands : StringAt conn.readBuf url target)
    (ready : FileReady conn) :
    ∃ after, conn.doRequest files = .ok (fileCode (files (filePath target)), after) ∧
      SameInput conn after ∧ FileReady after := by
  have overwritten := overwritten_eq ready.length ready.ends target
  have plain : (0 : Byte) ∉ filePath target := by
    intro member
    rcases List.mem_append.mp member with inRoot | inTarget
    · exact absurd inRoot (by decide)
    · exact stands.1 (List.mem_of_mem_take inTarget)
  have pathLength : (filePath target).length = 1 + min 198 target.length := by
    rw [filePath, List.length_append, List.length_take]
    rfl
  have zeros : fileNameLen - docRoot.length - 1 - target.length = 198 - target.length := rfl
  rw [zeros] at overwritten
  have written : ∀ after : HttpConn,
      after.realFile = filePath target ++ List.replicate (198 - target.length + 1) 0 →
        FileReady after := by
    intro after realFile
    refine ⟨?_, ?_⟩
    · rw [realFile, List.length_append, pathLength, List.length_replicate, fileNameLen]
      omega
    · rw [realFile, List.getElem?_append_right (by rw [pathLength, fileNameLen]; omega),
        pathLength, List.getElem?_replicate, if_pos (by rw [fileNameLen]; omega)]
  have path : StringAt (filePath target ++ List.replicate (198 - target.length + 1) 0) 0
      (filePath target) := ⟨plain, _, rfl⟩
  rw [doRequest, urlEq]
  dsimp only
  rw [stands.cString_eq, Outcome.ok_bind, overwritten, path.cString_eq, Outcome.ok_bind]
  cases files (filePath target) with
  | none => exact ⟨_, rfl, ⟨rfl, rfl, rfl, rfl, rfl, urlEq.symm⟩, written _ rfl⟩
  | some stat =>
      dsimp only [fileCode]
      split
      · exact ⟨_, rfl, ⟨rfl, rfl, rfl, rfl, rfl, urlEq.symm⟩, written _ rfl⟩
      · split
        · exact ⟨_, rfl, ⟨rfl, rfl, rfl, rfl, rfl, urlEq.symm⟩, written _ rfl⟩
        · exact ⟨_, rfl, ⟨rfl, rfl, rfl, rfl, rfl, urlEq.symm⟩, written _ rfl⟩

end HttpConn

end DataStructAlgorithm.HTTPD2
