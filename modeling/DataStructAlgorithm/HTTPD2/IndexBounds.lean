import DataStructAlgorithm.Foundation.Transition
import DataStructAlgorithm.HTTPD2.Fields

/-! # Indices of the read buffer

A store outside the buffer is a fault, and so is a sum out of the range of `int`. The
calls for a connection that has received something return as long as the length that
the client declares fits whenever `parse_content` is called. -/

namespace DataStructAlgorithm.HTTPD2.HttpConn

open Foundation

/-- The declared length lies neither in front of the buffer nor beyond `INT_MAX`, and
does not end exactly where a full buffer ends. -/
def ContentFits (conn : HttpConn) (text : Nat) : Prop :=
  -(text : Int) ≤ conn.contentLength ∧ conn.contentLength + conn.checkedIdx < 2 ^ 31 ∧
    ¬(text = conn.checkedIdx ∧ conn.readIdx = readBufferSize ∧
      text + conn.contentLength = readBufferSize)

instance (conn : HttpConn) (text : Nat) : Decidable (ContentFits conn text) :=
  inferInstanceAs (Decidable (_ ∧ _))

/-- If `parse_content` is called in a pass that begins in this state, the length fits. -/
def PassFits (reading : Reading) : Prop :=
  ∀ after, nextLine reading = .ok after → after.lineStatus = .ok →
    after.conn.checkState = .content → ContentFits after.conn after.conn.startLine

instance : DecidablePred PassFits := fun reading =>
  match found : nextLine reading with
  | .ok after =>
      decidable_of_iff (after.lineStatus = .ok → after.conn.checkState = .content →
          ContentFits after.conn after.conn.startLine)
        ⟨fun fits other otherFound => by
          rw [found] at otherFound
          cases otherFound
          exact fits, fun fits => fits after found⟩
  | .error fault => isTrue fun other otherFound => by
      rw [found] at otherFound
      cases otherFound

/-- What the client, the files and the machine do for one event of the socket. -/
structure Readable where
  outcomes : List Recv
  files : Files
  undefinedCode : HttpConn → HttpCode

/-- What the server does for such an event. The buffer is read again only after `init`
if a response has been sent or the connection has been closed. -/
def serve (conn : HttpConn) (event : Readable) : Outcome HttpConn := do
  let (readable, conn) ← conn.read event.outcomes
  if readable then do
    let (code, conn) ← conn.processRead event.files event.undefinedCode
    if code = .noRequest then pure conn else pure conn.init
  else pure conn.init

/-- The length fits in all calls of `parse_content` for an event. -/
def EventFits (conn : HttpConn) (event : Readable) : Prop :=
  ∀ after, conn.read event.outcomes = .ok (true, after) →
    EveryPass (readPass event.files event.undefinedCode) PassFits
      (after.readIdx - after.checkedIdx + 2) ⟨after, .ok⟩

instance (conn : HttpConn) (event : Readable) : Decidable (EventFits conn event) :=
  match readEq : conn.read event.outcomes with
  | .ok (true, after) =>
      decidable_of_iff (EveryPass (readPass event.files event.undefinedCode) PassFits
          (after.readIdx - after.checkedIdx + 2) ⟨after, .ok⟩)
        ⟨fun fits other otherEq => by
          rw [readEq] at otherEq
          cases otherEq
          exact fits, fun fits => fits after readEq⟩
  | .ok (false, after) => isTrue fun other otherEq => by
      rw [readEq] at otherEq
      cases otherEq
  | .error fault => isTrue fun other otherEq => by
      rw [readEq] at otherEq
      cases otherEq

/-! ## The invariant -/

/-- Behind the request line there is a target that ends in front of the next line. -/
def Targeted (conn : HttpConn) : Prop :=
  ∃ url last, conn.url = some url ∧ url ≤ last ∧ last < conn.checkedIdx ∧
    conn.readBuf[last]? = some 0

structure Sound (conn : HttpConn) : Prop where
  positioned : Positioned conn
  ready : FileReady conn
  targeted : conn.checkState ≠ .requestLine → Targeted conn

theorem init_sound (conn : HttpConn) : Sound conn.init where
  positioned := init_positioned conn
  ready := ⟨List.length_replicate, rfl⟩
  targeted := fun notFirst => absurd rfl notFirst

/-- What does not touch the target or its end keeps the invariant. -/
theorem Sound.transfer {conn after : HttpConn} (sound : Sound conn) (positioned : Positioned after)
    (realFile : after.realFile = conn.realFile) (url : after.url = conn.url)
    (state : after.checkState ≠ .requestLine → conn.checkState ≠ .requestLine)
    (checkedLe : conn.checkedIdx ≤ after.checkedIdx)
    (zeros : ∀ index : Nat, index < conn.checkedIdx → conn.readBuf[index]? = some 0 →
      after.readBuf[index]? = some 0) : Sound after where
  positioned := positioned
  ready := by
    refine ⟨?_, ?_⟩
    · rw [realFile]
      exact sound.ready.length
    · rw [realFile]
      exact sound.ready.ends
  targeted := by
    intro notFirst
    rcases sound.targeted (state notFirst) with ⟨place, last, urlEq, within, lastLt, zero⟩
    exact ⟨place, last, url.trans urlEq, within, by omega, zeros last lastLt zero⟩

/-- `parse_content` returns exactly if the length fits. -/
theorem parseContent_ok_iff {conn : HttpConn} (positioned : Positioned conn) {text : Nat}
    (within : text ≤ conn.checkedIdx) (undefinedCode : HttpCode) :
    (∃ result, conn.parseContent text undefinedCode = .ok result) ↔ ContentFits conn text := by
  have bufferLength := positioned.bufferLength
  have readLe := positioned.read_le
  have checkedLe := positioned.checked_le
  unfold readBufferSize at bufferLength readLe
  rw [parseContent, addInt, ContentFits, readBufferSize]
  by_cases inRange : -2 ^ 31 ≤ conn.contentLength + conn.checkedIdx ∧
      conn.contentLength + conn.checkedIdx < 2 ^ 31
  · rw [if_pos inRange, Outcome.ok_bind]
    by_cases complete : conn.contentLength + conn.checkedIdx ≤ conn.readIdx
    · rw [if_pos complete, storeAt]
      by_cases behind : 0 ≤ (text : Int) + conn.contentLength
      · rw [if_pos behind, writeAt]
        by_cases inBuffer : ((text : Int) + conn.contentLength).toNat < conn.readBuf.length
        · rw [if_pos inBuffer]
          refine ⟨fun _ => by omega, fun _ => ⟨_, rfl⟩⟩
        · rw [if_neg inBuffer]
          refine ⟨fun returned => ?_, fun fits => ?_⟩
          · rcases returned with ⟨result, returned⟩
            cases returned
          · omega
      · rw [if_neg behind]
        refine ⟨fun returned => ?_, fun fits => by omega⟩
        rcases returned with ⟨result, returned⟩
        cases returned
    · rw [if_neg complete]
      exact ⟨fun _ => by omega, fun _ => ⟨_, rfl⟩⟩
  · rw [if_neg inRange]
    refine ⟨fun returned => ?_, fun fits => by omega⟩
    rcases returned with ⟨result, returned⟩
    cases returned

/-! ## One pass -/

/-- What the search for a line leaves behind, if it has found one. -/
structure LineFound (conn after : HttpConn) : Prop where
  sound : Sound after
  state : after.checkState = conn.checkState
  further : conn.checkedIdx + 2 ≤ after.checkedIdx
  start : after.startLine + 2 ≤ after.checkedIdx
  readIdx : after.readIdx = conn.readIdx
  firstZero : after.readBuf[after.checkedIdx - 2]? = some 0
  secondZero : after.readBuf[after.checkedIdx - 1]? = some 0

theorem parseLine_sound {conn : HttpConn} (sound : Sound conn) :
    ∃ status after, conn.parseLine = .ok (status, after) ∧ Sound after ∧
      (status = .ok → LineFound conn after) := by
  have positioned := sound.positioned
  have describes := scan_describes conn.unread
  rw [parseLine_eq positioned]
  have checked : ∀ {content rest : List Byte}, Unbroken content →
      conn.unread = content ++ rest → Sound (conn.check content.length) := by
    intro content rest unbroken unreadEq
    exact sound.transfer (positioned.check_unbroken unbroken unreadEq) rfl rfl id
      (Nat.le_add_right ..) fun _ _ zero => zero
  cases scanned : scan conn.unread with
  | line content rest =>
      rw [scanned] at describes
      have ended := lineEnded positioned describes.2
      have startLe := positioned.start_le
      have after : Sound (conn.endLine content.length) := by
        apply sound.transfer ended.positioned rfl rfl id
        · rw [ended.checkedIdx]
          omega
        · exact fun index _ zero => ended.zeroed.zero zero
      refine ⟨.ok, _, rfl, after, fun _ => ⟨after, rfl, ?_, ?_, rfl, ?_, ?_⟩⟩
      · rw [ended.checkedIdx]
        omega
      · rw [ended.checkedIdx]
        dsimp only [endLine]
        omega
      · rw [ended.checkedIdx]
        exact ended.firstZero
      · rw [ended.checkedIdx]
        exact ended.secondZero
  | «open» content =>
      rw [scanned] at describes
      rcases describes with ⟨unbroken, same | same⟩
      · have whole := same.trans (List.append_nil content).symm
        exact ⟨.open, _, rfl, checked unbroken whole, nofun⟩
      · exact ⟨.open, _, rfl, checked unbroken same, nofun⟩
  | bad content =>
      rw [scanned] at describes
      rcases describes with ⟨unbroken, rest, unreadEq, _⟩
      exact ⟨.bad, _, rfl, checked unbroken unreadEq, nofun⟩

theorem Sound.startNext {conn : HttpConn} (sound : Sound conn) : Sound conn.startNext where
  positioned := sound.positioned.startNext
  ready := ⟨sound.ready.length, sound.ready.ends⟩
  targeted := sound.targeted

/-- How a pass goes on: with the invariant, or out of the loop. -/
def Continues (conn : HttpConn) : Outcome (Pass Reading (HttpCode × HttpConn)) → Prop
  | .error _ => False
  | .ok (.again next) => Sound next.conn ∧ next.conn.readIdx = conn.readIdx ∧
      next.conn.checkedIdx = conn.checkedIdx ∧
      (next.conn.checkState = .content → next.lineStatus ≠ .ok)
  | .ok (.leave (code, after)) => code = .noRequest → Sound after

theorem Continues.split {conn : HttpConn} {handled : Outcome (Pass Reading (HttpCode × HttpConn))}
    (continues : Continues conn handled) :
    (∃ next, handled = .ok (.again next) ∧ Sound next.conn ∧
      next.conn.readIdx = conn.readIdx ∧ next.conn.checkedIdx = conn.checkedIdx ∧
      (next.conn.checkState = .content → next.lineStatus ≠ .ok)) ∨
    ∃ result, handled = .ok (.leave result) ∧ (result.1 = .noRequest → Sound result.2) := by
  match handled, continues with
  | .ok (.again next), continues => exact Or.inl ⟨next, rfl, continues⟩
  | .ok (.leave result), continues => exact Or.inr ⟨result, rfl, continues⟩

theorem doRequest_continues {conn : HttpConn} (sound : Sound conn) (files : Files)
    (notFirst : conn.checkState ≠ .requestLine) (before : HttpConn) :
    Continues before (do
      let result ← conn.doRequest files
      pure (.leave result)) := by
  rcases sound.targeted notFirst with ⟨url, last, urlEq, within, lastLt, zero⟩
  rcases StringAt.exists_of_zero within zero with ⟨target, stands, _⟩
  rcases doRequest_eq files urlEq stands sound.ready with ⟨after, requested, same, ready⟩
  rw [requested]
  intro _
  have positioned := sound.positioned
  refine ⟨⟨?_, ?_, ?_, ?_, ?_⟩, ready, fun _ => ⟨url, last, same.url.trans urlEq, within, ?_, ?_⟩⟩
  · rw [same.readBuf]
    exact positioned.bufferLength
  · rw [same.readIdx]
    exact positioned.read_le
  · rw [same.readIdx, same.checkedIdx]
    exact positioned.checked_le
  · rw [same.startLine, same.checkedIdx]
    exact positioned.start_le
  · rw [same.readBuf, same.checkedIdx]
    exact positioned.behind
  · rw [same.checkedIdx]
    exact lastLt
  · rw [same.readBuf]
    exact zero

/-- What the parsers of a line keep. -/
theorem Sound.kept {conn after : HttpConn} (sound : Sound conn) (kept : Kept conn after)
    (url : after.url = conn.url)
    (state : after.checkState ≠ .requestLine → conn.checkState ≠ .requestLine) : Sound after :=
  sound.transfer (kept.positioned sound.positioned) kept.realFile url state
    (Nat.le_of_eq kept.checkedIdx.symm) fun _ _ zero => kept.readBuf.zero zero

section HandleLine

variable {conn : HttpConn} {text : Nat} (sound : Sound conn) (files : Files)
  (undefinedCode : HttpConn → HttpCode)

include sound

theorem handleRequestLine (state : conn.checkState = .requestLine)
    (within : text + 2 ≤ conn.checkedIdx) (zero : conn.readBuf[conn.checkedIdx - 2]? = some 0) :
    Continues conn (handleLine files undefinedCode conn text) := by
  rcases StringAt.exists_of_zero (show text ≤ conn.checkedIdx - 2 by omega) zero with
    ⟨line, stands, lineEnd⟩
  have finds := parseRequestLine_eq stands
  rw [handleLine, state]
  cases found : requestTarget line with
  | none =>
      rw [found] at finds
      rcases finds with ⟨after, parsed, kept⟩
      rw [parsed]
      exact nofun
  | some path =>
      rw [found] at finds
      rcases finds with ⟨after, target, parsed, kept, header, _, _, url, pathStands, pathEnd⟩
      rw [parsed]
      refine ⟨⟨kept.positioned sound.positioned, ?_, fun _ => ?_⟩, kept.readIdx, kept.checkedIdx,
        fun content => ?_⟩
      · refine ⟨?_, ?_⟩
        · rw [kept.realFile]
          exact sound.ready.length
        · rw [kept.realFile]
          exact sound.ready.ends
      · refine ⟨target, _, url, Nat.le_add_right .., ?_, pathStands.zero_behind⟩
        rw [kept.checkedIdx]
        omega
      · rw [header] at content
        cases content

theorem handleHeader (state : conn.checkState = .header) (within : text + 2 ≤ conn.checkedIdx)
    (firstZero : conn.readBuf[conn.checkedIdx - 2]? = some 0)
    (secondZero : conn.readBuf[conn.checkedIdx - 1]? = some 0) :
    Continues conn (handleLine files undefinedCode conn text) := by
  rcases StringAt.exists_of_zero (show text ≤ conn.checkedIdx - 2 by omega) firstZero with
    ⟨line, stands, lineEnd⟩
  have notFirst : conn.checkState ≠ .requestLine := by
    rw [state]
    decide
  rw [handleLine, state]
  cases line with
  | nil =>
      by_cases noBody : conn.contentLength = 0
      · rw [parseHeaders_blank stands noBody]
        exact doRequest_continues sound files notFirst conn
      · have parsed : conn.parseHeaders text =
            .ok (.noRequest, { conn with checkState := .content }) := by
          rw [parseHeaders, stands.cString_eq, Outcome.ok_bind, if_pos rfl, if_pos noBody]
          rfl
        rw [parsed]
        exact ⟨sound.kept ⟨Zeroed.refl _, rfl, rfl, rfl, rfl⟩ rfl fun _ => notFirst, rfl, rfl,
          fun _ equal => (by cases equal)⟩
  | cons first rest =>
      rcases parseHeaders_eq stands (show text + (first :: rest).length < conn.checkedIdx - 1 by
        omega) secondZero (List.cons_ne_nil _ _) with ⟨after, parsed, read⟩
      rw [parsed]
      exact ⟨sound.kept read.kept read.url fun _ => notFirst, read.kept.readIdx,
        read.kept.checkedIdx, fun _ equal => (by cases equal)⟩

theorem handleContent (state : conn.checkState = .content) (within : text ≤ conn.checkedIdx)
    (fits : ContentFits conn text) :
    Continues conn (handleLine files undefinedCode conn text) := by
  rcases (parseContent_ok_iff sound.positioned within (undefinedCode conn)).mpr fits with
    ⟨⟨code, after⟩, parsed⟩
  have notFirst : conn.checkState ≠ .requestLine := by
    rw [state]
    decide
  have same : Kept conn after ∧ after.checkState = conn.checkState ∧ after.url = conn.url := by
    rw [parseContent] at parsed
    rcases Outcome.bind_eq_ok parsed with ⟨needed, _, parsed⟩
    split at parsed
    · rcases Outcome.bind_eq_ok parsed with ⟨buffer, stored, parsed⟩
      cases parsed
      rw [storeAt, writeAt] at stored
      split at stored
      · split at stored
        · cases stored
          exact ⟨⟨zeroed_set _ _, rfl, rfl, rfl, rfl⟩, rfl, rfl⟩
        · cases stored
      · cases stored
    · cases parsed
      exact ⟨Kept.refl conn, rfl, rfl⟩
  rcases same with ⟨kept, sameState, url⟩
  have afterSound := sound.kept kept url fun _ => notFirst
  rw [handleLine, state, parsed, Outcome.ok_bind]
  by_cases complete : code = .getRequest
  · dsimp only
    rw [if_pos complete]
    exact doRequest_continues afterSound files (by rw [sameState]; exact notFirst) conn
  · dsimp only
    rw [if_neg complete]
    exact ⟨afterSound, kept.readIdx, kept.checkedIdx, fun _ equal => (by cases equal)⟩

end HandleLine

/-! ## Whole calls -/

/-- A bound on the passes that are left. -/
def passesLeft (reading : Reading) : Nat :=
  reading.conn.readIdx - reading.conn.checkedIdx +
    if reading.conn.checkState = .content ∧ reading.lineStatus = .ok then 1 else 0

theorem passesLeft_le (reading : Reading) :
    passesLeft reading ≤ reading.conn.readIdx - reading.conn.checkedIdx + 1 := by
  unfold passesLeft
  split <;> omega

theorem readPass_sound (files : Files) (undefinedCode : HttpConn → HttpCode) {reading : Reading}
    (sound : Sound reading.conn) (fits : PassFits reading) :
    (∃ next, readPass files undefinedCode reading = .ok (.again next) ∧
      passesLeft next < passesLeft reading ∧ Sound next.conn) ∨
    ∃ result, readPass files undefinedCode reading = .ok (.leave result) ∧
      (result.1 = .noRequest → Sound result.2) := by
  by_cases inBody : reading.conn.checkState = .content ∧ reading.lineStatus = .ok
  · have found : nextLine reading = .ok reading := if_pos inBody
    have handled := handleContent sound.startNext files undefinedCode inBody.1
      sound.positioned.start_le (fits reading found inBody.2 inBody.1)
    have passEq : readPass files undefinedCode reading =
        handleLine files undefinedCode reading.conn.startNext reading.conn.startLine := by
      rw [readPass, found, Outcome.ok_bind, if_neg (not_not_intro inBody.2)]
      rfl
    rw [passEq]
    rcases handled.split with ⟨next, passed, nextSound, readIdx, checkedIdx, later⟩ | left
    · refine Or.inl ⟨next, passed, ?_, nextSound⟩
      have last : ¬(next.conn.checkState = .content ∧ next.lineStatus = .ok) :=
        fun both => later both.1 both.2
      rw [passesLeft, passesLeft, if_neg last, if_pos inBody, readIdx, checkedIdx]
      exact Nat.lt_succ_self _
    · exact Or.inr left
  · rcases parseLine_sound sound with ⟨status, after, parsed, afterSound, lineFound⟩
    have found : nextLine reading = .ok ⟨after, status⟩ := by
      rw [nextLine, if_neg inBody, parsed]
      rfl
    by_cases ended : status = .ok
    · have line := lineFound ended
      have passEq : readPass files undefinedCode reading =
          handleLine files undefinedCode after.startNext after.startLine := by
        rw [readPass, found, Outcome.ok_bind, if_neg (not_not_intro ended)]
        rfl
      have handled : Continues after.startNext
          (handleLine files undefinedCode after.startNext after.startLine) := by
        cases state : after.checkState with
        | requestLine =>
            exact handleRequestLine afterSound.startNext files undefinedCode state line.start
              line.firstZero
        | header =>
            exact handleHeader afterSound.startNext files undefinedCode state line.start
              line.firstZero line.secondZero
        | content =>
            exact handleContent afterSound.startNext files undefinedCode state
              afterSound.positioned.start_le (fits _ found ended state)
      rw [passEq]
      rcases handled.split with ⟨next, passed, nextSound, readIdx, checkedIdx, later⟩ | left
      · refine Or.inl ⟨next, passed, ?_, nextSound⟩
        have last : ¬(next.conn.checkState = .content ∧ next.lineStatus = .ok) :=
          fun both => later both.1 both.2
        have checkedLe := afterSound.positioned.checked_le
        have further := line.further
        rw [passesLeft, passesLeft, if_neg last, if_neg inBody, readIdx, checkedIdx]
        have sameRead : after.startNext.readIdx = reading.conn.readIdx := line.readIdx
        have sameChecked : after.startNext.checkedIdx = after.checkedIdx := rfl
        have readIdxEq := line.readIdx
        omega
      · exact Or.inr left
    · refine Or.inr ⟨(.noRequest, after), ?_, fun _ => afterSound⟩
      rw [readPass, found, Outcome.ok_bind, if_pos ended]
      rfl

theorem processRead_sound (files : Files) (undefinedCode : HttpConn → HttpCode) {conn : HttpConn}
    (sound : Sound conn)
    (fits : EveryPass (readPass files undefinedCode) PassFits
      (conn.readIdx - conn.checkedIdx + 2) ⟨conn, .ok⟩) :
    ∃ result, conn.processRead files undefinedCode = .ok result ∧
      (result.1 = .noRequest → Sound result.2) := by
  let start : Reading := ⟨conn, .ok⟩
  have kept : Sound start.conn ∧ passesLeft start = passesLeft start := ⟨sound, rfl⟩
  apply repeatLoop_total_every PassFits
    (fun bound reading => Sound reading.conn ∧ passesLeft reading = bound)
    (fun result => result.1 = .noRequest → Sound result.2) _ _ (passesLeft start) start kept _ fits
  · intro bound reading ⟨readingSound, bounded⟩ passFits
    subst bounded
    rcases readPass_sound files undefinedCode readingSound passFits with
      ⟨next, pass, less, nextSound⟩ | ⟨result, pass, done⟩
    · exact Or.inl ⟨next, _, pass, less, nextSound, rfl⟩
    · exact Or.inr ⟨result, pass, done⟩
  · exact Nat.lt_succ_of_le (passesLeft_le start)

theorem receive_sound {conn : HttpConn} (sound : Sound conn) {bytes : List Byte}
    (room : conn.readIdx + bytes.length ≤ readBufferSize) :
    ∃ after, conn.receive bytes = .ok after ∧ Sound after := by
  have checkedLe := sound.positioned.checked_le
  rcases sound.positioned.receive room with ⟨readBuf, received, positioned, _, early⟩
  refine ⟨_, received, sound.transfer positioned rfl rfl id (Nat.le_refl _) ?_⟩
  intro index before zero
  rw [← zero]
  exact early index (by omega)

theorem readLoop_sound (outcomes : List Recv) {conn : HttpConn} (sound : Sound conn) :
    ∃ readable after, conn.readLoop outcomes = .ok (readable, after) ∧ Sound after := by
  induction outcomes generalizing conn with
  | nil => exact ⟨true, conn, rfl, sound⟩
  | cons outcome rest induction =>
      cases outcome with
      | failed => exact ⟨false, conn, rfl, sound⟩
      | received bytes =>
          rw [readLoop]
          split
          · exact ⟨false, conn, rfl, sound⟩
          · have readLe := sound.positioned.read_le
            rcases receive_sound sound (show conn.readIdx +
                (bytes.take (readBufferSize - conn.readIdx)).length ≤ readBufferSize by
              rw [List.length_take]; omega) with ⟨after, received, afterSound⟩
            rw [received, Outcome.ok_bind]
            exact induction afterSound

theorem read_sound (outcomes : List Recv) {conn : HttpConn} (sound : Sound conn) :
    ∃ readable after, conn.read outcomes = .ok (readable, after) ∧ Sound after := by
  rw [read]
  split
  · exact ⟨false, conn, rfl, sound⟩
  · exact readLoop_sound outcomes sound

/-- As long as the declared length fits whenever `parse_content` is called, no index
of a store leaves the buffer and no sum leaves the range of `int`. -/
theorem serve_sound {conn : HttpConn} (sound : Sound conn) {event : Readable}
    (fits : EventFits conn event) : ∃ after, conn.serve event = .ok after ∧ Sound after := by
  rcases read_sound event.outcomes sound with ⟨readable, after, readEq, afterSound⟩
  rw [serve, readEq, Outcome.ok_bind]
  cases readable with
  | false => exact ⟨_, rfl, init_sound after⟩
  | true =>
      rcases processRead_sound event.files event.undefinedCode afterSound (fits after readEq) with
        ⟨⟨code, final⟩, processed, finalSound⟩
      dsimp only
      rw [if_pos rfl, processed, Outcome.ok_bind]
      dsimp only
      split
      · rename_i waiting
        exact ⟨_, rfl, finalSound waiting⟩
      · exact ⟨_, rfl, init_sound final⟩

theorem run_in_bounds (conn : HttpConn) (events : List Readable)
    (fits : EveryStep serve EventFits conn.init events) :
    ∃ after, runAll serve conn.init events = .ok after ∧
      after.readBuf.length = readBufferSize := by
  rcases runAll_total Sound (fun _ _ sound eventFits => serve_sound sound eventFits) events
      conn.init (init_sound conn) fits with ⟨after, ran, sound⟩
  exact ⟨after, ran, sound.positioned.bufferLength⟩

/-- No file exists, and `parse_content` without a value counts as unfinished. -/
def sends (text : String) : Readable := ⟨[.received (ascii text)], fun _ => none, fun _ => .noRequest⟩

/-- A request with a body that comes in two pieces. -/
theorem run_in_bounds_pieces :
    ∃ after, runAll serve fresh.init [sends "POST /form HTTP/1.1\r\nContent-Length: 5\r\n\r\nab",
      sends "cde"] = .ok after ∧ after.readBuf.length = readBufferSize :=
  run_in_bounds fresh _ (by decide +kernel)

/-- The length -100 makes `parse_content` store a zero in front of the buffer. -/
theorem run_out_of_bounds :
    runAll serve fresh.init
      [sends "POST /form HTTP/1.1\r\nContent-Length: -100\r\n\r\n"] = .error .outOfRange := by
  decide +kernel

end DataStructAlgorithm.HTTPD2.HttpConn
