import DataStructAlgorithm.Foundation.Simulation
import DataStructAlgorithm.HTTPD2.EventLoop
import DataStructAlgorithm.HTTPD2.Processing
import DataStructAlgorithm.HTTPD2.Write

/-! # Connections that are used again

An element of `users` serves one client after the other. `init` does not touch the pointer to the
mapped file, the status of the file and `m_iv`: what the next client is sent does not depend on
them. -/

namespace DataStructAlgorithm.HTTPD2

open Foundation

/-- What is left of an earlier client. -/
structure Leftover where
  fileAddress : Option (List Byte)
  fileSize : Nat
  iv : List IoVec

/-- What happens to a socket that is watched: `recv` gives some pieces, or `writev` is called. -/
inductive SocketEvent
  | readable (pieces : List (List Byte)) (files : Files) (undefinedCode : HttpConn → HttpCode)
  | writable (outcomes : List Writev)

/-- What can be seen of an event, where a fault ends the session. -/
inductive Observation
  | ended (ending : Ending) (sent : List Byte)
  | faulted (fault : Fault)
  deriving DecidableEq

/-- A connection and what its socket is watched for, if it is open. -/
structure Session where
  conn : HttpConn
  watched : Option Interest

def Ending.watched : Ending → Option Interest
  | .waits => some .input
  | .answers => some .output
  | .closes => none

/-- What becomes of the connection after `write`. -/
def WriteCall.ending (call : WriteCall) : Ending :=
  match call.ended, call.returned with
  | .waiting, _ => .answers
  | .finished, true => .waits
  | .finished, false => .closes
  | .failed, _ => .closes

namespace HttpConn

def withLeft (conn : HttpConn) (left : Leftover) : HttpConn :=
  { conn with fileAddress := left.fileAddress, fileSize := left.fileSize, iv := left.iv }

/-- The connection with nothing left. -/
def bare (conn : HttpConn) : HttpConn := conn.withLeft ⟨none, 0, []⟩

end HttpConn

namespace Session

/-- A client has been accepted. -/
def start (conn : HttpConn) : Session := ⟨conn.init, some .input⟩

/-- An event of the socket. A value that is not defined is taken to depend on the rest of the
connection only. -/
def step (session : Session) : SocketEvent → Option (Session × Observation)
  | .readable pieces files undefinedCode =>
      if session.watched = some .input then
        match session.conn.arrive files (fun conn => undefinedCode conn.bare) pieces with
        | .ok (ending, conn) => some (⟨conn, ending.watched⟩, .ended ending [])
        | .error fault => some (⟨session.conn, none⟩, .faulted fault)
      else none
  | .writable outcomes =>
      if session.watched = some .output then
        (session.conn.write outcomes).map fun call =>
          (⟨call.conn, call.ending.watched⟩, .ended call.ending call.sent)
      else none

end Session

namespace HttpConn

/-! ## Reading -/

/-- Nothing has been written yet, and the connections differ at most in what is left. -/
def Blank (conn other : HttpConn) : Prop := conn.writeIdx = 0 ∧ ∃ left, other = conn.withLeft left

theorem blank_init (conn other : HttpConn) : Blank conn.init other.init :=
  ⟨rfl, ⟨other.fileAddress, other.fileSize, other.iv⟩, rfl⟩

def SameCode (result other : HttpCode × HttpConn) : Prop :=
  result.1 = other.1 ∧ Blank result.2 other.2

section Parsers

variable {conn other : HttpConn} (blank : Blank conn other)

include blank

theorem parseTarget_related (url : Nat) :
    Outcome.Related SameCode (conn.parseTarget url) (other.parseTarget url) := by
  rcases blank with ⟨zero, left, rfl⟩
  rw [parseTarget, parseTarget]
  refine .after _ fun rest => ?_
  refine .after _ fun text => ?_
  split
  · exact ⟨rfl, zero, left, rfl⟩
  · refine .after _ fun readBuf => ?_
    refine .after _ fun versionRest => ?_
    refine .after _ fun version => ?_
    split
    · exact ⟨rfl, zero, left, rfl⟩
    · refine .after _ fun urlText => ?_
      dsimp only
      split
      · exact ⟨rfl, zero, left, rfl⟩
      · refine .after _ fun first => ?_
        split
        · exact ⟨rfl, zero, left, rfl⟩
        · exact ⟨rfl, zero, left, rfl⟩

theorem parseRequestLine_related (text : Nat) :
    Outcome.Related SameCode (conn.parseRequestLine text) (other.parseRequestLine text) := by
  rcases blank with ⟨zero, left, rfl⟩
  rw [parseRequestLine, parseRequestLine]
  refine .after _ fun line => ?_
  split
  · exact ⟨rfl, zero, left, rfl⟩
  · refine .after _ fun readBuf => ?_
    refine .after _ fun method => ?_
    split
    · refine parseTarget_related ?_ _
      exact ⟨zero, left, rfl⟩
    · split
      · refine parseTarget_related ?_ _
        exact ⟨zero, left, rfl⟩
      · exact ⟨rfl, zero, left, rfl⟩

theorem parseHeaders_related (text : Nat) :
    Outcome.Related SameCode (conn.parseHeaders text) (other.parseHeaders text) := by
  rcases blank with ⟨zero, left, rfl⟩
  rw [parseHeaders, parseHeaders]
  refine .after _ fun line => ?_
  rw [show (conn.withLeft left).contentLength = conn.contentLength from rfl]
  split
  · split
    · exact ⟨rfl, zero, left, rfl⟩
    · exact ⟨rfl, zero, left, rfl⟩
  · split
    · refine .after _ fun rest => ?_
      refine .after _ fun value => ?_
      split
      · exact ⟨rfl, zero, left, rfl⟩
      · exact ⟨rfl, zero, left, rfl⟩
    · split
      · refine .after _ fun rest => ?_
        refine .after _ fun value => ?_
        exact ⟨rfl, zero, left, rfl⟩
      · split
        · refine .after _ fun rest => ?_
          exact ⟨rfl, zero, left, rfl⟩
        · exact ⟨rfl, zero, left, rfl⟩

theorem parseContent_related (text : Nat) (code : HttpCode) :
    Outcome.Related SameCode (conn.parseContent text code) (other.parseContent text code) := by
  rcases blank with ⟨zero, left, rfl⟩
  rw [parseContent, parseContent]
  refine .after _ fun needed => ?_
  rw [show (conn.withLeft left).readIdx = conn.readIdx from rfl]
  split
  · refine .after _ fun readBuf => ?_
    exact ⟨rfl, zero, left, rfl⟩
  · exact ⟨rfl, zero, left, rfl⟩

omit blank in
theorem parseLineLoop_related (remaining : Nat) {conn other : HttpConn} (blank : Blank conn other) :
    Outcome.Related (fun result after => result.1 = after.1 ∧ Blank result.2 after.2)
      (parseLineLoop remaining conn) (parseLineLoop remaining other) := by
  induction remaining generalizing conn other with
  | zero => exact ⟨rfl, blank⟩
  | succ remaining induction =>
      rcases blank with ⟨zero, left, rfl⟩
      rw [parseLineLoop, parseLineLoop]
      refine .after _ fun temp => ?_
      rw [show (conn.withLeft left).checkedIdx = conn.checkedIdx from rfl,
        show (conn.withLeft left).readIdx = conn.readIdx from rfl]
      split
      · split
        · exact ⟨rfl, zero, left, rfl⟩
        · refine .after _ fun next => ?_
          split
          · refine .after _ fun first => ?_
            refine .after _ fun second => ?_
            exact ⟨rfl, zero, left, rfl⟩
          · exact ⟨rfl, zero, left, rfl⟩
      · split
        · split
          · refine .after _ fun previous => ?_
            split
            · refine .after _ fun first => ?_
              refine .after _ fun second => ?_
              exact ⟨rfl, zero, left, rfl⟩
            · exact ⟨rfl, zero, left, rfl⟩
          · exact ⟨rfl, zero, left, rfl⟩
        · refine induction ?_
          exact ⟨zero, left, rfl⟩

end Parsers

/-- After a request that is answered with a file, the file is the same. -/
def SameRead (result other : HttpCode × HttpConn) : Prop :=
  SameCode result other ∧ (result.1 = .fileRequest →
    result.2.fileAddress = other.2.fileAddress ∧ result.2.fileSize = other.2.fileSize)

section Requests

variable {conn other : HttpConn} (files : Files) (undefinedCode : HttpConn → HttpCode)

theorem doRequest_related (blank : Blank conn other) :
    Outcome.Related SameRead (conn.doRequest files) (other.doRequest files) := by
  rcases blank with ⟨zero, left, rfl⟩
  rw [doRequest, doRequest, show (conn.withLeft left).url = conn.url from rfl]
  split
  · exact rfl
  · refine .after _ fun urlText => ?_
    refine .after _ fun path => ?_
    split
    · exact ⟨⟨rfl, zero, left, rfl⟩, fun impossible => by cases impossible⟩
    · rename_i stat _
      dsimp only
      split
      · exact ⟨⟨rfl, zero, { left with fileSize := stat.content.length }, rfl⟩, fun impossible => by cases impossible⟩
      · split
        · exact ⟨⟨rfl, zero, { left with fileSize := stat.content.length }, rfl⟩, fun impossible => by cases impossible⟩
        · exact ⟨⟨rfl, zero, ⟨some stat.content, stat.content.length, left.iv⟩, rfl⟩,
            fun _ => ⟨rfl, rfl⟩⟩

theorem nextLine_related {reading after : Reading}
    (agree : reading.lineStatus = after.lineStatus ∧ Blank reading.conn after.conn) :
    Outcome.Related (fun result other : Reading => result.lineStatus = other.lineStatus ∧
      Blank result.conn other.conn) (nextLine reading) (nextLine after) := by
  rcases reading with ⟨conn, status⟩
  rcases after with ⟨other, otherStatus⟩
  rcases agree with ⟨rfl, zero, left, rfl⟩
  rw [nextLine, nextLine]
  dsimp only
  rw [show (conn.withLeft left).checkState = conn.checkState from rfl]
  split
  · exact ⟨rfl, zero, left, rfl⟩
  · have parsed := parseLineLoop_related (conn.readIdx - conn.checkedIdx)
      (show Blank conn (conn.withLeft left) from ⟨zero, left, rfl⟩)
    exact parsed.bind fun result otherResult agree => agree

/-- A pass ends in the same way for both connections. -/
def SamePass : Pass Reading (HttpCode × HttpConn) → Pass Reading (HttpCode × HttpConn) → Prop :=
  Pass.Related (fun reading after => reading.lineStatus = after.lineStatus ∧
    Blank reading.conn after.conn) SameRead

theorem request_related (blank : Blank conn other) :
    Outcome.Related SamePass (do
        let result ← conn.doRequest files
        pure (.leave result)) (do
        let result ← other.doRequest files
        pure (.leave result)) :=
  (doRequest_related files blank).bind fun _ _ agree => agree

theorem handleLine_related (blank : Blank conn other) (text : Nat)
    (bare : ∀ conn : HttpConn, undefinedCode conn.bare = undefinedCode conn) :
    Outcome.Related SamePass (handleLine files undefinedCode conn text)
      (handleLine files undefinedCode other text) := by
  have state : other.checkState = conn.checkState := by
    rcases blank with ⟨_, left, rfl⟩
    rfl
  have code : undefinedCode other = undefinedCode conn := by
    rcases blank with ⟨_, left, rfl⟩
    rw [← bare, ← bare conn]
    rfl
  rw [handleLine, handleLine, state, code]
  split
  · refine (parseRequestLine_related blank text).bind ?_
    rintro ⟨ret, after⟩ ⟨_, otherAfter⟩ ⟨rfl, later⟩
    dsimp only
    split
    · exact ⟨⟨rfl, later⟩, fun impossible => by cases impossible⟩
    · exact ⟨rfl, later⟩
  · refine (parseHeaders_related blank text).bind ?_
    rintro ⟨ret, after⟩ ⟨_, otherAfter⟩ ⟨rfl, later⟩
    dsimp only
    split
    · exact ⟨⟨rfl, later⟩, fun impossible => by cases impossible⟩
    · split
      · exact request_related files later
      · exact ⟨rfl, later⟩
  · refine (parseContent_related blank text _).bind ?_
    rintro ⟨ret, after⟩ ⟨_, otherAfter⟩ ⟨rfl, later⟩
    dsimp only
    split
    · exact request_related files later
    · exact ⟨rfl, later⟩

theorem readPass_related (bare : ∀ conn : HttpConn, undefinedCode conn.bare = undefinedCode conn)
    (reading after : Reading)
    (agree : reading.lineStatus = after.lineStatus ∧ Blank reading.conn after.conn) :
    Outcome.Related SamePass (readPass files undefinedCode reading)
      (readPass files undefinedCode after) := by
  rw [readPass, readPass]
  refine (nextLine_related agree).bind ?_
  rintro ⟨conn, status⟩ ⟨other, _⟩ ⟨rfl, zero, left, rfl⟩
  dsimp only
  split
  · exact ⟨⟨rfl, zero, left, rfl⟩, fun impossible => by cases impossible⟩
  · refine handleLine_related files undefinedCode ?_ _ bare
    exact ⟨zero, left, rfl⟩

theorem processRead_related (blank : Blank conn other)
    (bare : ∀ conn : HttpConn, undefinedCode conn.bare = undefinedCode conn) :
    Outcome.Related SameRead (conn.processRead files undefinedCode)
      (other.processRead files undefinedCode) := by
  have fuel : other.readIdx - other.checkedIdx = conn.readIdx - conn.checkedIdx := by
    rcases blank with ⟨_, left, rfl⟩
    rfl
  rw [processRead, processRead, fuel]
  exact repeatLoop_related (readPass_related files undefinedCode bare) _ _ _ ⟨rfl, blank⟩

end Requests

theorem readLoop_related (outcomes : List Recv) {conn other : HttpConn}
    (blank : Blank conn other) :
    Outcome.Related (fun result after => result.1 = after.1 ∧ Blank result.2 after.2)
      (conn.readLoop outcomes) (other.readLoop outcomes) := by
  induction outcomes generalizing conn other with
  | nil => exact ⟨rfl, blank⟩
  | cons outcome outcomes induction =>
      cases outcome with
      | failed => exact ⟨rfl, blank⟩
      | received bytes =>
          rcases blank with ⟨zero, left, rfl⟩
          rw [readLoop, readLoop, show (conn.withLeft left).readIdx = conn.readIdx from rfl]
          split
          · exact ⟨rfl, zero, left, rfl⟩
          · have stored : Outcome.Related Blank
                (conn.receive (bytes.take (readBufferSize - conn.readIdx)))
                ((conn.withLeft left).receive (bytes.take (readBufferSize - conn.readIdx))) := by
              rw [receive, receive, show (conn.withLeft left).readIdx = conn.readIdx from rfl,
                show (conn.withLeft left).readBuf = conn.readBuf from rfl]
              split
              · exact ⟨zero, left, rfl⟩
              · exact rfl
            exact stored.bind fun _ _ later => induction later

theorem read_related (outcomes : List Recv) {conn other : HttpConn} (blank : Blank conn other) :
    Outcome.Related (fun result after => result.1 = after.1 ∧ Blank result.2 after.2)
      (conn.read outcomes) (other.read outcomes) := by
  have readIdx : other.readIdx = conn.readIdx := by
    rcases blank with ⟨_, left, rfl⟩
    rfl
  rw [read, read, readIdx]
  split
  · exact ⟨rfl, blank⟩
  · exact readLoop_related outcomes blank

/-! ## Writing -/

/-- The same bytes are offered to `writev`. -/
structure SameOffer (conn other : HttpConn) : Prop where
  writeIdx : other.writeIdx = conn.writeIdx
  linger : other.linger = conn.linger
  offered : other.offered = conn.offered

section Texts

variable (conn : HttpConn) (left : Leftover)

theorem addResponse_withLeft (text : List Byte) :
    addResponse text (conn.withLeft left) =
      ((addResponse text conn).1.withLeft left, (addResponse text conn).2) := by
  rw [addResponse, addResponse, show (conn.withLeft left).writeIdx = conn.writeIdx from rfl]
  split
  · rfl
  · dsimp only
    split
    · rfl
    · rfl

theorem addStatusLine_withLeft (status : Int) (title : List Byte) :
    addStatusLine status title (conn.withLeft left) =
      ((addStatusLine status title conn).1.withLeft left, (addStatusLine status title conn).2) :=
  addResponse_withLeft conn left _

theorem addHeaders_withLeft (length : Int) :
    addHeaders length (conn.withLeft left) = (addHeaders length conn).withLeft left := by
  have first : (addContentLength length (conn.withLeft left)).1 =
      (addContentLength length conn).1.withLeft left :=
    congrArg Prod.fst (addResponse_withLeft conn left _)
  have second : ∀ conn : HttpConn,
      (addLinger (conn.withLeft left)).1 = (addLinger conn).1.withLeft left :=
    fun conn => congrArg Prod.fst (addResponse_withLeft conn left _)
  have third : ∀ conn : HttpConn,
      (addBlankLine (conn.withLeft left)).1 = (addBlankLine conn).1.withLeft left :=
    fun conn => congrArg Prod.fst (addResponse_withLeft conn left _)
  rw [addHeaders, addHeaders]
  dsimp only
  rw [first, second, third]

theorem answer_withLeft (status : Int) (title form : List Byte) :
    (answer status title form (conn.withLeft left)).2 = (answer status title form conn).2 ∧
      ((answer status title form conn).2 = true →
        SameOffer (answer status title form conn).1
          (answer status title form (conn.withLeft left)).1) := by
  have added : ∀ conn : HttpConn, addContent form (conn.withLeft left) =
      ((addContent form conn).1.withLeft left, (addContent form conn).2) :=
    fun conn => addResponse_withLeft conn left form
  rw [answer, answer, addStatusLine_withLeft]
  dsimp only
  rw [addHeaders_withLeft, added]
  generalize addContent form _ = result
  dsimp only
  split
  · refine ⟨rfl, fun _ => ⟨rfl, rfl, ?_⟩⟩
    rw [offered_offerBuffer, offered_offerBuffer]
    rfl
  · exact ⟨rfl, fun impossible => by cases impossible⟩

end Texts

theorem processWrite_related {conn other : HttpConn} {code : HttpCode}
    (same : SameRead (code, conn) (code, other)) :
    (processWrite code other).2 = (processWrite code conn).2 ∧
      ((processWrite code conn).2 = true →
        SameOffer (processWrite code conn).1 (processWrite code other).1) := by
  rcases same with ⟨⟨_, _, left, rfl⟩, file⟩
  cases code with
  | internalError => exact answer_withLeft conn left 500 error500Title error500Form
  | badRequest => exact answer_withLeft conn left 400 error400Title error400Form
  | noResource => exact answer_withLeft conn left 404 error404Title error404Form
  | forbiddenRequest => exact answer_withLeft conn left 403 error403Title error403Form
  | noRequest => exact ⟨rfl, fun impossible => by cases impossible⟩
  | getRequest => exact ⟨rfl, fun impossible => by cases impossible⟩
  | closedConnection => exact ⟨rfl, fun impossible => by cases impossible⟩
  | fileRequest =>
      rcases file rfl with ⟨address, size⟩
      have started : SameFile conn (addStatusLine 200 ok200Title conn).1 :=
        sameFile_addResponse _ conn
      rw [processWrite, processWrite, addStatusLine_withLeft]
      dsimp only
      generalize (addStatusLine 200 ok200Title conn).1 = middle at started
      have sameSize : (middle.withLeft left).fileSize = middle.fileSize :=
        (started.fileSize.trans size).symm
      have sameAddress : left.fileAddress = middle.fileAddress :=
        (started.fileAddress.trans address).symm
      rw [sameSize, addHeaders_withLeft]
      split
      · refine ⟨rfl, fun _ => ⟨rfl, rfl, ?_⟩⟩
        have headed := sameFile_addHeaders (toInt middle.fileSize) middle
        generalize addHeaders (toInt middle.fileSize) middle = last at headed
        have lastSize : left.fileSize = last.fileSize := sameSize.trans headed.fileSize.symm
        have lastAddress : left.fileAddress = last.fileAddress :=
          sameAddress.trans headed.fileAddress.symm
        simp [offered, offerFile, region, withLeft, lastSize, lastAddress]
      · exact ⟨rfl, fun impossible => by cases impossible⟩

/-- What is the same in two connections, by what their sockets are watched for. -/
def Agree : Option Interest → HttpConn → HttpConn → Prop
  | some .input => Blank
  | some .output => SameOffer
  | none => fun _ _ => True

def SameEnding (result other : Ending × HttpConn) : Prop :=
  result.1 = other.1 ∧ Agree result.1.watched result.2 other.2

section Calls

variable {conn other : HttpConn} (blank : Blank conn other) (files : Files)
  (undefinedCode : HttpConn → HttpCode)
  (bare : ∀ conn : HttpConn, undefinedCode conn.bare = undefinedCode conn)

include blank bare

theorem process_related :
    Outcome.Related SameEnding (conn.process files undefinedCode)
      (other.process files undefinedCode) := by
  rw [process, process]
  refine (processRead_related files undefinedCode blank bare).bind ?_
  rintro ⟨code, after⟩ ⟨_, otherAfter⟩ ⟨⟨rfl, later⟩, file⟩
  dsimp only
  split
  · exact ⟨rfl, later⟩
  · rcases processWrite_related (show SameRead (code, after) (code, otherAfter) from
      ⟨⟨rfl, later⟩, file⟩) with ⟨returned, offers⟩
    rw [returned]
    cases written : (processWrite code after).2 with
    | true => exact ⟨rfl, offers written⟩
    | false => exact ⟨rfl, trivial⟩

theorem arrive_related (pieces : List (List Byte)) :
    Outcome.Related SameEnding (conn.arrive files undefinedCode pieces)
      (other.arrive files undefinedCode pieces) := by
  rw [arrive, arrive]
  refine (read_related _ blank).bind ?_
  rintro ⟨readable, after⟩ ⟨_, otherAfter⟩ ⟨rfl, later⟩
  dsimp only
  split
  · exact process_related later files undefinedCode bare
  · exact ⟨rfl, trivial⟩

end Calls

/-- Two calls of `write` send the same, and end in the same way. -/
structure SameCall (call other : WriteCall) : Prop where
  sent : call.sent = other.sent
  ending : call.ending = other.ending
  agree : Agree call.ending.watched call.conn other.conn

theorem finishWrite_related {conn other : HttpConn} (same : SameOffer conn other)
    (sent : List Byte) (rest : List Writev) :
    SameCall (conn.finishWrite sent rest) (other.finishWrite sent rest) := by
  rw [finishWrite, finishWrite, show other.unmap.linger = conn.unmap.linger from same.linger]
  split
  · exact ⟨rfl, rfl, blank_init conn.unmap other.unmap⟩
  · exact ⟨rfl, rfl, trivial⟩

/-- Both calls end, or the outcomes suffice for neither. -/
def SameCalls : Option WriteCall → Option WriteCall → Prop
  | some call, some other => SameCall call other
  | none, none => True
  | _, _ => False

theorem writeLoop_related (outcomes : List Writev) {conn other : HttpConn}
    (same : SameOffer conn other) (toSend haveSend : Int) (sent : List Byte) :
    SameCalls (conn.writeLoop toSend haveSend sent outcomes)
      (other.writeLoop toSend haveSend sent outcomes) := by
  induction outcomes generalizing toSend haveSend sent with
  | nil => trivial
  | cons outcome rest induction =>
      cases outcome with
      | again => exact ⟨rfl, rfl, same⟩
      | failed => exact ⟨rfl, rfl, trivial⟩
      | sent count =>
          rw [writeLoop, writeLoop, same.offered]
          split
          · exact finishWrite_related same _ rest
          · exact induction _ _ _

theorem write_related (outcomes : List Writev) {conn other : HttpConn}
    (same : SameOffer conn other) : SameCalls (conn.write outcomes) (other.write outcomes) := by
  rw [write, write, same.writeIdx]
  split
  · exact ⟨rfl, rfl, blank_init conn other⟩
  · exact writeLoop_related outcomes same _ _ _

end HttpConn

namespace Session

def Agree (session other : Session) : Prop :=
  session.watched = other.watched ∧ HttpConn.Agree session.watched session.conn other.conn

theorem step_related {session other : Session} (agree : Agree session other)
    (event : SocketEvent) : StepRelated Agree (session.step event) (other.step event) := by
  rcases session with ⟨conn, watched⟩
  rcases other with ⟨otherConn, _⟩
  rcases agree with ⟨rfl, agree⟩
  cases event with
  | readable pieces files undefinedCode =>
      rw [step, step]
      dsimp only
      split
      · rename_i input
        rw [input] at agree
        have arrived := HttpConn.arrive_related agree files (fun conn => undefinedCode conn.bare)
          (fun _ => rfl) pieces
        revert arrived
        cases conn.arrive files (fun conn => undefinedCode conn.bare) pieces with
        | error fault =>
            cases otherConn.arrive files (fun conn => undefinedCode conn.bare) pieces with
            | error otherFault => exact fun same => ⟨congrArg _ same, rfl, trivial⟩
            | ok otherResult => exact False.elim
        | ok result =>
            cases otherConn.arrive files (fun conn => undefinedCode conn.bare) pieces with
            | error otherFault => exact False.elim
            | ok otherResult =>
                rintro ⟨sameEnding, later⟩
                exact ⟨congrArg (Observation.ended · []) sameEnding,
                  congrArg Ending.watched sameEnding, later⟩
      · trivial
  | writable outcomes =>
      rw [step, step]
      split
      · rename_i output
        rw [output] at agree
        have written := HttpConn.write_related outcomes agree
        revert written
        cases conn.write outcomes with
        | none =>
            cases otherConn.write outcomes with
            | none => exact fun _ => trivial
            | some otherCall => exact False.elim
        | some call =>
            cases otherConn.write outcomes with
            | none => exact False.elim
            | some otherCall =>
                intro same
                exact ⟨by rw [same.ending, same.sent], congrArg Ending.watched same.ending,
                  same.agree⟩
      · trivial

theorem runs_related (conn other : HttpConn) (events : List SocketEvent) :
    StepRelated Agree (runSteps step (start conn) events) (runSteps step (start other) events) :=
  runSteps_related (fun _ _ event agree => step_related agree event) events _ _
    ⟨rfl, HttpConn.blank_init conn other⟩

end Session

end DataStructAlgorithm.HTTPD2
