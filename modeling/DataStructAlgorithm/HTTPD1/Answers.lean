import DataStructAlgorithm.HTTPD1.Serving
import DataStructAlgorithm.HTTPD.Completion

/-! # What the clients get

The header is read to an end whatever arrives. Then what is answered to the first request of a
connection, in whatever pieces it arrives, and what any program gets to read. -/

namespace DataStructAlgorithm.HTTPD1

open Foundation
open HTTPD (Environment Relay putVariable stringOf atoi statusLine)

/-! ## The header -/

theorem recv_pending (count : Nat) (socket : Socket) :
    pending (recv count socket).2 + ((recv count socket).1.getD []).length ≤ pending socket ∧
      ((recv count socket).1 = none → pending (recv count socket).2 < pending socket) := by
  fun_cases recv count socket with
  | case1 => simp
  | case2 rest => simp [pending]
  | case3 byte bytes rest =>
      refine ⟨?_, by simp⟩
      dsimp only
      split
      · rename_i whole
        rw [List.take_of_length_le (by rw [List.length_cons]; omega)]
        simp only [pending, Option.getD_some]
        omega
      · rename_i part
        simp only [pending, Option.getD_some, List.length_drop, List.length_take, List.length_cons]
        omega

theorem peek_pending (socket : Socket) : pending (peek socket).2 ≤ pending socket := by
  fun_cases peek socket <;> simp [pending]

/-- A pass adds the byte that `ch` gets to the line, or ends it. -/
theorem getLinePass_again {size : Nat} {state : LineState}
    (goes : state.ch ≠ lineFeed ∧ state.line.length < size - 1) :
    ∃ next, getLinePass size state = .ok (.again next) ∧
      pending next.socket + next.line.length ≤ pending state.socket + state.line.length ∧
      (next.line = state.line ++ [next.ch] ∨ next.line = state.line ∧ next.ch = lineFeed) := by
  have fewer := (recv_pending 1 state.socket).1
  rw [getLinePass, if_pos goes]
  split
  · rename_i ch socket received
    rw [received] at fewer
    simp only [Option.getD_some, List.length_cons, List.length_nil] at fewer
    split
    · have seen := peek_pending socket
      generalize peek socket = result at seen ⊢
      rcases result with ⟨peeked, behind⟩
      have taken := (recv_pending 1 behind).1
      refine ⟨_, rfl, ?_, Or.inl rfl⟩
      dsimp only at seen ⊢
      rw [List.length_append, List.length_singleton]
      split
      · omega
      · omega
    · refine ⟨_, rfl, ?_, Or.inl rfl⟩
      rw [List.length_append, List.length_singleton]
      dsimp only
      omega
  · rename_i found socket none received
    rw [received] at fewer
    refine ⟨_, rfl, ?_, Or.inr ⟨rfl, rfl⟩⟩
    dsimp only at fewer ⊢
    omega

/-- What has been read of a line: the bytes in it have been received, and only the last one may be
a line feed. -/
structure Reading (size : Nat) (socket : Socket) (bound : Nat) (state : LineState) : Prop where
  received : pending state.socket + state.line.length ≤ pending socket
  unbroken : lineFeed ∉ state.line.dropLast
  going : state.ch ≠ lineFeed → lineFeed ∉ state.line ∧ size ≤ bound + state.line.length

/-- `get_line` returns, and what it returns has at most one line feed, at its end. -/
theorem getLine_spec (size : Nat) (socket : Socket) :
    ∃ line rest, getLine size socket = .ok (line, rest) ∧
      pending rest + line.length ≤ pending socket ∧ lineFeed ∉ line.dropLast := by
  have start : Reading size socket size ⟨socket, [], 0⟩ :=
    ⟨Nat.le_refl _, by simp, fun _ => ⟨by simp, Nat.le_refl _⟩⟩
  have steps : ∀ bound state, Reading size socket bound state →
      (∃ next smaller, getLinePass size state = .ok (.again next) ∧ smaller < bound ∧
        Reading size socket smaller next) ∨
      (∃ result, getLinePass size state = .ok (.leave result) ∧
        pending result.socket + result.line.length ≤ pending socket ∧
        lineFeed ∉ result.line.dropLast) := by
    intro bound state reading
    by_cases goes : state.ch ≠ lineFeed ∧ state.line.length < size - 1
    · rcases reading.going goes.1 with ⟨noFeed, room⟩
      rcases getLinePass_again goes with ⟨next, pass, fewer, longer | ⟨same, isFeed⟩⟩
      · refine Or.inl ⟨next, bound - 1, pass, by omega, ?_, ?_, fun notFeed => ⟨?_, ?_⟩⟩
        · exact Nat.le_trans fewer reading.received
        · rw [longer, List.dropLast_concat]
          exact noFeed
        · rw [longer, List.mem_append, List.mem_singleton]
          rintro (before | isLast)
          · exact noFeed before
          · exact notFeed isLast.symm
        · rw [longer, List.length_append, List.length_singleton]
          omega
      · refine Or.inl ⟨next, bound - 1, pass, by omega, ?_, ?_, fun notFeed => ?_⟩
        · exact Nat.le_trans fewer reading.received
        · rw [same]
          exact reading.unbroken
        · exact absurd isFeed notFeed
    · exact Or.inr ⟨state, if_neg goes, reading.received, reading.unbroken⟩
  rcases repeatLoop_total _ _ steps (size + 2) size _ start (by omega) with
    ⟨final, returned, received, unbroken⟩
  refine ⟨final.line, final.socket, ?_, received, unbroken⟩
  rw [getLine, returned]
  rfl

/-- The loops over the header end behind an empty line, or when `recv` finds nothing. -/
theorem header_ended {Memory : Type} (size : Nat) {visit : Memory → List Byte → Memory}
    {holds : Memory → Prop} (keeps : ∀ memory line, holds memory → holds (visit memory line))
    {memory : Memory} (start : holds memory) (socket : Socket) {fuel : Nat}
    (enough : pending socket < fuel) :
    ∃ before line rest, repeatLoop (headerPass size visit) fuel (memory, socket) =
      .ok (visit before line, rest) ∧ line.length ≤ 1 ∧ holds before ∧
        pending rest ≤ pending socket := by
  have steps : ∀ bound (state : Memory × Socket),
      pending state.2 ≤ bound ∧ holds state.1 ∧ bound ≤ pending socket →
      (∃ next smaller, headerPass size visit state = .ok (.again next) ∧ smaller < bound ∧
        pending next.2 ≤ smaller ∧ holds next.1 ∧ smaller ≤ pending socket) ∨
      (∃ result, headerPass size visit state = .ok (.leave result) ∧
        (∃ before line, result.1 = visit before line ∧ line.length ≤ 1 ∧ holds before) ∧
          pending result.2 ≤ pending socket) := by
    rintro bound state ⟨within, kept, started⟩
    rcases getLine_spec size state.2 with ⟨line, rest, isLine, received, unbroken⟩
    rw [headerPass, isLine, Outcome.ok_bind]
    dsimp only
    split
    · rename_i more
      exact Or.inl ⟨_, bound - 1, rfl, by omega, show pending rest ≤ bound - 1 by omega,
        keeps state.1 line kept, by omega⟩
    · rename_i ended
      refine Or.inr ⟨_, rfl, ⟨state.1, line, rfl, ?_, kept⟩,
        show pending rest ≤ pending socket by omega⟩
      by_cases empty : 0 < line.length
      · have isBlank : stringOf line = ascii "\n" :=
          Decidable.byContradiction fun other => ended ⟨empty, other⟩
        cases line with
        | nil => cases empty
        | cons first others =>
            have firstFeed : first = lineFeed := by
              rw [stringOf, List.takeWhile_cons] at isBlank
              split at isBlank
              · exact (List.cons.inj isBlank).1
              · cases isBlank
            cases others with
            | nil => exact Nat.le_refl 1
            | cons second others =>
                rw [firstFeed] at unbroken
                simp at unbroken
      · omega
  rcases repeatLoop_total _ _ steps fuel (pending socket) (memory, socket)
    ⟨Nat.le_refl _, start, Nat.le_refl _⟩ enough with
    ⟨⟨value, rest⟩, returned, ⟨before, line, rfl, short, kept⟩, fewer⟩
  exact ⟨before, line, rest, returned, short, kept, fewer⟩

theorem dropHeader_ended (socket : Socket) :
    ∃ rest, dropHeader socket = .ok rest ∧ pending rest ≤ pending socket := by
  rcases @header_ended Unit 1024 (fun memory _ => memory) (fun _ => True) (fun _ _ _ => trivial) ()
    trivial socket _ (Nat.lt_succ_self _) with ⟨_, _, rest, returned, _, _, fewer⟩
  refine ⟨rest, ?_, fewer⟩
  rw [dropHeader, returned]
  rfl

/-- Where `m_buf` does not begin with the name of the header, no line counts. Else the last one
does, which has no value. -/
theorem postHeader_ended (buf : List Byte) (socket : Socket) :
    ∃ rest, postHeader buf socket =
      .ok (if sameStart 16 buf (ascii "Content-Length: ") then 0 else -1, rest) ∧
        pending rest ≤ pending socket := by
  have keeps : ∀ (contentLen : Int) (line : List Byte),
      (sameStart 16 buf (ascii "Content-Length: ") = false → contentLen = -1) →
      sameStart 16 buf (ascii "Content-Length: ") = false →
      (if sameStart 16 buf (ascii "Content-Length: ") then atoi (stringOf (line.drop 16))
        else contentLen) = -1 := by
    intro contentLen line kept other
    rw [other]
    exact kept other
  rcases header_ended (1024 / 10) keeps (fun _ => rfl) socket (Nat.lt_succ_self _) with
    ⟨before, line, rest, returned, short, kept, fewer⟩
  refine ⟨rest, ?_, fewer⟩
  rw [postHeader, returned, List.drop_of_length_le (by omega)]
  cases named : sameStart 16 buf (ascii "Content-Length: ") with
  | true => rfl
  | false => exact congrArg (fun contentLen => Except.ok (contentLen, rest)) (kept named)

/-! ## Programs -/

/-- `strncasecmp` does not look behind the end of a string. -/
theorem sameStart_stringOf (buf : List Byte) {count : Nat} {other : List Byte}
    (noZero : 0 ∉ other.map toLower) (long : count ≤ other.length) :
    sameStart count (stringOf buf) other = sameStart count buf other := by
  induction buf generalizing count other with
  | nil => rfl
  | cons byte buf induction =>
      cases count with
      | zero => rfl
      | succ count =>
          cases other with
          | nil => cases long
          | cons first other =>
              rw [List.map_cons, List.mem_cons, not_or] at noZero
              have rest := induction noZero.2 (Nat.le_of_succ_le_succ long)
              rw [stringOf, List.takeWhile_cons]
              by_cases isZero : byte = 0
              · have lower : toLower 0 ≠ toLower first := by simpa [toLower] using noZero.1
                simp [isZero, sameStart, sameText, lower]
              · rw [stringOf] at rest
                simp only [sameStart, sameText, List.take_succ_cons, List.map_cons, bne_iff_ne,
                  ne_eq, isZero, not_false_eq_true, if_true] at rest ⊢
                exact congrArg (toLower byte == toLower first && ·) rest

/-- What `exec_cgi` answers, whatever follows the request line. -/
def cgiReply (stack : List Byte) (parsed : Parsed) (path : List Byte) : Outcome Reply :=
  if parsed.method = .post then
    if sameStart 16 parsed.line (ascii "Content-Length: ") then do
      let (environment, printed) ← childEnvironment .post parsed.querystring 0
      pure (.program ⟨path, printed, environment, 0, []⟩)
    else pure (.text (badRequestText stack))
  else do
    let (environment, printed) ← childEnvironment parsed.method parsed.querystring (-1)
    pure (.program ⟨path, printed, environment, -1, []⟩)

theorem CgiConn.header_ended (conn : CgiConn) (socket : Socket) :
    ∃ rest, conn.header socket = .ok (if conn.method = .post ∧
      sameStart 16 conn.buf (ascii "Content-Length: ") then 0 else -1, rest) ∧
        pending rest ≤ pending socket := by
  rw [header]
  cases conn.method with
  | get =>
      rcases dropHeader_ended socket with ⟨rest, dropped, fewer⟩
      refine ⟨rest, ?_, fewer⟩
      rw [dropped]
      rfl
  | post =>
      rcases postHeader_ended conn.buf socket with ⟨rest, posted, fewer⟩
      exact ⟨rest, by simp [posted], fewer⟩
  | other => exact ⟨socket, rfl, Nat.le_refl _⟩

theorem CgiConn.execCgi_eq {conn : CgiConn} {parsed : Parsed} (method : parsed.method = conn.method)
    (querystring : parsed.querystring = conn.querystring) (line : parsed.line = stringOf conn.buf)
    (stack : List Byte) (socket : Socket) :
    ∃ rest, conn.execCgi stack socket =
      ((cgiReply stack parsed conn.file).map fun reply => (reply, rest)) ∧
        pending rest ≤ pending socket := by
  have named : sameStart 16 parsed.line (ascii "Content-Length: ") =
      sameStart 16 conn.buf (ascii "Content-Length: ") := by
    rw [line]
    exact sameStart_stringOf conn.buf (by decide) (by decide)
  rcases conn.header_ended socket with ⟨rest, header, fewer⟩
  refine ⟨rest, ?_, fewer⟩
  rw [cgiReply, named, method, querystring, execCgi, header, Outcome.ok_bind]
  dsimp only
  by_cases isPost : conn.method = .post
  · cases sameStart 16 conn.buf (ascii "Content-Length: ") with
    | false => simp only [isPost, Bool.false_eq_true, and_false, if_false, and_self, if_true]; rfl
    | true =>
        simp only [isPost, and_self, if_true]
        cases childEnvironment .post conn.querystring 0 with
        | error fault => rfl
        | ok result => rfl
  · simp only [isPost, false_and, if_false]
    cases childEnvironment conn.method conn.querystring (-1) with
    | error fault => rfl
    | ok result => rfl

/-- What a reply says about the input of a program. -/
def Unfed (entry : Parsed × Reply) : Prop :=
  ∀ exchange, entry.2 = .program exchange → exchange.contentLen ≤ 0 ∧ exchange.body = [] ∧
    (entry.1.method = .post → sameStart 16 entry.1.line (ascii "Content-Length: ") = true)

theorem cgiReply_unfed {stack path : List Byte} {parsed : Parsed} {reply : Reply}
    (replied : cgiReply stack parsed path = .ok reply) : Unfed (parsed, reply) := by
  rintro exchange ⟨⟩
  rw [cgiReply] at replied
  split at replied
  · split at replied
    · rename_i named
      rcases Outcome.bind_eq_ok replied with ⟨result, _, same⟩
      cases same
      exact ⟨Int.le_refl 0, rfl, fun _ => named⟩
    · cases replied
  · rename_i notPost
    rcases Outcome.bind_eq_ok replied with ⟨result, _, same⟩
    cases same
    exact ⟨by dsimp only; decide, rfl, fun isPost => absurd isPost notPost⟩

theorem takeLine_line {conn after : CgiConn} {bytes line : List Byte}
    (taken : conn.takeLine bytes = .ok (some line, after)) : line = stringOf after.buf := by
  rcases Outcome.bind_eq_ok taken with ⟨filled, _, taken⟩
  split at taken
  · cases taken
  · rcases Outcome.bind_eq_ok taken with ⟨buf, _, taken⟩
    rcases Outcome.bind_eq_ok taken with ⟨fileName, isString, taken⟩
    cases taken
    rw [cString] at isString
    split at isString
    · cases isString
      rfl
    · cases isString

theorem map_eq_ok {Value Result : Type} {outcome : Outcome Value} {change : Value → Result}
    {result : Result} (mapped : outcome.map change = .ok result) :
    ∃ value, outcome = .ok value ∧ change value = result := by
  cases outcome with
  | error fault => cases mapped
  | ok value =>
      cases mapped
      exact ⟨value, rfl, rfl⟩

theorem CgiConn.distinguish_same (conn : CgiConn) (st : FileMode) :
    (conn.distinguish st).method = conn.method ∧
      (conn.distinguish st).querystring = conn.querystring ∧
      (conn.distinguish st).buf = conn.buf := by
  rw [CgiConn.distinguish]
  split
  · exact ⟨rfl, rfl, rfl⟩
  · split
    · exact ⟨rfl, rfl, rfl⟩
    · exact ⟨rfl, rfl, rfl⟩

namespace Serving

variable {around : Surroundings} {serving after : Serving}

/-- Nothing is answered in a pass, or one request. -/
theorem answer_log {parsed : Parsed} {result : Pass Serving Serving}
    (method : parsed.method = serving.conn.method)
    (querystring : parsed.querystring = serving.conn.querystring)
    (line : parsed.line = stringOf serving.conn.buf)
    (answered : serving.answer around parsed = .ok result) :
    ∃ reply, (leftBy result).log = serving.log ++ [(parsed, reply)] ∧ Unfed (parsed, reply) := by
  rw [answer] at answered
  split at answered
  · cases answered
    exact ⟨_, rfl, fun exchange isProgram => by cases isProgram⟩
  · rename_i st _
    dsimp only at answered
    rcases serving.conn.distinguish_same st.mode with ⟨sameMethod, sameQuery, sameBuf⟩
    split at answered
    · rcases CgiConn.execCgi_eq (method.trans sameMethod.symm) (querystring.trans sameQuery.symm)
        (line.trans (congrArg stringOf sameBuf.symm)) around.stack serving.socket with
        ⟨rest, run, _⟩
      rw [run] at answered
      rcases Outcome.bind_eq_ok answered with ⟨⟨reply, socket⟩, mapped, answered⟩
      rcases map_eq_ok mapped with ⟨_, replied, equal⟩
      cases equal
      cases answered
      exact ⟨reply, rfl, cgiReply_unfed replied⟩
    · rcases Outcome.bind_eq_ok answered with ⟨socket, _, answered⟩
      cases answered
      exact ⟨_, rfl, fun exchange isProgram => by cases isProgram⟩

theorem step_log (stepped : step serving around = .ok after) :
    after.log = serving.log ∨ ∃ entry, after.log = serving.log ++ [entry] ∧ Unfed entry := by
  rw [step] at stepped
  split at stepped
  · rcases map_eq_ok stepped with ⟨result, passed, rfl⟩
    rw [processPass] at passed
    split at passed
    · cases passed
      exact Or.inl rfl
    · cases passed
      exact Or.inl rfl
    · rcases Outcome.bind_eq_ok passed with ⟨⟨line, conn⟩, taken, passed⟩
      cases line with
      | none =>
          cases passed
          exact Or.inl rfl
      | some line =>
          have buf := (CgiConn.getMethod_same conn line).1
          rcases answer_log rfl rfl ((takeLine_line taken).trans (congrArg stringOf buf.symm))
            passed with ⟨reply, log, unfed⟩
          exact Or.inr ⟨_, log, unfed⟩
  · cases stepped
    exact Or.inl rfl

/-- No program that is started in a run of a connection is to get anything. -/
theorem run_unfed (arounds : List Surroundings) (final : Serving)
    (unfed : ∀ entry ∈ serving.log, Unfed entry)
    (ran : runAll step serving arounds = .ok final) : ∀ entry ∈ final.log, Unfed entry := by
  have always : EveryStep step (fun _ _ => True) serving arounds :=
    EveryStep.of_mem (fun _ _ _ => trivial) serving
  apply runAll_keeps (fun serving => ∀ entry ∈ serving.log, Unfed entry) _ arounds serving final
    unfed always ran
  intro state around after kept _ stepped entry member
  rcases step_log stepped with same | ⟨added, longer, isUnfed⟩
  · rw [same] at member
    exact kept entry member
  · rw [longer, List.mem_append, List.mem_singleton] at member
    rcases member with old | rfl
    · exact kept entry old
    · exact isUnfed

end Serving

/-! ## Calls of `process` -/

/-! The only fault is that a buffer is left. -/

theorem takeLine_fault {conn : CgiConn} {bytes : List Byte} {fault : Fault}
    (failed : conn.takeLine bytes = .error fault) : fault = .outOfRange := by
  rcases Outcome.bind_eq_error failed with received | ⟨filled, _, failed⟩
  · rw [CgiConn.receive] at received
    split at received
    · cases received
    · cases received
      rfl
  · split at failed
    · cases failed
    · rcases Outcome.bind_eq_error failed with written | ⟨buf, _, failed⟩
      · rw [writeAt] at written
        split at written
        · cases written
        · cases written
          rfl
      · rcases Outcome.bind_eq_error failed with read | ⟨fileName, _, failed⟩
        · rw [cString] at read
          split at read
          · cases read
          · cases read
            rfl
        · cases failed

theorem putVariable_fault {name value : List Byte} {fault : Fault}
    (failed : putVariable name value = .error fault) : fault = .outOfRange := by
  rw [putVariable] at failed
  split at failed
  · cases failed
  · cases failed
    rfl

theorem childEnvironment_fault {method : Method} {querystring : List Byte} {contentLen : Int}
    {fault : Fault} (failed : childEnvironment method querystring contentLen = .error fault) :
    fault = .outOfRange := by
  cases method with
  | get =>
      rcases Outcome.bind_eq_error failed with put | ⟨_, _, failed⟩
      · exact putVariable_fault put
      · cases failed
  | post =>
      rcases Outcome.bind_eq_error failed with put | ⟨_, _, failed⟩
      · exact putVariable_fault put
      · cases failed
  | other => cases failed

theorem cgiReply_fault {stack path : List Byte} {parsed : Parsed} {fault : Fault}
    (failed : cgiReply stack parsed path = .error fault) : fault = .outOfRange := by
  rw [cgiReply] at failed
  split at failed
  · split at failed
    · rcases Outcome.bind_eq_error failed with made | ⟨_, _, failed⟩
      · exact childEnvironment_fault made
      · cases failed
    · cases failed
  · rcases Outcome.bind_eq_error failed with made | ⟨_, _, failed⟩
    · exact childEnvironment_fault made
    · cases failed

namespace Serving

theorem answer_ends (around : Surroundings) (serving : Serving) (parsed : Parsed)
    (method : parsed.method = serving.conn.method)
    (querystring : parsed.querystring = serving.conn.querystring)
    (line : parsed.line = stringOf serving.conn.buf) :
    (∀ fault, serving.answer around parsed = .error fault → fault = .outOfRange) ∧
      ∀ next, serving.answer around parsed = .ok (.again next) →
        pending next.socket ≤ pending serving.socket ∧ next.registered = serving.registered := by
  rw [answer]
  cases around.stat serving.conn.file with
  | none => exact ⟨fun _ failed => (by cases failed), fun _ passed => (by cases passed)⟩
  | some st =>
      dsimp only
      rcases serving.conn.distinguish_same st.mode with ⟨sameMethod, sameQuery, sameBuf⟩
      split
      · rcases CgiConn.execCgi_eq (method.trans sameMethod.symm) (querystring.trans sameQuery.symm)
          (line.trans (congrArg stringOf sameBuf.symm)) around.stack serving.socket with
          ⟨rest, run, fewer⟩
        rw [run]
        cases replied : cgiReply around.stack parsed (serving.conn.distinguish st.mode).file with
        | error other =>
            refine ⟨fun fault failed => ?_, fun _ passed => (by cases passed)⟩
            cases failed
            exact cgiReply_fault replied
        | ok reply =>
            refine ⟨fun _ failed => (by cases failed), fun next passed => ?_⟩
            cases passed
            exact ⟨fewer, rfl⟩
      · rcases dropHeader_ended serving.socket with ⟨rest, dropped, _⟩
        rw [dropped]
        exact ⟨fun _ failed => (by cases failed), fun _ passed => (by cases passed)⟩

/-- A pass that is not the last one leaves less to be received, and an overflow is the only
fault. -/
theorem processPass_ends (around : Surroundings) (serving : Serving) :
    (∀ fault, processPass around serving = .error fault → fault = .outOfRange) ∧
      ∀ next, processPass around serving = .ok (.again next) →
        pending next.socket < pending serving.socket ∧ next.registered = serving.registered := by
  have fewer := (recv_pending bufferSize serving.socket).1
  rw [processPass]
  split
  · exact ⟨fun _ failed => (by cases failed), fun _ passed => (by cases passed)⟩
  · exact ⟨fun _ failed => (by cases failed), fun _ passed => (by cases passed)⟩
  · rename_i bytes socket nonempty received
    have more : pending socket < pending serving.socket := by
      rw [received] at fewer
      have positive := List.length_pos_iff.mpr nonempty
      dsimp only [Option.getD_some] at fewer
      omega
    cases taken : serving.conn.takeLine bytes with
    | error other =>
        refine ⟨fun fault failed => ?_, fun _ passed => (by cases passed)⟩
        cases failed
        exact takeLine_fault taken
    | ok result =>
        rcases result with ⟨line, conn⟩
        rw [Outcome.ok_bind]
        cases line with
        | none =>
            refine ⟨fun _ failed => (by cases failed), fun next passed => ?_⟩
            cases passed
            exact ⟨more, rfl⟩
        | some line =>
            have buf := (CgiConn.getMethod_same conn line).1
            have isLine := (takeLine_line taken).trans (congrArg stringOf buf.symm)
            rcases answer_ends around
              ⟨conn.getMethod line, socket, serving.log, serving.registered⟩
              ⟨line, (conn.getMethod line).method, (conn.getMethod line).file,
                (conn.getMethod line).querystring⟩ rfl rfl isLine with ⟨faults, agains⟩
            refine ⟨faults, fun next passed => ?_⟩
            rcases agains next passed with ⟨others, registered⟩
            exact ⟨Nat.lt_of_le_of_lt others more, registered⟩

/-- A call of `process` does not go on for ever. -/
theorem process_returns (around : Surroundings) (serving : Serving) :
    process around serving ≠ .error .outOfFuel := by
  apply repeatLoop_ends (fun bound serving => pending serving.socket ≤ bound) _ _
    (pending serving.socket) serving (Nat.le_refl _) (Nat.lt_succ_self _)
  intro bound serving within
  refine ⟨fun failed => ?_, fun next passed => ?_⟩
  · have overflow := (processPass_ends around serving).1 _ failed
    cases overflow
  · have fewer := ((processPass_ends around serving).2 next passed).1
    exact ⟨pending next.socket, Nat.lt_of_lt_of_le fewer within, Nat.le_refl _⟩

/-- A call of `process` is a run of passes, while the files stay as they are. -/
theorem process_run {around : Surroundings} {serving final : Serving}
    (registered : serving.registered = true) (returned : process around serving = .ok final) :
    ∃ count, runAll step serving (List.replicate count around) = .ok final := by
  rw [process] at returned
  generalize pending serving.socket + 1 = fuel at returned
  induction fuel generalizing serving with
  | zero => cases returned
  | succ fuel induction =>
      rw [repeatLoop] at returned
      split at returned
      · cases returned
      · rename_i next pass
        have stepped : step serving around = .ok next := by
          rw [step, if_pos registered, pass]
          rfl
        have stays := ((processPass_ends around serving).2 next pass).2
        rcases induction (stays.trans registered) returned with ⟨count, ran⟩
        refine ⟨count + 1, ?_⟩
        rw [List.replicate_succ, runAll, stepped, Outcome.ok_bind]
        exact ran
      · rename_i result pass
        have stepped : step serving around = .ok result := by
          rw [step, if_pos registered, pass]
          rfl
        cases returned
        refine ⟨1, ?_⟩
        rw [List.replicate_one, runAll, stepped]
        rfl

end Serving

/-! ## What the programs get -/

namespace Exchange

variable {exchange : Exchange} {programs : List Byte → Environment → ByteProgram} {terminal : Bool}

theorem child_ends : (exchange.child programs terminal).Ends [] ↔
    (programs exchange.path exchange.environment).Ends [] := by
  rw [child]
  cases terminal with
  | false => rfl
  | true => exact ByteProgram.ends_print

theorem child_outputOn : (exchange.child programs terminal).outputOn [] =
    (if terminal then exchange.printed else []) ++
      (programs exchange.path exchange.environment).outputOn [] := by
  rw [child]
  cases terminal with
  | false => rfl
  | true => exact ByteProgram.outputOn_print _ _ _

end Exchange

/-- Whatever arrives on a connection, no program gets any of it: a `POST` is only passed on if the
request line begins like the header, and then without a body. In every order of the steps the pipe
to the program stays empty. A program that reads it keeps the father waiting for ever, one that does
not is relayed. -/
theorem programs_unfed (conn : CgiConn) (socket : Socket) (arounds : List Surroundings)
    (final : Serving) (ran : runAll Serving.step (Serving.start conn socket) arounds = .ok final)
    (parsed : Parsed) (exchange : Exchange) (started : (parsed, .program exchange) ∈ final.log) :
    (parsed.method = .post → sameStart 16 parsed.line (ascii "Content-Length: ") = true) ∧
      ∀ (programs : List Byte → Environment → ByteProgram) (terminal : Bool) (capacity : Nat),
        0 < capacity → ∃ bound, ∀ processes relay sent,
          runSteps (Relay.step capacity) (exchange.relay programs terminal) processes =
            some (relay, sent) →
          processes.length ≤ bound ∧ relay.input = [] ∧
            (¬ (programs exchange.path exchange.environment).Ends [] → relay.father ≠ .done) ∧
            ((programs exchange.path exchange.environment).Ends [] →
              AtRest (Relay.step capacity) relay → relay.father = .done ∧ sent.flatten =
                statusLine ++ statusLine ++ ((if terminal then exchange.printed else []) ++
                  (programs exchange.path exchange.environment).outputOn [])) := by
  have nothing : ∀ entry ∈ (Serving.start conn socket).log, Unfed entry := by simp [Serving.start]
  rcases Serving.run_unfed arounds final nothing ran _ started exchange rfl with
    ⟨noLength, noBody, named⟩
  refine ⟨named, fun programs terminal capacity room =>
    ⟨(exchange.child programs terminal).stepsOn [] +
      2 * ((exchange.child programs terminal).outputOn []).length + 6,
      fun processes relay sent ran => ?_⟩⟩
  rw [Exchange.relay, noBody] at ran
  have unread := Relay.run_unread noLength ran
  rw [Exchange.child_ends] at unread
  refine ⟨?_, unread.1, unread.2, fun ends still => ?_⟩
  · have length := Relay.run_length ran
    rw [Relay.bodyOf_nil noLength, List.length_nil] at length
    omega
  · rw [← Exchange.child_outputOn]
    exact Relay.run_unreading room noLength (Exchange.child_ends.mpr ends) ran still

/-- A file that everybody may execute. -/
def executableFile : Surroundings :=
  ⟨fun _ => some ⟨⟨false, true⟩, 0⟩, fun _ => some [], some 0, []⟩

theorem programs_unfed_reader : ∃ final parsed exchange,
    runAll Serving.step (Serving.start CgiConn.fresh [ascii "GET /a?b HTTP/1.0\r\n\r\n"])
      [executableFile] = .ok final ∧
    (parsed, .program exchange) ∈ final.log ∧
    exchange.environment.queryString = some (ascii "b") ∧
    ∀ processes relay sent, runSteps (Relay.step 65536)
        (exchange.relay (fun _ _ => .read fun byte => .write byte .exit) true) processes =
          some (relay, sent) →
      relay.input = [] ∧ relay.father ≠ .done := by
  have evaluated : (runAll Serving.step
      (Serving.start CgiConn.fresh [ascii "GET /a?b HTTP/1.0\r\n\r\n"]) [executableFile]).map
        Serving.log = .ok [(⟨ascii "GET /a?b HTTP/1.0", .get, ascii "a", ascii "b"⟩,
          .program ⟨ascii "a", [], ⟨some (ascii "GET"), some (ascii "b"), none⟩, -1, []⟩)] := by
    decide +kernel
  rcases map_eq_ok evaluated with ⟨final, ran, log⟩
  have started := log ▸ List.mem_singleton_self _
  refine ⟨final, _, _, ran, started, rfl, fun processes relay sent steps => ?_⟩
  rcases (programs_unfed _ _ _ final ran _ _ started).2 (fun _ _ => .read fun byte =>
    .write byte .exit) true 65536 (by decide) with ⟨bound, always⟩
  rcases always processes relay sent steps with ⟨_, empty, waits, _⟩
  exact ⟨empty, waits id⟩

/-! ## The first request -/

/-- What the first request of a connection is answered with, and whether the connection stays. -/
def answerTo (around : Surroundings) (parsed : Parsed) : Outcome (Reply × Bool) :=
  match around.stat parsed.file with
  | none => .ok (.text notFoundText, true)
  | some st =>
      if st.mode.isDirectory then
        .ok (.text (echoWww around (parsed.file ++ ascii "/index.html") st.size), false)
      else if st.mode.executable then
        (cgiReply around.stack parsed parsed.file).map fun reply => (reply, true)
      else .ok (.text (echoWww around parsed.file st.size), false)

theorem stringOf_set {buf : List Byte} {count : Nat} (within : count < buf.length) :
    stringOf (buf.set count 0) = stringOf (buf.take count) := by
  induction buf generalizing count with
  | nil => cases within
  | cons byte buf induction =>
      cases count with
      | zero => rfl
      | succ count =>
          have rest := induction (Nat.lt_of_succ_lt_succ within)
          rw [stringOf, stringOf] at rest
          rw [List.set_cons_succ, List.take_succ_cons, stringOf, stringOf, List.takeWhile_cons,
            List.takeWhile_cons, rest]

theorem firstLineEnd_append {past bytes : List Byte}
    (unended : firstLineEnd (past ++ bytes) = none) : firstLineEnd past = none := by
  rw [firstLineEnd, List.find?_eq_none] at unended ⊢
  intro idx member
  rw [List.mem_range] at member
  have later := unended idx (by
    rw [List.mem_range, List.length_append]
    omega)
  rw [List.getElem?_append_left (by omega), List.getElem?_append_left member] at later
  exact later

section TakeLine

variable {past bytes : List Byte} {conn : CgiConn}

theorem takeLine_none (has : CgiConn.HasReceived past (conn, []))
    (fits : (past ++ bytes).length ≤ bufferSize) (unended : firstLineEnd (past ++ bytes) = none) :
    conn.takeLine bytes = .ok (none, conn.filled bytes) := by
  rcases has.filled fits with ⟨_, readIdx, content⟩
  have noEnd := CgiConn.lineEnd_eq readIdx (content rfl) (has.uncut rfl).2
  rw [unended, ← has.readIdx] at noEnd
  rw [CgiConn.takeLine, has.receive_iff.mp fits, Outcome.ok_bind]
  dsimp only at noEnd ⊢
  rw [noEnd]
  rfl

theorem takeLine_some (has : CgiConn.HasReceived past (conn, []))
    (fits : (past ++ bytes).length ≤ bufferSize) {idx : Nat}
    (ended : firstLineEnd (past ++ bytes) = some idx) :
    ∃ filled, conn.takeLine bytes =
      .ok (some (stringOf ((past ++ bytes).take (idx - 1))), filled) := by
  rcases has.filled fits with ⟨bufferLength, readIdx, content⟩
  have isEnd := CgiConn.lineEnd_eq readIdx (content rfl) (has.uncut rfl).2
  rw [ended, ← has.readIdx] at isEnd
  rcases has.takeLine fits with ⟨line, filled, taken, _, _, uncut⟩
  dsimp only at isEnd taken uncut content bufferLength
  cases line with
  | none =>
      rw [(uncut rfl rfl).2] at ended
      cases ended
  | some line =>
      have within : idx < (past ++ bytes).length := by
        have member := List.mem_of_find?_eq_some ended
        rwa [List.mem_range] at member
      have room : idx - 1 < (conn.filled bytes).buf.length := by omega
      have front := congrArg (List.take (idx - 1)) (content rfl)
      rw [List.take_take, Nat.min_eq_left (by omega)] at front
      have isLine : line = stringOf ((past ++ bytes).take (idx - 1)) := by
        rw [CgiConn.takeLine, has.receive_iff.mp fits, Outcome.ok_bind] at taken
        dsimp only at taken
        rw [isEnd] at taken
        simp only [writeAt_of_lt _ room, Outcome.ok_bind] at taken
        rcases Outcome.bind_eq_ok taken with ⟨fileName, isString, same⟩
        cases same
        rw [cString] at isString
        split at isString
        · cases isString
          have isSet := stringOf_set room
          rw [stringOf] at isSet
          rw [List.drop_zero, isSet, front]
        · cases isString
      exact ⟨filled, by rw [taken, isLine]⟩

end TakeLine

/-- On a connection that has started no program, the answer is that of `answerTo`. -/
theorem Serving.answer_first (serving : Serving) (parsed : Parsed)
    (method : parsed.method = serving.conn.method) (file : parsed.file = serving.conn.file)
    (querystring : parsed.querystring = serving.conn.querystring)
    (line : parsed.line = stringOf serving.conn.buf) (noCgi : serving.conn.cgi = false)
    (registered : serving.registered = true) (around : Surroundings) :
    ((serving.answer around parsed).map leftBy).map (fun after => (after.log, after.registered)) =
      (answerTo around parsed).map fun answer =>
        (serving.log ++ [(parsed, answer.1)], answer.2) := by
  rw [answer, answerTo, file]
  cases around.stat serving.conn.file with
  | none => exact congrArg (fun stays => Except.ok (_, stays)) registered
  | some st =>
      dsimp only
      rcases dropHeader_ended serving.socket with ⟨rest, dropped, _⟩
      by_cases directory : st.mode.isDirectory = true
      · have kept : serving.conn.distinguish st.mode =
            { serving.conn with file := serving.conn.file ++ ascii "/index.html" } :=
          if_pos directory
        rw [kept, if_pos directory, dropped, Outcome.ok_bind]
        dsimp only
        rw [noCgi]
        rfl
      · by_cases executable : st.mode.executable = true
        · have kept : serving.conn.distinguish st.mode = { serving.conn with cgi := true } := by
            rw [CgiConn.distinguish, if_neg directory, if_pos executable]
          have run : ∃ behind, CgiConn.execCgi { serving.conn with cgi := true } around.stack
              serving.socket = ((cgiReply around.stack parsed serving.conn.file).map
                fun reply => (reply, behind)) ∧ pending behind ≤ pending serving.socket :=
            CgiConn.execCgi_eq method querystring line around.stack serving.socket
          rcases run with ⟨behind, run, _⟩
          rw [kept, if_neg directory, if_pos executable, run]
          cases cgiReply around.stack parsed serving.conn.file with
          | error fault => rfl
          | ok reply => exact congrArg (fun stays => Except.ok (_, stays)) registered
        · have kept : serving.conn.distinguish st.mode = serving.conn := by
            rw [CgiConn.distinguish, if_neg directory, if_neg executable]
          rw [kept, if_neg directory, if_neg executable, dropped, Outcome.ok_bind, noCgi]
          rfl

/-- A connection on which no line end has arrived yet. -/
structure Waits (past : List Byte) (rest : Socket) (serving : Serving) : Prop where
  has : CgiConn.HasReceived past (serving.conn, [])
  clean : CgiConn.Clean serving.conn
  socket : serving.socket = rest
  log : serving.log = []
  registered : serving.registered = true

theorem recv_piece {piece : List Byte} (fits : piece.length ≤ bufferSize) (found : piece ≠ [])
    (rest : Socket) : recv bufferSize (piece :: rest) = (some piece, rest) := by
  cases piece with
  | nil => exact absurd rfl found
  | cons byte bytes =>
      rw [List.length_cons] at fits
      rw [recv, List.take_of_length_le (by rw [List.length_cons]; omega), if_pos (by omega)]

theorem start_waits {conn : CgiConn} (constructed : CgiConn.Constructed conn) (socket : Socket) :
    Waits [] socket (Serving.start conn socket) where
  has := CgiConn.hasReceived_init conn
  clean := ⟨⟨constructed.file, constructed.querystring⟩, rfl⟩
  socket := rfl
  log := rfl
  registered := rfl

section Waits

variable {past piece : List Byte} {rest : Socket} {serving : Serving}

/-- A piece without a line end is kept. -/
theorem Waits.step (waits : Waits past (piece :: rest) serving)
    (fits : (past ++ piece).length ≤ bufferSize) (unended : firstLineEnd (past ++ piece) = none)
    (around : Surroundings) :
    ∃ after, serving.step around = .ok after ∧ Waits (past ++ piece) rest after := by
  have short : piece.length ≤ bufferSize := by
    rw [List.length_append] at fits
    omega
  rw [Serving.step, if_pos waits.registered, Serving.processPass, waits.socket]
  by_cases found : piece = []
  · rw [found, List.append_nil]
    exact ⟨_, rfl, waits.has, waits.clean, rfl, waits.log, waits.registered⟩
  · rw [recv_piece short found]
    have taken := takeLine_none waits.has fits unended
    rcases waits.has.filled fits with ⟨bufferLength, readIdx, content⟩
    cases piece with
    | nil => exact absurd rfl found
    | cons byte bytes =>
        dsimp only
        rw [taken, Outcome.ok_bind]
        exact ⟨_, rfl, ⟨bufferLength, readIdx, fits, fun uncut => ⟨content uncut, unended⟩⟩,
          ⟨⟨waits.clean.file, waits.clean.querystring⟩, waits.clean.cgi⟩, rfl, waits.log,
          waits.registered⟩

theorem Waits.run {pieces : List (List Byte)} (waits : Waits past (pieces ++ rest) serving)
    (fits : (past ++ pieces.flatten).length ≤ bufferSize)
    (unended : firstLineEnd (past ++ pieces.flatten) = none) (arounds : List Surroundings)
    (each : arounds.length = pieces.length) :
    ∃ after, runAll Serving.step serving arounds = .ok after ∧
      Waits (past ++ pieces.flatten) rest after := by
  induction pieces generalizing past serving arounds with
  | nil =>
      rw [List.length_eq_zero_iff.mp each, List.flatten_nil, List.append_nil]
      exact ⟨serving, rfl, waits⟩
  | cons piece pieces induction =>
      cases arounds with
      | nil => cases each
      | cons around arounds =>
          rw [List.flatten_cons, ← List.append_assoc] at fits unended ⊢
          have first : (past ++ piece).length ≤ bufferSize := by
            rw [List.length_append] at fits
            omega
          rcases waits.step first (firstLineEnd_append unended) around with ⟨middle, stepped, next⟩
          rcases induction next fits unended arounds (Nat.succ.inj each) with ⟨after, ran, final⟩
          refine ⟨after, ?_, final⟩
          rw [runAll, stepped, Outcome.ok_bind]
          exact ran

/-- The piece with the line end is answered. -/
theorem Waits.answered (waits : Waits past (piece :: rest) serving)
    (fits : (past ++ piece).length ≤ bufferSize) {idx : Nat}
    (ended : firstLineEnd (past ++ piece) = some idx) (around : Surroundings) :
    (serving.step around).map (fun after => (after.log, after.registered)) =
      (answerTo around (CgiConn.parse [] [] (stringOf ((past ++ piece).take (idx - 1))))).map
        fun answer =>
          ([(CgiConn.parse [] [] (stringOf ((past ++ piece).take (idx - 1))), answer.1)],
            answer.2) := by
  have short : piece.length ≤ bufferSize := by
    rw [List.length_append] at fits
    omega
  have found : piece ≠ [] := by
    intro nothing
    rw [nothing, List.append_nil, (waits.has.uncut rfl).2] at ended
    cases ended
  rcases takeLine_some waits.has fits ended with ⟨filled, taken⟩
  generalize stringOf ((past ++ piece).take (idx - 1)) = line at taken ⊢
  rcases CgiConn.takeLine_same taken with ⟨sameFile, sameQuery, sameCgi⟩
  have isParsed := CgiConn.getMethod_parsed filled line
  rw [sameFile, sameQuery, waits.clean.file, waits.clean.querystring] at isParsed
  have noCgi : (filled.getMethod line).cgi = false :=
    CgiConn.getMethod_cgi (sameCgi.trans waits.clean.cgi) line
  have buf := (CgiConn.getMethod_same filled line).1
  have isLine := (takeLine_line taken).trans (congrArg stringOf buf.symm)
  rw [Serving.step, if_pos waits.registered, Serving.processPass, waits.socket,
    recv_piece short found]
  cases piece with
  | nil => exact absurd rfl found
  | cons byte bytes =>
      dsimp only
      rw [taken, Outcome.ok_bind]
      dsimp only
      rw [isParsed]
      have first := Serving.answer_first
        ⟨filled.getMethod line, rest, serving.log, serving.registered⟩ (CgiConn.parse [] [] line)
        (by rw [← isParsed]) (by rw [← isParsed]) (by rw [← isParsed]) isLine noCgi
        waits.registered around
      rw [waits.log] at first ⊢
      exact first

end Waits

def shortPage : Surroundings :=
  ⟨fun _ => some ⟨⟨false, false⟩, 5⟩, fun _ => some (ascii "hello, world"), some 4096, []⟩

end DataStructAlgorithm.HTTPD1
