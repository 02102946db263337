import DataStructAlgorithm.HTTPD1.CgiConn

/-! # Histories of connections

What `get_method` computes for the first request line of a connection, after other connections
that have used the same object. -/

namespace DataStructAlgorithm.HTTPD1

open Foundation

/-- The bytes that the loop of `get_method` takes for the file and for the query. -/
def targetParts : (flag : Bool) → List Byte → List Byte × List Byte
  | _, [] => ([], [])
  | flag, byte :: str =>
      if isSpace byte then ([], [])
      else if byte = 63 then
        match str with
        | [] => ([], [0])
        | next :: str => ((targetParts true str).1, next :: (targetParts true str).2)
      else if flag then ((targetParts flag str).1, byte :: (targetParts flag str).2)
      else (byte :: (targetParts flag str).1, (targetParts flag str).2)

theorem targetParts_cons (byte : Byte) (flag : Bool) (str : List Byte) :
    targetParts flag (byte :: str) =
      if isSpace byte then ([], [])
      else if byte = 63 then
        match str with
        | [] => ([], [0])
        | next :: str => ((targetParts true str).1, next :: (targetParts true str).2)
      else if flag then ((targetParts flag str).1, byte :: (targetParts flag str).2)
      else (byte :: (targetParts flag str).1, (targetParts flag str).2) := by
  cases str with
  | nil => rfl
  | cons next str => rfl

/-- The file and the query of a request line. -/
def lineParts (line : List Byte) : List Byte × List Byte :=
  match strchr line 47 with
  | some pos => targetParts false (line.drop (pos + 1))
  | none => ([], [])

namespace CgiConn

/-- What `get_method` leaves in an object that has a file and a query already. -/
def parse (file querystring line : List Byte) : Parsed :=
  ⟨line, methodOf line, file ++ (lineParts line).1, querystring ++ (lineParts line).2⟩

theorem targetLoop_eq (str : List Byte) (flag : Bool) (conn : CgiConn) :
    targetLoop str flag conn = { conn with
      file := conn.file ++ (targetParts flag str).1
      querystring := conn.querystring ++ (targetParts flag str).2 } := by
  fun_induction targetLoop str flag conn with
  | case1 flag conn => simp [targetParts]
  | case2 byte str flag conn space => simp [targetParts_cons, space]
  | case3 flag conn notSpace => simp [targetParts_cons, isSpace]
  | case4 flag conn next str notSpace induction =>
      rw [induction]
      simp [targetParts_cons 63, isSpace]
  | case5 byte str conn notSpace notMark induction =>
      rw [induction]
      simp [targetParts_cons byte, notSpace, notMark]
  | case6 byte str flag conn notSpace notMark notFlag induction =>
      rw [induction]
      simp [targetParts_cons byte, notSpace, notMark, notFlag]

theorem getMethod_parsed (conn : CgiConn) (line : List Byte) :
    (⟨line, (conn.getMethod line).method, (conn.getMethod line).file,
      (conn.getMethod line).querystring⟩ : Parsed) = parse conn.file conn.querystring line := by
  rw [getMethod, parse, lineParts]
  cases strchr line 47 with
  | none => simp
  | some pos => simp [targetLoop_eq]

theorem takeLine_same {conn after : CgiConn} {bytes : List Byte} {line : Option (List Byte)}
    (taken : conn.takeLine bytes = .ok (line, after)) :
    after.file = conn.file ∧ after.querystring = conn.querystring ∧ after.cgi = conn.cgi := by
  rcases Outcome.bind_eq_ok taken with ⟨filled, received, taken⟩
  rw [receive] at received
  split at received
  · cases received
    split at taken
    · cases taken
      exact ⟨rfl, rfl, rfl⟩
    · rcases Outcome.bind_eq_ok taken with ⟨buf, _, taken⟩
      rcases Outcome.bind_eq_ok taken with ⟨fileName, _, taken⟩
      cases taken
      exact ⟨rfl, rfl, rfl⟩
  · cases received

/-! ## The first request line of a connection -/

/-- The strings are those before the connection until the first request line has been parsed, and
are parsed from those. -/
def Begins (file querystring : List Byte) : CgiConn × List Parsed → Prop
  | (conn, []) => conn.file = file ∧ conn.querystring = querystring
  | (_, first :: _) => first = parse file querystring first.line

section Begins

variable {file querystring : List Byte}

theorem Begins.congr {conn next : CgiConn} {parsed : List Parsed}
    (begins : Begins file querystring (conn, parsed)) (sameFile : next.file = conn.file)
    (sameQuery : next.querystring = conn.querystring) :
    Begins file querystring (next, parsed) := by
  cases parsed with
  | nil => exact ⟨sameFile.trans begins.1, sameQuery.trans begins.2⟩
  | cons first rest => exact begins

/-- Another request line has been parsed. -/
theorem Begins.parsed {conn : CgiConn} {parsed : List Parsed}
    (begins : Begins file querystring (conn, parsed)) (line : List Byte) (next : CgiConn) :
    Begins file querystring (next, parsed ++ [parse conn.file conn.querystring line]) := by
  cases parsed with
  | nil =>
      rcases begins with ⟨rfl, rfl⟩
      rfl
  | cons first rest => exact begins

/-- A property of what a pass leaves. -/
def PassHolds (holds : CgiConn × List Parsed → Prop) :
    Pass Processing (CgiConn × List Parsed) → Prop
  | .again next => holds (next.conn, next.parsed)
  | .leave final => holds final

theorem answer_holds {holds : CgiConn × List Parsed → Prop} {parsed : List Parsed}
    (always : ∀ next, holds (next, parsed)) (conn : CgiConn) (stat : List Byte → Option FileMode)
    (arrivals : List Arrival) : PassHolds holds (conn.answer parsed stat arrivals) := by
  rw [answer]
  split
  · exact always _
  · dsimp only
    split
    · exact always _
    · exact always _

theorem processPass_begins {state : Processing} {result : Pass Processing (CgiConn × List Parsed)}
    (begins : Begins file querystring (state.conn, state.parsed))
    (passed : processPass state = .ok result) : PassHolds (Begins file querystring) result := by
  rw [processPass] at passed
  split at passed
  · cases passed
    exact begins
  · dsimp only at passed
    split at passed
    · cases passed
      exact begins
    · rcases Outcome.bind_eq_ok passed with ⟨⟨line, conn⟩, taken, passed⟩
      rcases takeLine_same taken with ⟨sameFile, sameQuery, _⟩
      cases line with
      | none =>
          cases passed
          exact begins.congr sameFile sameQuery
      | some fileName =>
          cases passed
          apply answer_holds
          intro next
          rw [getMethod_parsed, sameFile, sameQuery]
          exact begins.parsed fileName next

theorem step_begins {state after : CgiConn × List Parsed} {arrivals : List Arrival}
    (begins : Begins file querystring state) (stepped : step state (.process arrivals) = .ok after) :
    Begins file querystring after := by
  apply repeatLoop_partial (fun state => Begins file querystring (state.conn, state.parsed))
    (Begins file querystring) _ _ _ _ _ begins stepped
  · intro state next kept passed
    exact processPass_begins kept passed
  · intro state final kept passed
    exact processPass_begins kept passed

end Begins

/-- What the worker does for one connection. -/
def connection (calls : List (List Arrival)) : List Action := .init :: calls.map .process

/-- The first request line of a connection is parsed with the strings that the object has had
before. -/
theorem connection_begins {state after : CgiConn × List Parsed} {calls : List (List Arrival)}
    (ran : runAll step state (connection calls) = .ok after) :
    Begins state.1.file state.1.querystring after := by
  have start : Begins state.1.file state.1.querystring (state.1.init, []) := ⟨rfl, rfl⟩
  change runAll step (state.1.init, []) (calls.map .process) = .ok after at ran
  generalize (state.1.init, ([] : List Parsed)) = middle at ran start
  induction calls generalizing middle with
  | nil =>
      cases ran
      exact start
  | cons arrivals calls induction =>
      rcases Outcome.bind_eq_ok ran with ⟨next, stepped, others⟩
      exact induction next others (step_begins start stepped)

/-! ## Connections that leave nothing -/

/-- If the pass completes a request line, it has no query, and its file is a directory or a file
that is not executable. -/
def Plain (state : Processing) : Prop :=
  ∀ arrival arrivals line after, state.arrivals = arrival :: arrivals →
    state.conn.takeLine (arrival.bytes.take bufferSize) = .ok (some line, after) →
    (lineParts line).2 = [] ∧
      ∃ st, arrival.stat (state.conn.file ++ (lineParts line).1) = some st ∧
        (st.isDirectory = true ∨ st.executable = false)

/-- All passes of a call of `process` are such. -/
def PlainStep (state : CgiConn × List Parsed) : Action → Prop
  | .init => True
  | .process arrivals =>
      EveryPass processPass Plain (arrivals.length + 1) ⟨state.1, state.2, arrivals⟩

/-- Nothing is left of earlier connections. -/
structure Clean (conn : CgiConn) : Prop extends Constructed conn where
  cgi : conn.cgi = false

theorem targetLoop_cgi (str : List Byte) (flag : Bool) (conn : CgiConn) :
    (targetLoop str flag conn).cgi = conn.cgi := by
  rw [targetLoop_eq]

theorem getMethod_cgi {conn : CgiConn} (noCgi : conn.cgi = false) (line : List Byte) :
    (conn.getMethod line).cgi = false := by
  rw [getMethod]
  cases strchr line 47 with
  | none => rfl
  | some pos =>
      rw [← noCgi]
      exact targetLoop_cgi _ _ _

theorem distinguish_cgi {conn : CgiConn} (noCgi : conn.cgi = false) {st : FileMode}
    (served : st.isDirectory = true ∨ st.executable = false) :
    (conn.distinguish st).cgi = false := by
  rw [distinguish]
  split
  · exact noCgi
  · rename_i notDirectory
    rcases served with isDirectory | notExecutable
    · exact absurd isDirectory notDirectory
    · rw [notExecutable]
      exact noCgi

theorem distinguish_querystring (conn : CgiConn) (st : FileMode) :
    (conn.distinguish st).querystring = conn.querystring := by
  rw [distinguish]
  split
  · rfl
  · split
    · rfl
    · rfl

/-- A file that is no program is sent, and its name forgotten. -/
theorem answer_clean {conn : CgiConn} (noQuery : conn.querystring = []) (noCgi : conn.cgi = false)
    {stat : List Byte → Option FileMode} {st : FileMode} (found : stat conn.file = some st)
    (served : st.isDirectory = true ∨ st.executable = false) (parsed : List Parsed)
    (arrivals : List Arrival) :
    PassHolds (fun after => Clean after.1) (conn.answer parsed stat arrivals) := by
  have stays := distinguish_cgi noCgi served
  rw [answer, found]
  dsimp only
  rw [stays]
  exact ⟨⟨rfl, (distinguish_querystring conn st).trans noQuery⟩, rfl⟩

theorem processPass_clean {state : Processing} {result : Pass Processing (CgiConn × List Parsed)}
    (clean : Clean state.conn) (plain : Plain state) (passed : processPass state = .ok result) :
    PassHolds (fun after => Clean after.1) result := by
  rw [processPass] at passed
  split at passed
  · cases passed
    exact clean
  · rename_i arrival arrivals isFirst
    dsimp only at passed
    split at passed
    · cases passed
      exact clean
    · rcases Outcome.bind_eq_ok passed with ⟨⟨line, conn⟩, taken, passed⟩
      rcases takeLine_same taken with ⟨sameFile, sameQuery, sameCgi⟩
      have empty : Clean conn := ⟨⟨sameFile.trans clean.file, sameQuery.trans clean.querystring⟩,
        sameCgi.trans clean.cgi⟩
      cases line with
      | none =>
          cases passed
          exact empty
      | some fileName =>
          cases passed
          rcases plain arrival arrivals fileName conn isFirst taken with
            ⟨noQuery, st, found, served⟩
          have parsed := getMethod_parsed conn fileName
          have isFile := congrArg Parsed.file parsed
          have isQuery := congrArg Parsed.querystring parsed
          dsimp only [parse] at isFile isQuery
          rw [empty.querystring, noQuery] at isQuery
          rw [sameFile] at isFile
          rw [← isFile] at found
          exact answer_clean isQuery (getMethod_cgi empty.cgi fileName) found served _ arrivals

theorem step_clean {state after : CgiConn × List Parsed} {arrivals : List Arrival}
    (clean : Clean state.1) (plain : PlainStep state (.process arrivals))
    (stepped : step state (.process arrivals) = .ok after) : Clean after.1 := by
  apply repeatLoop_partial_every Plain (fun state => Clean state.conn)
    (fun after => Clean after.1) _ _ _ _ _ clean plain stepped
  · intro state next kept now passed
    exact processPass_clean kept now passed
  · intro state final kept now passed
    exact processPass_clean kept now passed

theorem connection_constructed {state after : CgiConn × List Parsed} {calls : List (List Arrival)}
    (constructed : Constructed state.1) (plain : EveryStep step PlainStep state (connection calls))
    (ran : runAll step state (connection calls) = .ok after) : Constructed after.1 := by
  have start : Clean state.1.init := ⟨⟨constructed.file, constructed.querystring⟩, rfl⟩
  have later := plain.2 (state.1.init, []) rfl
  have final : Clean after.1 := by
    apply runAll_keeps (fun state => Clean state.1) _ (calls.map Action.process) (state.1.init, []) after
      start later ran
    intro middle action next clean plain stepped
    cases action with
    | init =>
        cases stepped
        exact ⟨⟨clean.file, clean.querystring⟩, rfl⟩
    | process arrivals => exact step_clean clean plain stepped
  exact final.toConstructed

theorem connections_constructed (earlier : List (List (List Arrival)))
    {state after : CgiConn × List Parsed} (constructed : Constructed state.1)
    (plain : EveryStep step PlainStep state (earlier.flatMap connection))
    (ran : runAll step state (earlier.flatMap connection) = .ok after) : Constructed after.1 := by
  induction earlier generalizing state with
  | nil =>
      cases ran
      exact constructed
  | cons calls earlier induction =>
      rw [List.flatMap_cons] at plain ran
      rcases runAll_split ran with ⟨middle, first, others⟩
      exact induction (connection_constructed constructed plain.left first)
        (plain.of_append first) others

/-! ## Two histories -/

theorem parse_eq_iff (file querystring otherFile otherQuerystring line : List Byte) :
    parse file querystring line = parse otherFile otherQuerystring line ↔
      file = otherFile ∧ querystring = otherQuerystring := by
  simp [parse]

/-- For a request line that is the first one of its connection, `get_method` computes the same
after two histories exactly if they have left the same file and the same query in the object.
They have if every request in them is for a file that is no program and has no query. -/
theorem parsed_eq_iff {conn other : CgiConn} (constructed : Constructed conn)
    (otherConstructed : Constructed other) {earlier otherEarlier : List (List (List Arrival))}
    {left right : CgiConn × List Parsed}
    (ran : runAll step (conn, []) (earlier.flatMap connection) = .ok left)
    (otherRan : runAll step (other, []) (otherEarlier.flatMap connection) = .ok right)
    {calls otherCalls : List (List Arrival)} {after otherAfter : CgiConn}
    {first second : Parsed} {rest others : List Parsed}
    (parsed : runAll step left (connection calls) = .ok (after, first :: rest))
    (otherParsed : runAll step right (connection otherCalls) = .ok (otherAfter, second :: others))
    (sameLine : first.line = second.line) :
    (first = second ↔ left.1.file = right.1.file ∧ left.1.querystring = right.1.querystring) ∧
      (EveryStep step PlainStep (conn, []) (earlier.flatMap connection) →
        EveryStep step PlainStep (other, []) (otherEarlier.flatMap connection) →
          first = second) := by
  have isFirst : first = parse left.1.file left.1.querystring first.line := connection_begins parsed
  have isSecond : second = parse right.1.file right.1.querystring second.line :=
    connection_begins otherParsed
  have same : first = second ↔
      left.1.file = right.1.file ∧ left.1.querystring = right.1.querystring := by
    rw [isFirst, isSecond, sameLine]
    exact parse_eq_iff _ _ _ _ second.line
  refine ⟨same, fun plain otherPlain => same.mpr ?_⟩
  have leaves := connections_constructed earlier constructed plain ran
  have otherLeaves := connections_constructed otherEarlier otherConstructed otherPlain otherRan
  rw [leaves.file, leaves.querystring, otherLeaves.file, otherLeaves.querystring]
  exact ⟨rfl, rfl⟩

/-! ## Runs -/

/-- A new object, the members that have no value being zero. -/
def fresh : CgiConn := ⟨.other, [], [], [], false, 0⟩

/-- A connection with one request line, and what `stat` finds. -/
def request (line : String) (found : Option FileMode) : List (List Arrival) :=
  [[⟨ascii line, fun _ => found⟩]]

theorem exists_of_map {outcome : Outcome (CgiConn × List Parsed)} {parsed : List Parsed}
    (isParsed : outcome.map Prod.snd = .ok parsed) : ∃ after, outcome = .ok (after, parsed) := by
  cases outcome with
  | error fault => cases isParsed
  | ok final =>
      cases isParsed
      exact ⟨final.1, rfl⟩

/-- After a file that is no program, the same is parsed as in a new object. -/
theorem parsed_eq_iff_file :
    let earlier := [request "GET /a HTTP/1.1\r\n" (some ⟨false, false⟩)]
    let parsed : Parsed := ⟨ascii "GET /b HTTP/1.1", .get, ascii "b", []⟩
    ∃ left right : CgiConn × List Parsed,
      runAll step (fresh, []) (earlier.flatMap connection) = .ok left ∧
      runAll step (fresh, []) [] = .ok right ∧
      (parsed = parsed ↔ left.1.file = right.1.file ∧ left.1.querystring = right.1.querystring) ∧
      (EveryStep step PlainStep (fresh, []) (earlier.flatMap connection) →
        EveryStep step PlainStep (fresh, []) [] → parsed = parsed) := by
  intro earlier parsed
  have whole : (runAll step (fresh, []) (earlier.flatMap connection ++
      connection (request "GET /b HTTP/1.1\r\n" none))).map Prod.snd = .ok [parsed] := by
    decide +kernel
  have alone : (runAll step (fresh, []) (connection
      (request "GET /b HTTP/1.1\r\n" none))).map Prod.snd = .ok [parsed] := by
    decide +kernel
  rcases exists_of_map whole with ⟨after, run⟩
  rcases exists_of_map alone with ⟨otherAfter, otherRun⟩
  rcases runAll_split run with ⟨left, ran, later⟩
  have constructed : Constructed fresh := ⟨rfl, rfl⟩
  have nothing : runAll step (fresh, []) (([] : List (List (List Arrival))).flatMap connection) =
      .ok (fresh, []) := rfl
  exact ⟨left, (fresh, []), ran, rfl,
    parsed_eq_iff constructed constructed ran nothing later otherRun rfl⟩

/-- A file that is not found leaves its name, and a query stays in every case. -/
theorem earlier_parsed :
    (runAll step (fresh, []) (connection (request "GET /b HTTP/1.1\r\n" none))).map Prod.snd =
      .ok [⟨ascii "GET /b HTTP/1.1", .get, ascii "b", []⟩] ∧
    (runAll step (fresh, []) (connection (request "GET /a HTTP/1.1\r\n" none) ++
        connection (request "GET /b HTTP/1.1\r\n" none))).map Prod.snd =
      .ok [⟨ascii "GET /b HTTP/1.1", .get, ascii "ab", []⟩] ∧
    (runAll step (fresh, []) (connection (request "GET /a?c HTTP/1.1\r\n" (some ⟨false, false⟩)) ++
        connection (request "GET /b HTTP/1.1\r\n" none))).map Prod.snd =
      .ok [⟨ascii "GET /b HTTP/1.1", .get, ascii "b", ascii "c"⟩] := by
  refine ⟨?_, ?_, ?_⟩
  · decide +kernel
  · decide +kernel
  · decide +kernel

end CgiConn

end DataStructAlgorithm.HTTPD1
