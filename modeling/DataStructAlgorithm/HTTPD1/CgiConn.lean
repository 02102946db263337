import DataStructAlgorithm.Foundation.CString
import DataStructAlgorithm.Foundation.Lines
import DataStructAlgorithm.Foundation.Transition

/-! # The connection objects of `HTTPD1.0/cpy_cgi.cpp`

The worker keeps a `cgi_conn` for every descriptor and calls `init` when a descriptor is used
again. What is sent to the client is not modelled. -/

namespace DataStructAlgorithm.HTTPD1

open Foundation

/-- `BUFFER_SIZE` -/
def bufferSize : Nat := 1024

inductive Method
  | get
  | post
  | other
  deriving DecidableEq, Repr

structure CgiConn where
  method : Method
  file : List Byte
  querystring : List Byte
  buf : List Byte
  cgi : Bool
  readIdx : Nat
  deriving DecidableEq, Repr

/-- What `stat` tells about a file; executable by the owner, the group, or others. -/
structure FileMode where
  isDirectory : Bool
  executable : Bool
  deriving DecidableEq, Repr

/-- The bytes that a call of `recv` gives, and the files at that time. -/
structure Arrival where
  bytes : List Byte
  stat : List Byte → Option FileMode

/-- A request line, and what `get_method` leaves in the object. -/
structure Parsed where
  line : List Byte
  method : Method
  file : List Byte
  querystring : List Byte
  deriving DecidableEq, Repr

/-- `str.find(pattern) != std::string::npos` -/
def occurs (pattern str : List Byte) : Bool :=
  (List.range (str.length + 1)).any fun pos => pattern.isPrefixOf (str.drop pos)

namespace CgiConn

def init (conn : CgiConn) : CgiConn :=
  { conn with buf := List.replicate bufferSize 0, readIdx := 0, cgi := false }

/-- The loop of `get_method`, from the byte behind the slash on. -/
def targetLoop : (str : List Byte) → (flag : Bool) → CgiConn → CgiConn
  | [], _, conn => conn
  | byte :: str, flag, conn =>
      if isSpace byte then conn
      else if byte = 63 then
        match str with
        -- behind its end the string has a zero
        | [] => { conn with querystring := conn.querystring ++ [0] }
        | next :: str => targetLoop str true { conn with querystring := conn.querystring ++ [next] }
      else if flag then targetLoop str flag { conn with querystring := conn.querystring ++ [byte] }
      else targetLoop str flag { conn with file := conn.file ++ [byte] }

def methodOf (str : List Byte) : Method :=
  if occurs (ascii "GET") str ∨ occurs (ascii "get") str then .get
  else if occurs (ascii "POST") str ∨ occurs (ascii "post") str then .post
  else .other

def getMethod (conn : CgiConn) (str : List Byte) : CgiConn :=
  let conn := { conn with method := methodOf str }
  match strchr str 47 with
  | some pos => targetLoop (str.drop (pos + 1)) false conn
  | none => { conn with cgi := false }

/-- Bytes that `recv` stores behind the ones that are in the buffer. -/
def receive (conn : CgiConn) (bytes : List Byte) : Outcome CgiConn :=
  if conn.readIdx + bytes.length ≤ conn.buf.length then
    .ok { conn with
      buf := overwrite conn.buf conn.readIdx bytes, readIdx := conn.readIdx + bytes.length }
  else .error .outOfRange

/-- The line feed of the first line end, looked for from an index on. -/
def lineEnd (conn : CgiConn) (idx : Nat) : Option Nat :=
  (List.range' idx (conn.readIdx - idx)).find? fun idx => decide (1 ≤ idx ∧
    conn.buf[idx - 1]? = some carriageReturn ∧ conn.buf[idx]? = some lineFeed)

/-- The first line in the buffer, when a line end has arrived. -/
def takeLine (conn : CgiConn) (bytes : List Byte) : Outcome (Option (List Byte) × CgiConn) := do
  let idx := conn.readIdx
  let conn ← conn.receive bytes
  match conn.lineEnd idx with
  | none => pure (none, conn)
  | some idx => do
      let buf ← writeAt conn.buf (idx - 1) 0
      let fileName ← cString buf 0
      pure (some fileName, { conn with buf := buf })

/-- The state of the loop of `process`, with the request lines that have been parsed since
`init`. -/
structure Processing where
  conn : CgiConn
  parsed : List Parsed
  arrivals : List Arrival

/-- What `process` makes of the mode of the file. -/
def distinguish (conn : CgiConn) (st : FileMode) : CgiConn :=
  if st.isDirectory then { conn with file := conn.file ++ ascii "/index.html" }
  else if st.executable then { conn with cgi := true }
  else conn

/-- The rest of a pass, after `get_method`. -/
def answer (conn : CgiConn) (parsed : List Parsed) (stat : List Byte → Option FileMode)
    (arrivals : List Arrival) : Pass Processing (CgiConn × List Parsed) :=
  match stat conn.file with
  | none => .leave (conn, parsed)
  | some st =>
      let conn := conn.distinguish st
      if conn.cgi then .again ⟨conn, parsed, arrivals⟩
      else .leave ({ conn with file := [] }, parsed)

/-- A pass of the loop of `process`. Without more arrivals `recv` gives nothing, and it gives
nothing after the socket has been closed. -/
def processPass (state : Processing) : Outcome (Pass Processing (CgiConn × List Parsed)) :=
  match state.arrivals with
  | [] => .ok (.leave (state.conn, state.parsed))
  | arrival :: arrivals =>
      let bytes := arrival.bytes.take bufferSize
      if bytes = [] then .ok (.leave (state.conn, state.parsed))
      else do
        let (line, conn) ← state.conn.takeLine bytes
        match line with
        | none => pure (.again ⟨conn, state.parsed, arrivals⟩)
        | some fileName =>
            let conn := conn.getMethod fileName
            let parsed := state.parsed ++ [⟨fileName, conn.method, conn.file, conn.querystring⟩]
            pure (conn.answer parsed arrival.stat arrivals)

/-- What the worker does with an object. -/
inductive Action
  | init
  | process (arrivals : List Arrival)

def step (state : CgiConn × List Parsed) : Action → Outcome (CgiConn × List Parsed)
  | .init => .ok (state.1.init, [])
  | .process arrivals =>
      repeatLoop processPass (arrivals.length + 1) ⟨state.1, state.2, arrivals⟩

/-- An object as its constructor leaves it: only the strings have values. -/
structure Constructed (conn : CgiConn) : Prop where
  file : conn.file = []
  querystring : conn.querystring = []

end CgiConn

end DataStructAlgorithm.HTTPD1
