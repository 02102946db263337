import DataStructAlgorithm.HTTPD.CgiPrograms
import DataStructAlgorithm.HTTPD1.Receiving

/-! # What `cgi_conn` sends

The loop of `process` with everything that it calls. The socket does not block, so every call of
`recv` may find nothing. What is not modelled: errors of `recv` other than that, `pipe`, `fork` and
`execl` when they fail, and `send` when it does. -/

namespace DataStructAlgorithm.HTTPD1

open Foundation
open HTTPD (Environment Relay putVariable stringOf atoi)

/-! ## The socket -/

/-- What the calls of `recv` find. An entry is what has arrived when the one in front of it has been
taken, an empty entry is a call that finds nothing, and behind the last one the client has closed
the connection. -/
abbrev Socket := List (List Byte)

/-- What `recv` stores, or nothing when it returns -1. -/
def recv (count : Nat) : Socket → Option (List Byte) × Socket
  | [] => (some [], [])
  | [] :: rest => (none, rest)
  | (byte :: bytes) :: rest =>
      (some ((byte :: bytes).take count),
        if bytes.length < count then rest else (byte :: bytes).drop count :: rest)

/-- What `recv` of one byte stores with `MSG_PEEK`. -/
def peek : Socket → Option Byte × Socket
  | [] => (none, [])
  | [] :: rest => (none, rest)
  | (byte :: bytes) :: rest => (some byte, (byte :: bytes) :: rest)

/-- A bound on the number of calls of `recv` until the connection is closed. -/
def pending : Socket → Nat
  | [] => 0
  | bytes :: rest => bytes.length + 1 + pending rest

/-! ## Lines -/

structure LineState where
  socket : Socket
  line : List Byte
  ch : Byte

def getLinePass (size : Nat) (state : LineState) : Outcome (Pass LineState LineState) :=
  if state.ch ≠ lineFeed ∧ state.line.length < size - 1 then
    match recv 1 state.socket with
    | (some [ch], socket) =>
        if ch = carriageReturn then
          let (peeked, socket) := peek socket
          let socket := if peeked.getD ch = lineFeed then (recv 1 socket).2 else socket
          .ok (.again ⟨socket, state.line ++ [lineFeed], lineFeed⟩)
        else .ok (.again ⟨socket, state.line ++ [ch], ch⟩)
    | (_, socket) => .ok (.again ⟨socket, state.line, lineFeed⟩)
  else .ok (.leave state)

/-- The bytes of the line, whose number is the result of `get_line`. -/
def getLine (size : Nat) (socket : Socket) : Outcome (List Byte × Socket) := do
  let state ← repeatLoop (getLinePass size) (size + 2) ⟨socket, [], 0⟩
  pure (state.line, state.socket)

/-- A pass of the loops of `drop_header` and `exec_cgi`. -/
def headerPass {Memory : Type} (size : Nat) (visit : Memory → List Byte → Memory)
    (state : Memory × Socket) : Outcome (Pass (Memory × Socket) (Memory × Socket)) := do
  let (line, socket) ← getLine size state.2
  let memory := visit state.1 line
  if 0 < line.length ∧ stringOf line ≠ ascii "\n" then pure (.again (memory, socket))
  else pure (.leave (memory, socket))

def dropHeader (socket : Socket) : Outcome Socket := do
  let state ← repeatLoop (headerPass 1024 fun (memory : Unit) _ => memory) (pending socket + 1)
    ((), socket)
  pure state.2

/-- The loop of `exec_cgi` for `POST`. It looks for the name of the header in `m_buf`, and for its
value in the line that it has read. -/
def postHeader (buf : List Byte) (socket : Socket) : Outcome (Int × Socket) :=
  repeatLoop (headerPass (1024 / 10) fun contentLen line =>
      if sameStart 16 buf (ascii "Content-Length: ") then atoi (stringOf (line.drop 16))
      else contentLen)
    (pending socket + 1) (-1, socket)

/-- The bytes that the father writes to the program. -/
def receiveBody : Nat → (c : Byte) → Socket → List Byte × Socket
  | 0, _, socket => ([], socket)
  | count + 1, c, socket =>
      match recv 1 socket with
      | (some [byte], socket) =>
          let (body, socket) := receiveBody count byte socket
          (byte :: body, socket)
      | (_, socket) =>
          let (body, socket) := receiveBody count c socket
          (c :: body, socket)

/-! ## Answers -/

def serverString : List Byte := ascii "Server: httpd/0.1.0\r\n"

/-- `not_found` -/
def notFoundText : List Byte :=
  ascii "HTTP/1.0 404 NOT FOUND\r\n" ++ serverString ++ ascii "Content-Type: text/html\r\n" ++
    ascii "\r\n" ++ ascii "<HTML><TITLE>Not Found</TITLE>\r\n" ++
    ascii "<BODY><P>The server could not fulfill\r\n" ++
    ascii "your request because the resource specified\r\n" ++
    ascii "is unavailable or nonexistent.\r\n" ++ ascii "</BODY></HTML>\r\n"

/-- `cannot_execute` -/
def cannotExecuteText : List Byte :=
  ascii "HTTP/1.0 500 Internal Server Error\r\n" ++ ascii "Content-type: text/html\r\n" ++
    ascii "\r\n" ++ ascii "<P>Error prohibited CGI execution.\r\n"

/-- `headers` -/
def headersText : List Byte :=
  ascii "HTTP/1.0 200 OK\r\n" ++ serverString ++ ascii "Content-Type: text/html\r\n" ++
    ascii "\r\n"

/-- `bad_request` sends the whole buffer after each `sprintf`, with what was in it before. -/
def badRequestText (buf : List Byte) : List Byte :=
  let first := overwrite buf 0 (ascii "HTTP/1.0 400 BAD REQUEST\r\n" ++ [0])
  let second := overwrite first 0 (ascii "Content-type: text/html\r\n" ++ [0])
  let third := overwrite second 0 (ascii "\r\n" ++ [0])
  let fourth := overwrite third 0 (ascii "<P>Your browser sent a bad request, " ++ [0])
  let fifth := overwrite fourth 0 (ascii "such as a POST without a Content-Length.\r\n" ++ [0])
  first ++ second ++ third ++ fourth ++ fifth

deriving instance DecidableEq, Repr for Environment

/-- A program that `exec_cgi` starts: what the child prints in front of `execl`, and the body that
the father has for it. -/
structure Exchange where
  path : List Byte
  printed : List Byte
  environment : Environment
  contentLen : Int
  body : List Byte
  deriving DecidableEq, Repr

namespace Exchange

variable (exchange : Exchange) (programs : List Byte → Environment → ByteProgram) (terminal : Bool)

/-- The child from `execl` on. What is printed before gets out of its buffer only if that is written
at every line end, as for a terminal. -/
def child : ByteProgram :=
  let program := programs exchange.path exchange.environment
  if terminal then .print exchange.printed program else program

/-- The father and the child behind the `fork`. -/
def relay : Relay :=
  .start (exchange.child programs terminal) exchange.contentLen exchange.body

end Exchange

/-- What the client is sent: a text, or what a program writes. -/
inductive Reply
  | text (bytes : List Byte)
  | program (exchange : Exchange)
  deriving DecidableEq, Repr

structure FileStat where
  mode : FileMode
  size : Nat

/-- The files, how many bytes `sendfile` sends at most if it succeeds, and what is in the buffer of
`bad_request`. -/
structure Surroundings where
  stat : List Byte → Option FileStat
  content : List Byte → Option (List Byte)
  sendfile : Option Nat
  stack : List Byte

/-- `echo_www` -/
def echoWww (around : Surroundings) (file : List Byte) (size : Nat) : List Byte :=
  match around.content file with
  | none => notFoundText
  | some content =>
      headersText ++
        match around.sendfile with
        | none => cannotExecuteText
        | some room => (content.take size).take room

/-- What the child sets, and what it prints. -/
def childEnvironment (method : Method) (querystring : List Byte) (contentLen : Int) :
    Outcome (Environment × List Byte) :=
  match method with
  | .get => do
      let queryStringEnv ← putVariable (ascii "QUERY_STRING_ENV=") (stringOf querystring)
      pure (⟨some (ascii "GET"), some queryStringEnv, none⟩, [])
  | .post => do
      let contentLenEnv ← putVariable (ascii "CONTENT_LEN_ENV=") (decimal contentLen)
      pure (⟨some (ascii "POST"), none, some contentLenEnv⟩, [])
  | .other =>
      pure (⟨some (ascii "OTHER_METHOD"), none, none⟩, ascii "other method is other method\n")

namespace CgiConn

/-- What `exec_cgi` reads of the header, and `content_len`. -/
def header (conn : CgiConn) (socket : Socket) : Outcome (Int × Socket) :=
  match conn.method with
  | .get => do
      let socket ← dropHeader socket
      pure (-1, socket)
  | .post => postHeader conn.buf socket
  | .other => pure (-1, socket)

def execCgi (conn : CgiConn) (stack : List Byte) (socket : Socket) : Outcome (Reply × Socket) := do
  let (contentLen, socket) ← conn.header socket
  if conn.method = .post ∧ contentLen = -1 then pure (.text (badRequestText stack), socket)
  else do
    let (environment, printed) ← childEnvironment conn.method conn.querystring contentLen
    let (body, socket) :=
      if conn.method = .post then receiveBody contentLen.toNat 0 socket else ([], socket)
    pure (.program ⟨conn.file, printed, environment, contentLen, body⟩, socket)

end CgiConn

/-! ## The loop -/

/-- A connection of the worker, with the requests that have been answered on it. Without being
registered it is not processed any more. -/
structure Serving where
  conn : CgiConn
  socket : Socket
  log : List (Parsed × Reply)
  registered : Bool

namespace Serving

/-- The rest of a pass, after `get_method`. -/
def answer (around : Surroundings) (serving : Serving) (parsed : Parsed) :
    Outcome (Pass Serving Serving) :=
  match around.stat serving.conn.file with
  | none => .ok (.leave { serving with log := serving.log ++ [(parsed, .text notFoundText)] })
  | some st => do
      let conn := serving.conn.distinguish st.mode
      if conn.cgi then do
        let (reply, socket) ← conn.execCgi around.stack serving.socket
        pure (.again ⟨conn, socket, serving.log ++ [(parsed, reply)], serving.registered⟩)
      else do
        let socket ← dropHeader serving.socket
        -- behind `close` the next `recv` fails, and the descriptor is removed
        pure (.leave ⟨{ conn with file := [] }, socket,
          serving.log ++ [(parsed, .text (echoWww around conn.file st.size))], false⟩)

/-- A pass of the loop of `process`. -/
def processPass (around : Surroundings) (serving : Serving) : Outcome (Pass Serving Serving) :=
  match recv bufferSize serving.socket with
  | (none, socket) => .ok (.leave { serving with socket := socket })
  | (some [], socket) => .ok (.leave { serving with socket := socket, registered := false })
  | (some bytes, socket) => do
      let (line, conn) ← serving.conn.takeLine bytes
      let serving := { serving with conn := conn, socket := socket }
      match line with
      | none => pure (.again serving)
      | some fileName =>
          let conn := conn.getMethod fileName
          { serving with conn := conn }.answer around
            ⟨fileName, conn.method, conn.file, conn.querystring⟩

def process (around : Surroundings) (serving : Serving) : Outcome Serving :=
  repeatLoop (processPass around) (pending serving.socket + 1) serving

/-- A connection after `init`. -/
def start (conn : CgiConn) (socket : Socket) : Serving := ⟨conn.init, socket, [], true⟩

/-- What a pass leaves. Behind it the loop goes on, or is entered again by the next call. -/
def leftBy : Pass Serving Serving → Serving
  | .again next => next
  | .leave final => final

/-- A pass on a connection, if it is still there. -/
def step (serving : Serving) (around : Surroundings) : Outcome Serving :=
  if serving.registered then (processPass around serving).map leftBy else .ok serving

end Serving

end DataStructAlgorithm.HTTPD1
