import DataStructAlgorithm.Foundation.ByteProgram
import DataStructAlgorithm.Foundation.Transition
import DataStructAlgorithm.HTTPD.Headers

/-! # The two processes of `exec_cgi`

After the `fork` in `HTTPD/httpd.c` the father passes the body of the request on to the program,
then what the program writes on to the client. The pipes between them are bounded. What is not
modelled: calls that fail, other threads that `fork` at the same time, programs that close a pipe
before they exit, and a client that neither sends the rest of the body nor closes the connection. -/

namespace DataStructAlgorithm.HTTPD

open Foundation

/-- `exec_cgi` up to the pipes: `content_len` and what is left of the socket, or nothing if the
request is answered with `bad_request`. -/
def execCgi (fuel : Nat) (method sockfd : List Byte) : Outcome (Option (Int × List Byte)) :=
  if sameText method (ascii "GET") then do
    let sockfd ← dropHeader fuel sockfd
    pure (some (-1, sockfd))
  else if sameText method (ascii "POST") then do
    let (contentLen, sockfd) ← postHeader fuel sockfd
    if contentLen = -1 then pure none else pure (some (contentLen, sockfd))
  else pure (some (-1, sockfd))

/-- The father does not test the method again: only `POST` leaves a length. -/
theorem execCgi_not_post {fuel : Nat} {method sockfd rest : List Byte} {contentLen : Int}
    (notPost : sameText method (ascii "POST") = false)
    (ran : execCgi fuel method sockfd = .ok (some (contentLen, rest))) : contentLen = -1 := by
  rw [execCgi, notPost] at ran
  split at ran
  · rcases Outcome.bind_eq_ok ran with ⟨left, _, equal⟩
    cases equal
    rfl
  · cases ran
    rfl

/-- What both processes send first. -/
def statusLine : List Byte := ascii "HTTP/1.0 200 OK\r\n"

/-- Where the father is: in front of its `send`, of `recv`, of `write`, of `read`, of the other
`send`, or of `waitpid`. Writing to a pipe that nobody reads kills it. -/
inductive Father
  | starting
  | receiving (i : Nat) (c : Byte)
  | writing (i : Nat) (c : Byte)
  | reading
  | sending (c : Byte)
  | waiting
  | done
  | killed
  deriving DecidableEq, Repr

inductive Child
  | starting (program : ByteProgram)
  | running (program : ByteProgram)
  | ended

def Child.hasEnded : Child → Bool
  | .ended => true
  | _ => false

/-- The two processes, the pipes between them, and the bytes of the body that are to be received;
behind them `recv` leaves `c` as it is. -/
structure Relay where
  contentLen : Int
  sockfd : List Byte
  father : Father
  child : Child
  input : List Byte
  output : List Byte

inductive Process
  | father
  | child
  deriving DecidableEq, Repr

namespace Relay

def start (program : ByteProgram) (contentLen : Int) (sockfd : List Byte) : Relay :=
  ⟨contentLen, sockfd, .starting, .starting program, [], []⟩

/-- A step of the father, and what it sends to the client. -/
def fatherStep (capacity : Nat) (relay : Relay) : Option (Relay × List Byte) :=
  match relay.father with
  | .starting => some ({ relay with father := .receiving 0 0 }, statusLine)
  | .receiving i c =>
      if (i : Int) < relay.contentLen then
        match relay.sockfd with
        | [] => some ({ relay with father := .writing i c }, [])
        | byte :: rest => some ({ relay with sockfd := rest, father := .writing i byte }, [])
      else some ({ relay with father := .reading }, [])
  | .writing i c =>
      if relay.child.hasEnded then some ({ relay with father := .killed }, [])
      else if relay.input.length < capacity then
        some ({ relay with input := relay.input ++ [c], father := .receiving (i + 1) c }, [])
      else none
  | .reading =>
      match relay.output with
      | c :: rest => some ({ relay with output := rest, father := .sending c }, [])
      | [] => if relay.child.hasEnded then some ({ relay with father := .waiting }, []) else none
  | .sending c => some ({ relay with father := .reading }, [c])
  | .waiting => if relay.child.hasEnded then some ({ relay with father := .done }, []) else none
  | .done => none
  | .killed => none

/-- A step of the child. -/
def childStep (capacity : Nat) (relay : Relay) : Option (Relay × List Byte) :=
  match relay.child with
  | .starting program => some ({ relay with child := .running program }, statusLine)
  | .running (.read next) =>
      match relay.input with
      | byte :: rest => some ({ relay with input := rest, child := .running (next byte) }, [])
      -- the father has not closed its end of the pipe
      | [] => none
  | .running (.write byte rest) =>
      if relay.output.length < capacity then
        some ({ relay with output := relay.output ++ [byte], child := .running rest }, [])
      else none
  | .running .exit => some ({ relay with child := .ended }, [])
  | .ended => none

def step (capacity : Nat) (relay : Relay) : Process → Option (Relay × List Byte)
  | .father => relay.fatherStep capacity
  | .child => relay.childStep capacity

end Relay

end DataStructAlgorithm.HTTPD
