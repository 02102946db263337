import DataStructAlgorithm.Foundation.Slots
import DataStructAlgorithm.Foundation.Text

/-! # The connection of `http_conn.h`

Pointers into the read buffer are indices into it. What is not modelled of a
connection: its socket, its address, and the epoll instance. -/

namespace DataStructAlgorithm.HTTPD2

open Foundation

def fileNameLen : Nat := 200

def readBufferSize : Nat := 2048

def writeBufferSize : Nat := 1024

inductive Method
  | get
  | post
  | head
  | put
  | delete
  | trace
  | options
  | connect
  | patch
  deriving DecidableEq, Repr

inductive CheckState
  | requestLine
  | header
  | content
  deriving DecidableEq, Repr

inductive HttpCode
  | noRequest
  | getRequest
  | badRequest
  | noResource
  | forbiddenRequest
  | fileRequest
  | internalError
  | closedConnection
  deriving DecidableEq, Repr

inductive LineStatus
  | ok
  | bad
  | open
  deriving DecidableEq, Repr

/-- The memory that an `iovec` points to. -/
inductive IoBase
  | writeBuf
  | fileAddress
  deriving DecidableEq, Repr

structure IoVec where
  base : IoBase
  len : Nat
  deriving DecidableEq, Repr

structure HttpConn where
  readBuf : List Byte
  readIdx : Nat
  checkedIdx : Nat
  startLine : Nat
  writeBuf : List Byte
  writeIdx : Nat
  checkState : CheckState
  method : Method
  realFile : List Byte
  url : Option Nat
  version : Option Nat
  host : Option Nat
  contentLength : Int
  linger : Bool
  /-- The mapped file, `none` for a null pointer. -/
  fileAddress : Option (List Byte)
  /-- `m_file_stat.st_size` -/
  fileSize : Nat
  /-- The first `m_iv_count` elements of `m_iv`. -/
  iv : List IoVec

namespace HttpConn

/-- `http_conn::init` without arguments. -/
def init (conn : HttpConn) : HttpConn :=
  { conn with
    checkState := .requestLine
    linger := false
    method := .get
    url := none
    version := none
    contentLength := 0
    host := none
    startLine := 0
    checkedIdx := 0
    readIdx := 0
    writeIdx := 0
    readBuf := List.replicate readBufferSize 0
    writeBuf := List.replicate writeBufferSize 0
    realFile := List.replicate fileNameLen 0 }

/-- `http_conn::unmap` -/
def unmap (conn : HttpConn) : HttpConn := { conn with fileAddress := none }

/-- A new connection. -/
def fresh : HttpConn :=
  init ⟨[], 0, 0, 0, [], 0, .requestLine, .get, [], none, none, none, 0, false, none, 0, []⟩

end HttpConn

end DataStructAlgorithm.HTTPD2
