import DataStructAlgorithm.HTTPD.ExecCgi
import DataStructAlgorithm.HTTPD.MysqlProcess

/-! # The programs that `exec_cgi` starts

`exc_cgi/method/test.cpp` writes the request back, `mysql_connect/test.cpp` asks the database. Both
read the whole body first, and what they print is written when they exit. What the database
answers is a parameter, and so is what a program does after a fault. -/

namespace DataStructAlgorithm.HTTPD

open Foundation

/-- The variables that the child sets in front of `execl`. -/
structure Environment where
  method : Option (List Byte)
  queryString : Option (List Byte)
  contentLen : Option (List Byte)

/-- A value behind the name of its variable, in one of the buffers of `exec_cgi`. -/
def putVariable (name value : List Byte) : Outcome (List Byte) :=
  if name.length + value.length < 255 then .ok value else .error .outOfRange

def childEnvironment (method : List Byte) (queryString : Option (List Byte)) (contentLen : Int) :
    Outcome Environment := do
  let methodEnv ← putVariable (ascii "METHOD=") method
  if sameText (ascii "get") method then
    match queryString with
    | none => .error .nullPointer
    | some query => do
        let queryStringEnv ← putVariable (ascii "QUERY_STRING_ENV=") query
        pure ⟨some methodEnv, some queryStringEnv, none⟩
  else if sameText (ascii "POST") method then do
    let contentLenEnv ← putVariable (ascii "CONTENT_LEN_ENV=") (decimal contentLen)
    pure ⟨some methodEnv, none, some contentLenEnv⟩
  else pure ⟨some methodEnv, none, none⟩

namespace Cgi

open MysqlProcess (messageSize nameSize Bindings parse)

/-- `_len`, a `size_t` -/
def lengthOf (text : List Byte) : Nat := (atoi text % 2 ^ 64).toNat

/-- The loop that reads the body into `_msg`. -/
def receive (undefined : ByteProgram) (length : Nat) (finish : List Byte → ByteProgram) :
    ByteProgram :=
  if length ≤ messageSize then .readMany length finish
  else .readMany (messageSize + 1) fun _ => undefined

/-- `_msg`, which is filled with zeros before it is written. -/
def message (text : List Byte) : List Byte :=
  (text ++ List.replicate messageSize 0).take messageSize

theorem length_message (text : List Byte) : (message text).length = messageSize := by
  rw [message, List.length_take, List.length_append, List.length_replicate]
  omega

/-- The string in `_msg`. -/
def printMessage (undefined : ByteProgram) (printed : List Byte) (msg : List Byte) : ByteProgram :=
  match cString msg 0 with
  | .error _ => undefined
  | .ok text => .print (printed ++ ascii "msg is " ++ text ++ ascii "\n") .exit

/-- `main` of `exc_cgi/method/test.cpp` -/
def methodMain (undefined : ByteProgram) (environment : Environment) : ByteProgram :=
  match environment.method with
  | none => .print (ascii "method env is NULL\n") .exit
  | some method =>
      let printed := method ++ ascii "\n"
      if 10 ≤ method.length then undefined
      else if sameText (ascii "POST") method then
        match environment.contentLen with
        | some contentLen =>
            receive undefined (lengthOf contentLen) fun text =>
              printMessage undefined printed (message text)
        | none => .print (printed ++ ascii "content len env is NULL\n") .exit
      else if sameText (ascii "GET") method then
        match environment.queryString with
        | some query =>
            if messageSize ≤ query.length then undefined
            else .print (printed ++ ascii "get : " ++ query ++ ascii "\n") .exit
        | none => .print (printed ++ ascii "query string  env is NULL\n") .exit
      else .print printed .exit

/-! ## The database -/

/-- What `mysql_store_result` returns. A column may be `NULL`. -/
structure Table where
  fields : List (List Byte)
  rows : List (List (Option (List Byte)))
  rowLength : ∀ row ∈ rows, row.length = fields.length

/-- The answer to the second statement, after the first one. -/
abbrev Database := List Byte → List Byte → Option Table

/-- `printf("%s ", ..)` -/
def printed (text : List Byte) : List Byte := stringOf text ++ ascii " "

/-- The columns of a row from `i` on. In front of the first one stand the fields that have not
been fetched. -/
def printColumns (fields : List (List Byte)) : Nat → List (Option (List Byte)) → List Byte
  | _, [] => []
  | i, column :: rest =>
      (if i = 0 then fields.flatMap printed ++ ascii "\n\r" else []) ++
        printed (column.getD (ascii "NULL")) ++ printColumns fields (i + 1) rest

/-- The rows, and the fields that have not been fetched. -/
def printRows : List (List Byte) → List (List (Option (List Byte))) → List Byte
  | _, [] => []
  | fields, row :: rest =>
      printColumns fields 0 row ++ printRows (if row = [] then fields else []) rest

/-- What `select` prints. -/
def Table.text (table : Table) : List Byte := printRows table.fields table.rows ++ ascii "\n\r"

/-- What `snprintf` stores in `query`. -/
def query (text : List Byte) : List Byte := text.take (messageSize - 1)

/-- `mp[name].c_str()` -/
def bound (mp : Bindings) (name : List Byte) : List Byte := (mp name).getD []

/-- The statement of `p_insert` -/
def insertQuery (mp : Bindings) : List Byte :=
  query (ascii "INSERT INTO " ++ ascii " " ++ bound mp (ascii "table") ++
    ascii " (name, sex) values ('" ++ bound mp (ascii "key_1") ++ ascii "', '" ++
    bound mp (ascii "key_2") ++ ascii "')")

/-- The statement of `p_select` -/
def selectQuery (mp : Bindings) : List Byte :=
  query (ascii "SELECT * FROM " ++ ascii " " ++ bound mp (ascii "select_table"))

/-- `process`, after something has been printed. Without a result `select` goes on with `NULL`. -/
def process (database : Database) (undefined : ByteProgram) (printed : List Byte)
    (msg : MysqlProcess.Info) : ByteProgram :=
  match parse (msg.len + 1) msg (fun _ => none) with
  | .error _ => undefined
  | .ok mp =>
      match database (insertQuery mp) (selectQuery mp) with
      | none => undefined
      | some table => .print (printed ++ table.text) .exit

/-- `main` of `mysql_connect/test.cpp` -/
def mysqlMain (database : Database) (undefined : ByteProgram) (environment : Environment) :
    ByteProgram :=
  match environment.method with
  | none => .print (ascii "method env is NULL\n") .exit
  | some method =>
      if nameSize ≤ method.length then undefined
      else if sameText (ascii "POST") method then
        match environment.contentLen with
        | some contentLen =>
            receive undefined (lengthOf contentLen) fun text =>
              process database undefined [] ⟨message text, lengthOf contentLen, length_message text⟩
        | none => .print (ascii "content len env is NULL\n") .exit
      else if sameText (ascii "GET") method then
        match environment.queryString with
        | some query =>
            if messageSize ≤ query.length then undefined
            else process database undefined (ascii "get : " ++ query ++ ascii "\n")
              ⟨message query, 0, length_message query⟩
        | none => .print (ascii "query string  env is NULL\n") .exit
      else process database undefined [] ⟨message [], 0, length_message []⟩

end Cgi

end DataStructAlgorithm.HTTPD
