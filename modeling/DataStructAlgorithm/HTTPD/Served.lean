import DataStructAlgorithm.Foundation.Conversions
import DataStructAlgorithm.HTTPD.CgiPrograms
import DataStructAlgorithm.HTTPD.Completion

/-! # Requests that a program answers

From the bytes of the request to those of the answer: the header, the father and the child, and the
two programs of the repository. -/

namespace DataStructAlgorithm.HTTPD

open Foundation

/-! ## In front of the `fork` -/

theorem execCgi_post {method : List Byte} (isPost : sameText method (ascii "POST") = true)
    {lines : List (List Byte)} {contentLen : Int}
    (plain : ∀ line ∈ lines, Unbroken line ∧ ¬ 101 ∣ line.length)
    (announces : (announcements 101 lines).getLast? = some contentLen)
    (isLength : contentLen ≠ -1) (sockfd : List Byte) {fuel : Nat}
    (enough : (headerSection lines).length ≤ fuel) :
    execCgi fuel method (headerSection lines ++ sockfd) = .ok (some (contentLen, sockfd)) := by
  have notGet : sameText method (ascii "GET") = false := by
    rw [sameText, beq_iff_eq.mp isPost]
    decide
  rcases header_ended (fun contentLen buf => (announced buf).getD contentLen)
    (by decide : 2 ≤ buffSize / 10) (fun line member => (plain line member).1) (-1) sockfd fuel
    enough with ⟨final, run, right, value⟩
  have left : final.2 = sockfd := right.mpr fun line member => (plain line member).2
  have ended : announcements 101 [[]] = [] := by decide
  have same : ((lines ++ [[]]).flatMap (linePieces (buffSize / 10 - 1))).filterMap announcedBy =
      announcements 101 lines := by
    have whole := announcements_append 101 lines [[]]
    rw [ended, List.append_nil] at whole
    exact whole
  have isValue : final.1 = contentLen := by
    rw [value left, visitAll_announced, same, announces]
    rfl
  have posted : postHeader fuel (headerSection lines ++ sockfd) = .ok (contentLen, sockfd) := by
    rw [postHeader, run, ← left, ← isValue]
  rw [execCgi, notGet, isPost, if_neg (by decide), if_pos rfl, posted, Outcome.ok_bind]
  exact if_neg isLength

theorem putVariable_short {name value : List Byte} (short : name.length + value.length < 255) :
    putVariable name value = .ok value :=
  if_pos short

theorem childEnvironment_post {method : List Byte} (isPost : sameText method (ascii "POST") = true)
    (queryString : Option (List Byte)) {contentLen : Int} (low : -2 ^ 31 ≤ contentLen)
    (high : contentLen < 2 ^ 31) :
    childEnvironment method queryString contentLen =
      .ok ⟨some method, none, some (decimal contentLen)⟩ := by
  have digits := length_decimal_le low high
  have same := congrArg List.length (beq_iff_eq.mp isPost)
  rw [List.length_map, List.length_map] at same
  have four : method.length = 4 := same
  have notGet : sameText (ascii "get") method = false := by
    rw [sameText, beq_iff_eq.mp isPost]
    decide
  have isPost : sameText (ascii "POST") method = true := by
    rw [sameText, beq_iff_eq.mp isPost]
    decide
  have methodName : (ascii "METHOD=").length = 7 := rfl
  have lengthName : (ascii "CONTENT_LEN_ENV=").length = 16 := rfl
  rw [childEnvironment, putVariable_short (by omega), Outcome.ok_bind, notGet, if_neg (by decide),
    if_pos isPost, putVariable_short (by omega)]
  rfl

/-- The program reads the length that the father has announced. -/
theorem lengthOf_decimal {count : Nat} (small : count < 2 ^ 31) :
    Cgi.lengthOf (decimal count) = count := by
  have read : atol (decimal count ++ []) = count :=
    atol_decimal (by omega) (by omega) [] nofun
  rw [List.append_nil] at read
  rw [Cgi.lengthOf, atoi, read, toInt_eq (by omega) (by omega)]
  omega

/-! ## The body -/

theorem length_padded (count : Nat) (c : Byte) (bytes : List Byte) :
    (padded count c bytes).length = count := by
  induction count generalizing c bytes with
  | zero => rfl
  | succ count induction =>
      cases bytes with
      | nil => exact congrArg Nat.succ (induction c [])
      | cons byte bytes => exact congrArg Nat.succ (induction byte bytes)

theorem length_bodyOf (count : Nat) (sockfd : List Byte) :
    (bodyOf (count : Int) sockfd).length = count := by
  rw [bodyOf, length_padded, Int.toNat_natCast]

/-- What follows the body stays in the socket. -/
theorem bodyOf_append (body rest : List Byte) :
    bodyOf (body.length : Int) (body ++ rest) = body := by
  have all : ∀ c, padded body.length c (body ++ rest) = body := by
    induction body with
    | nil => exact fun c => rfl
    | cons byte body induction => exact fun c => congrArg (byte :: ·) (induction byte)
  rw [bodyOf, Int.toNat_natCast, all]

namespace Cgi

open MysqlProcess (messageSize nameSize Pair joined lastValue parse)

section Receive

variable {undefined : ByteProgram} {finish : List Byte → ByteProgram} {body text : List Byte}
  {capacity : Nat}

theorem receive_outputOn (fits : body.length ≤ messageSize)
    (finishes : finish body = .print text .exit) :
    (receive undefined body.length finish).outputOn body = text := by
  have output := ByteProgram.outputOn_readMany body [] finish
  rw [List.append_nil, finishes, ByteProgram.outputOn_print] at output
  rw [receive, if_pos fits, output]
  exact List.append_nil text

theorem receive_completes (fits : body.length ≤ messageSize)
    (finishes : finish body = .print text .exit) :
    (receive undefined body.length finish).Completes capacity 0 body := by
  have completes : (ByteProgram.readMany body.length finish).Completes capacity 0 (body ++ []) := by
    rw [ByteProgram.completes_readMany, finishes]
    exact ByteProgram.completes_print capacity 0 text
  rw [List.append_nil] at completes
  rw [receive, if_pos fits]
  exact completes

end Receive

/-- What the client of a `POST` is sent by a program that reads the body and prints a text. -/
theorem posted {capacity : Nat} (room : 0 < capacity) {undefined program : ByteProgram}
    {finish : List Byte → ByteProgram} {text sockfd : List Byte} {count : Nat}
    (fits : count ≤ messageSize) (receives : program = receive undefined count finish)
    (finishes : finish (bodyOf count sockfd) = .print text .exit)
    {processes : List Process} {final : Relay} {log : List (List Byte)}
    (ran : runSteps (Relay.step capacity) (Relay.start program count sockfd) processes =
      some (final, log)) (still : AtRest (Relay.step capacity) final) :
    final.father = .done ∧ log.flatten = statusLine ++ statusLine ++ text := by
  have length := length_bodyOf count sockfd
  have within : (bodyOf count sockfd).length ≤ messageSize := length.symm ▸ fits
  rw [← length] at receives
  have delivered := Relay.delivered_of_completes room
    (by rw [receives]; exact receive_completes within finishes) ran still
  rw [receives, receive_outputOn within finishes] at delivered
  exact delivered

/-- A shorter text ends in `_msg`. -/
theorem cString_message {text : List Byte} (short : text.length < messageSize) :
    cString (message text) 0 = .ok (stringOf text) := by
  have split : (message text).drop 0 =
      text ++ 0 :: List.replicate (messageSize - text.length - 1) 0 := by
    have zeros : messageSize - text.length = messageSize - text.length - 1 + 1 := by omega
    rw [List.drop_zero, message, List.take_append, List.take_of_length_le (Nat.le_of_lt short),
      List.take_replicate, Nat.min_eq_left (Nat.sub_le _ _), ← List.replicate_succ, ← zeros]
  exact (StringAt.of_takeWhile split).cString_eq

/-- The value that has been sent last with a name. -/
def sentValue (pairs : List Pair) (name : List Byte) : List Byte := (lastValue pairs name).getD []

/-- The statement that is to be made of a form. -/
def insertText (pairs : List Pair) : List Byte :=
  ascii "INSERT INTO  " ++ sentValue pairs (ascii "table") ++ ascii " (name, sex) values ('" ++
    sentValue pairs (ascii "key_1") ++ ascii "', '" ++ sentValue pairs (ascii "key_2") ++
    ascii "')"

def selectText (pairs : List Pair) : List Byte :=
  ascii "SELECT * FROM  " ++ sentValue pairs (ascii "select_table")

theorem length_sentValue (pairs : List Pair) (name : List Byte) :
    (sentValue pairs name).length < nameSize := by
  rw [sentValue, lastValue]
  cases found : (pairs.filter fun pair => pair.name = name).getLast? with
  | none => exact (by decide : 0 < nameSize)
  | some pair => exact pair.isValue.short

/-- The statements of a form are not cut off. -/
theorem insertQuery_eq (pairs : List Pair) : insertQuery (lastValue pairs) = insertText pairs := by
  have table := length_sentValue pairs (ascii "table")
  have first := length_sentValue pairs (ascii "key_1")
  have second := length_sentValue pairs (ascii "key_2")
  have size : nameSize = 100 := rfl
  have start : (ascii "INSERT INTO  ").length = 13 := rfl
  have names : (ascii " (name, sex) values ('").length = 22 := rfl
  have comma : (ascii "', '").length = 4 := rfl
  have close : (ascii "')").length = 2 := rfl
  have whole : (insertText pairs).length ≤ messageSize - 1 := by
    simp only [insertText, List.length_append]
    have limit : messageSize - 1 = 1023 := rfl
    omega
  exact List.take_of_length_le whole

theorem selectQuery_eq (pairs : List Pair) : selectQuery (lastValue pairs) = selectText pairs := by
  have table := length_sentValue pairs (ascii "select_table")
  have size : nameSize = 100 := rfl
  have start : (ascii "SELECT * FROM  ").length = 15 := rfl
  have whole : (selectText pairs).length ≤ messageSize - 1 := by
    simp only [selectText, List.length_append]
    have limit : messageSize - 1 = 1023 := rfl
    omega
  exact List.take_of_length_le whole

/-- The loop on a form that fits into the request, whatever is bound before. -/
theorem parse_form {pairs : List Pair} (notEmpty : pairs ≠ []) {msg : MysqlProcess.Info}
    (fits : msg.len ≤ messageSize) (isText : msg.text = joined pairs)
    (mp : MysqlProcess.Bindings) {fuel : Nat} (enough : msg.len < fuel) :
    parse fuel msg mp = .ok (MysqlProcess.bindAll mp pairs) := by
  rcases List.exists_cons_of_ne_nil notEmpty with ⟨pair, others, rfl⟩
  rcases MysqlProcess.run_joined pair others 0 mp with ⟨front, last, start, split, run⟩
  have loop := MysqlProcess.loop_eq_runAll fits (MysqlProcess.ready 0 mp) (Nat.zero_le _) enough
  have whole : runAll MysqlProcess.takeByte (MysqlProcess.ready 0 mp) msg.text =
      .ok (MysqlProcess.held last start (MysqlProcess.bindAll mp front)) := by
    rw [isText]
    exact run
  have returned := loop.trans whole
  show (repeatLoop (MysqlProcess.parsePass msg) fuel (MysqlProcess.ready 0 mp) >>= fun state =>
    MysqlProcess.assign state.mp state.name state.value) = _
  have all : MysqlProcess.bindAll mp (front ++ [last]) =
      MysqlProcess.bindAll (MysqlProcess.bindAll mp front) [last] := List.foldl_append
  rw [returned, Outcome.ok_bind, split, all]
  exact MysqlProcess.assign_filled last _

theorem message_text {text : List Byte} (fits : text.length ≤ messageSize) :
    (⟨message text, text.length, length_message text⟩ : MysqlProcess.Info).text = text := by
  show (message text).take text.length = text
  rw [message, List.take_take, Nat.min_eq_left fits, List.take_left]

def personTexts : List (List Byte × List Byte) :=
  [(ascii "table", ascii "PersonInfo"), (ascii "key_1", ascii "a"), (ascii "key_2", ascii "b"),
    (ascii "select_table", ascii "PersonInfo")]

theorem isField_personTexts : ∀ text ∈ personTexts, MysqlProcess.IsField text.1 ∧ MysqlProcess.IsField text.2 := by
  decide +kernel

/-- `table=PersonInfo&key_1=a&key_2=b&select_table=PersonInfo` -/
def personPairs : List Pair :=
  personTexts.attach.map fun text =>
    ⟨text.1.1, text.1.2, (isField_personTexts text.1 text.2).1,
      (isField_personTexts text.1 text.2).2⟩

/-- A table to which the row of the form has been added. -/
def personTable : Table :=
  ⟨[ascii "name", ascii "sex"], [[some (ascii "a"), some (ascii "b")]], by decide⟩

/-- A database that answers after the row of the form has been inserted. -/
def personDatabase : Database := fun insert select =>
  if insert = ascii "INSERT INTO  PersonInfo (name, sex) values ('a', 'b')" ∧
    select = ascii "SELECT * FROM  PersonInfo" then some personTable else none

end Cgi

end DataStructAlgorithm.HTTPD
