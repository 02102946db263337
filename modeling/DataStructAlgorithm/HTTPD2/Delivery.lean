import DataStructAlgorithm.Foundation.Conversions
import DataStructAlgorithm.HTTPD2.Additions
import DataStructAlgorithm.HTTPD2.Processing
import DataStructAlgorithm.HTTPD2.Write

/-! # Delivering a file

From the first byte that a client sends to the last one that it is sent: a request without a body
is answered with the file that it asks for, or with the reason why it is not. -/

namespace DataStructAlgorithm.HTTPD2

open Foundation

/-- The header of a response after which the connection is closed. -/
def header (status : Int) (title : List Byte) (length : Int) : List Byte :=
  ascii "HTTP/1.1 " ++ decimal status ++ ascii " " ++ title ++ ascii "\r\n" ++
    ascii "Content-Length: " ++ decimal length ++ ascii "\r\nConnection: close\r\n\r\n"

/-- A response whose body is a text. -/
def message (status : Int) (title form : List Byte) : List Byte :=
  header status title form.length ++ form

/-- What the client is to be sent when the file exists; for an empty one it is nothing. -/
def reply (stat : FileStat) : Option (List Byte) :=
  if ¬stat.othersRead then some (message 403 error403Title error403Form)
  else if stat.isDirectory then some (message 400 error400Title error400Form)
  else if stat.content = [] then none
  else some (header 200 ok200Title (toInt stat.content.length) ++ stat.content)

/-- How the event ends that completes a request for a file. -/
def endingOf : Option FileStat → Ending
  | none => .waits
  | some stat => if (reply stat).isSome then .answers else .closes

namespace HttpConn

/-! ## The prepared response -/

section Texts

variable {conn : HttpConn} {text : List Byte}

theorem Unanswered.holds (unanswered : Unanswered conn) : Holds conn [] where
  bufferLength := unanswered.bufferLength
  front := by rw [unanswered.empty, List.take_zero]
  room := by
    rw [unanswered.empty]
    decide

/-- A text for which there is room is added. -/
theorem Holds.adds (holds : Holds conn text) (addition : Addition)
    (room : text.length + (addition.formatted conn).length < writeBufferSize - 1) :
    (addition.call conn).2 = true ∧
      Holds (addition.call conn).1 (text ++ addition.formatted conn) := by
  have length := congrArg List.length holds.front
  have index := holds.room
  have bufferLength := holds.bufferLength
  rw [List.length_take] at length
  have added : (addition.call conn).2 = true := by
    rw [addition.call_eq, addResponse_result, decide_eq_true_iff]
    omega
  exact ⟨added, holds.added addition added⟩

/-- Texts for which there is room are all added. -/
theorem Holds.addsAll (additions : List Addition) (holds : Holds conn text)
    (room : text.length + (additions.flatMap (Addition.formatted conn)).length <
      writeBufferSize - 1) :
    Holds (addAll additions conn).1 (text ++ additions.flatMap (Addition.formatted conn)) := by
  induction additions generalizing conn text with
  | nil =>
      rw [List.flatMap_nil, List.append_nil]
      exact holds
  | cons addition additions induction =>
      have same : Addition.formatted (addition.call conn).1 = Addition.formatted conn :=
        funext fun other => formatted_call addition other conn
      rw [List.flatMap_cons, List.length_append] at room
      have next := (holds.adds addition (by omega)).2
      have later := induction next (by rw [same, List.length_append]; omega)
      rw [same, List.append_assoc] at later
      exact later

/-- The header of a response is added as a whole. -/
theorem holds_header (unanswered : Unanswered conn) (linger : conn.linger = false)
    {status length : Int} {title : List Byte} (short : (decimal status ++ title).length < 100)
    (low : -2 ^ 31 ≤ length) (high : length < 2 ^ 31) :
    Holds (addHeaders length (addStatusLine status title conn).1) (header status title length) ∧
      (header status title length).length < 200 := by
  have digits := length_decimal_le low high
  have formatted : [Addition.statusLine status title, .contentLength length, .linger,
      .blankLine].flatMap (Addition.formatted conn) = header status title length := by
    simp only [List.flatMap_cons, List.flatMap_nil, Addition.formatted, linger, header,
      List.append_assoc, List.append_nil]
    rfl
  have version : (ascii "HTTP/1.1 ").length = 9 := rfl
  have blank : (ascii " ").length = 1 := rfl
  have lineBreak : (ascii "\r\n").length = 2 := rfl
  have name : (ascii "Content-Length: ").length = 16 := rfl
  have close : (ascii "\r\nConnection: close\r\n\r\n").length = 23 := rfl
  have size : writeBufferSize - 1 = 1023 := rfl
  rw [List.length_append] at short
  have total : (header status title length).length < 200 := by
    simp only [header, List.length_append]
    omega
  rw [← formatted] at total ⊢
  refine ⟨?_, total⟩
  have holds := unanswered.holds.addsAll [.statusLine status title, .contentLength length,
    .linger, .blankLine] (by rw [List.length_nil]; omega)
  exact holds

/-- A text that is short is sent as a whole. -/
theorem answer_message (unanswered : Unanswered conn) (linger : conn.linger = false)
    {status : Int} {title form : List Byte} (short : (decimal status ++ title).length < 100)
    (shortForm : form.length < 100) :
    ∃ ready, answer status title form conn = (ready, true) ∧
      ready.writeBuf.take ready.writeIdx = message status title form := by
  rw [message]
  rcases holds_header unanswered linger short (show -2 ^ 31 ≤ (form.length : Int) by omega)
    (by omega) with ⟨holds, length⟩
  have size : writeBufferSize - 1 = 1023 := rfl
  generalize header status title form.length = head at holds length
  rw [answer]
  dsimp only
  generalize addHeaders form.length (addStatusLine status title conn).1 = headed at holds
  have room : head.length + ((Addition.content form).formatted headed).length <
      writeBufferSize - 1 := by
    dsimp only [Addition.formatted]
    omega
  rcases holds.adds (.content form) room with ⟨added, whole⟩
  exact ⟨_, if_pos added, whole.front⟩

end Texts

theorem Unanswered.headed_message {conn : HttpConn} (unanswered : Unanswered conn)
    (linger : conn.linger = false) {code : HttpCode} {status : Int} {title form : List Byte}
    (answers : processWrite code conn = answer status title form conn)
    (notFile : code ≠ .fileRequest)
    (short : (decimal status ++ title).length < 100) (shortForm : form.length < 100) :
    ∃ ready, processWrite code conn = (ready, true) ∧ Headed ready (message status title form) := by
  rcases answer_message unanswered linger short shortForm with ⟨ready, answered, text⟩
  have prepared := answers.trans answered
  have headed := processWrite_headed unanswered.bufferLength unanswered.empty
    (fun isFile => absurd isFile notFile) prepared
  rw [response, if_neg notFile, List.append_nil, text] at headed
  exact ⟨ready, prepared, headed⟩

theorem Completed.headed_file {stat : FileStat} {conn : HttpConn}
    (completed : Completed (some stat) conn) (isFile : fileCode (some stat) = .fileRequest)
    (someContent : stat.content ≠ []) :
    ∃ ready, processWrite .fileRequest conn = (ready, true) ∧
      Headed ready (header 200 ok200Title (toInt stat.content.length) ++ stat.content) := by
  have unanswered := completed.unanswered
  rcases completed.file stat rfl isFile with ⟨size, address⟩
  have mapped : conn.fileSize = (conn.fileAddress.getD []).length := by
    rw [size, address]
    rfl
  have started : SameFile conn (addStatusLine 200 ok200Title conn).1 := sameFile_addResponse _ conn
  have startedSize := started.fileSize.trans size
  have positive : (addStatusLine 200 ok200Title conn).1.fileSize ≠ 0 := by
    rw [startedSize]
    exact fun empty => someContent (List.eq_nil_of_length_eq_zero empty)
  have same := started.trans (sameFile_addHeaders (toInt stat.content.length) _)
  have range := toInt_range stat.content.length
  have holds := (holds_header unanswered completed.linger (show (decimal 200 ++ ok200Title).length <
    100 by decide +kernel) range.1 range.2).1
  have prepared : processWrite .fileRequest conn =
      ((addHeaders (toInt stat.content.length)
        (addStatusLine 200 ok200Title conn).1).offerFile, true) := by
    rw [← startedSize]
    exact if_pos positive
  have headed := processWrite_headed unanswered.bufferLength unanswered.empty (fun _ => mapped)
    prepared
  refine ⟨_, prepared, ?_⟩
  have front : response .fileRequest (addHeaders (toInt stat.content.length)
      (addStatusLine 200 ok200Title conn).1).offerFile =
      header 200 ok200Title (toInt stat.content.length) ++ stat.content := by
    rw [response, if_pos rfl, ← holds.front]
    apply congrArg
    change (addHeaders (toInt stat.content.length)
      (addStatusLine 200 ok200Title conn).1).fileAddress.getD [] = stat.content
    rw [same.fileAddress, address]
    rfl
  rw [front] at headed
  exact headed

/-- What has been asked for is offered to `writev`, if anything is. -/
theorem Completed.processWrite_reply {stat : FileStat} {conn : HttpConn}
    (completed : Completed (some stat) conn) :
    (reply stat = none → ∃ after, processWrite (fileCode (some stat)) conn = (after, false)) ∧
      ∀ bytes, reply stat = some bytes →
        ∃ ready, processWrite (fileCode (some stat)) conn = (ready, true) ∧
          Headed ready bytes := by
  have unanswered := completed.unanswered
  have linger := completed.linger
  by_cases refused : ¬stat.othersRead
  · have code : fileCode (some stat) = .forbiddenRequest := if_pos refused
    have replies : reply stat = some (message 403 error403Title error403Form) := if_pos refused
    rw [code, replies]
    refine ⟨by simp, fun bytes same => ?_⟩
    cases same
    have answers : processWrite .forbiddenRequest conn =
        answer 403 error403Title error403Form conn := rfl
    exact unanswered.headed_message linger answers (by simp) (by decide +kernel) (by decide +kernel)
  · by_cases directory : stat.isDirectory
    · have code : fileCode (some stat) = .badRequest := by
        rw [fileCode, if_neg refused, if_pos directory]
      have replies : reply stat = some (message 400 error400Title error400Form) := by
        rw [reply, if_neg refused, if_pos directory]
      rw [code, replies]
      refine ⟨by simp, fun bytes same => ?_⟩
      cases same
      have answers : processWrite .badRequest conn = answer 400 error400Title error400Form conn :=
        rfl
      exact unanswered.headed_message linger answers (by simp) (by decide +kernel) (by decide +kernel)
    · have code : fileCode (some stat) = .fileRequest := by
        rw [fileCode, if_neg refused, if_neg directory]
      by_cases empty : stat.content = []
      · have replies : reply stat = none := by
          rw [reply, if_neg refused, if_neg directory, if_pos empty]
        rw [code, replies]
        refine ⟨fun _ => ?_, fun _ impossible => by cases impossible⟩
        have started : SameFile conn (addStatusLine 200 ok200Title conn).1 :=
          sameFile_addResponse _ conn
        have size := started.fileSize.trans (completed.file stat rfl code).1
        rw [empty] at size
        exact ⟨_, if_neg (not_not_intro size)⟩
      · have replies : reply stat =
            some (header 200 ok200Title (toInt stat.content.length) ++ stat.content) := by
          rw [reply, if_neg refused, if_neg directory, if_neg empty]
        rw [code, replies]
        refine ⟨by simp, fun bytes same => ?_⟩
        cases same
        exact completed.headed_file code empty

/-! ## The whole way -/

section Way

variable {request : Request} {path : List Byte} (bodiless : Bodiless request.headers)
  (target : requestTarget (lineText request.requestLine) = some path)
  (fits : request.bytes.length < readBufferSize) (files : Files)
  (undefinedCode : HttpConn → HttpCode)

include bodiless target fits

theorem Awaits.arrive_waits {conn : HttpConn} {pieces : List (List Byte)} {more : List Byte}
    (awaits : Awaits request path (pieces.flatten ++ more) conn) (nonempty : [] ∉ pieces)
    (someMore : more ≠ []) :
    ∃ after, conn.arrive files undefinedCode pieces = .ok (.waits, after) ∧
      Awaits request path more after := by
  rcases awaits.read pieces nonempty fits with ⟨middle, read, middleAwaits⟩
  rcases middleAwaits.processRead_waits bodiless files undefinedCode someMore target with
    ⟨after, processed, later⟩
  refine ⟨after, ?_, later⟩
  rw [arrive, read, Outcome.ok_bind]
  dsimp only
  rw [if_pos rfl, process, processed]
  rfl

theorem Awaits.exchange_waits (arrivals : List (List (List Byte))) {conn : HttpConn}
    {more : List Byte} (awaits : Awaits request path (arrivals.flatten.flatten ++ more) conn)
    (nonempty : [] ∉ arrivals.flatten) (someMore : more ≠ []) :
    ∃ after, conn.exchange files undefinedCode arrivals = .ok (.waits, after) ∧
      Awaits request path more after := by
  induction arrivals generalizing conn with
  | nil => exact ⟨conn, rfl, awaits⟩
  | cons pieces arrivals induction =>
      rw [List.flatten_cons, List.flatten_append, List.append_assoc] at awaits
      rw [List.flatten_cons, List.mem_append, not_or] at nonempty
      rcases awaits.arrive_waits bodiless target fits files undefinedCode nonempty.1
        (List.append_ne_nil_of_right_ne_nil _ someMore) with ⟨middle, arrived, middleAwaits⟩
      rcases induction middleAwaits nonempty.2 with ⟨after, exchanged, later⟩
      refine ⟨after, ?_, later⟩
      rw [exchange, arrived]
      exact exchanged

theorem Awaits.arrive_ends {conn : HttpConn} {pieces : List (List Byte)}
    (awaits : Awaits request path pieces.flatten conn) (nonempty : [] ∉ pieces) :
    ∃ ready, conn.arrive files undefinedCode pieces =
        .ok (endingOf (files (filePath path)), ready) ∧
      ∀ stat bytes, files (filePath path) = some stat → reply stat = some bytes →
        Headed ready bytes := by
  rw [← List.append_nil pieces.flatten] at awaits
  rcases awaits.read pieces nonempty fits with ⟨middle, read, middleAwaits⟩
  rcases middleAwaits.processRead_finishes bodiless files undefinedCode target with
    ⟨after, processed, completed⟩
  have arrived : conn.arrive files undefinedCode pieces = middle.process files undefinedCode := by
    rw [arrive, read]
    rfl
  rw [arrived, process, processed, Outcome.ok_bind]
  dsimp only
  cases found : files (filePath path) with
  | none => exact ⟨after, rfl, nofun⟩
  | some stat =>
      rw [found] at completed
      have answered : fileCode (some stat) ≠ .noRequest := fileCode_ne_noRequest nofun
      rw [if_neg answered]
      cases replies : reply stat with
      | none =>
          rcases completed.processWrite_reply.1 replies with ⟨last, written⟩
          rw [written, endingOf, replies]
          refine ⟨last, rfl, fun other bytes same sent => ?_⟩
          cases same
          rw [replies] at sent
          cases sent
      | some bytes =>
          rcases completed.processWrite_reply.2 bytes replies with ⟨ready, written, headed⟩
          rw [written, endingOf, replies]
          refine ⟨ready, rfl, fun other otherBytes same sent => ?_⟩
          cases same
          rw [replies] at sent
          cases sent
          exact headed

end Way

end HttpConn

end DataStructAlgorithm.HTTPD2
