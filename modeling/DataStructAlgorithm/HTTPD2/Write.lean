import DataStructAlgorithm.HTTPD2.Response

/-! # Sending the response

`http_conn::write` is called for every event of a writable socket until it has
finished the response. -/

namespace DataStructAlgorithm.HTTPD2

open Foundation

/-- What a call of `writev` gives: a number of bytes, -1 with `EAGAIN`, or -1 with
another error. -/
inductive Writev
  | sent (count : Nat)
  | again
  | failed
  deriving DecidableEq, Repr

/-- The most that one call of `writev` transfers. -/
def maxTransfer : Nat := 0x7ffff000

/-- The outcomes of `writev` when `offered` bytes are offered and no error but
`EAGAIN` occurs. -/
def Writev.Possible (offered : Nat) : Writev → Prop
  | .sent count => count ≤ offered ∧ count ≤ maxTransfer
  | .again => True
  | .failed => False

instance (offered : Nat) (outcome : Writev) : Decidable (outcome.Possible offered) :=
  match outcome with
  | .sent count => inferInstanceAs (Decidable (count ≤ offered ∧ count ≤ maxTransfer))
  | .again => isTrue trivial
  | .failed => isFalse id

/-- How a call of `write` ends. -/
inductive WriteEnd
  | waiting
  | finished
  | failed
  deriving DecidableEq, Repr

structure WriteCall where
  sent : List Byte
  ended : WriteEnd
  returned : Bool
  conn : HttpConn
  rest : List Writev

namespace HttpConn

def region (conn : HttpConn) : IoBase → List Byte
  | .writeBuf => conn.writeBuf
  | .fileAddress => conn.fileAddress.getD []

/-- The bytes that `writev` is given. -/
def offered (conn : HttpConn) : List Byte :=
  conn.iv.flatMap fun vector => (conn.region vector.base).take vector.len

/-- The end of `write` when it takes the response for sent. -/
def finishWrite (conn : HttpConn) (sent : List Byte) (rest : List Writev) : WriteCall :=
  let conn := conn.unmap
  if conn.linger then ⟨sent, .finished, true, conn.init, rest⟩
  else ⟨sent, .finished, false, conn, rest⟩

/-- The loop of `write`. It does not end if the outcomes do not suffice. -/
def writeLoop (conn : HttpConn) (bytesToSend bytesHaveSend : Int) (sent : List Byte) :
    List Writev → Option WriteCall
  | [] => none
  | .again :: rest => some ⟨sent, .waiting, true, conn, rest⟩
  | .failed :: rest => some ⟨sent, .failed, false, conn.unmap, rest⟩
  | .sent temp :: rest =>
      let bytesToSend := bytesToSend - temp
      let bytesHaveSend := bytesHaveSend + temp
      let sent := sent ++ conn.offered.take temp
      if bytesToSend ≤ bytesHaveSend then some (conn.finishWrite sent rest)
      else conn.writeLoop bytesToSend bytesHaveSend sent rest

/-- `http_conn::write` -/
def write (conn : HttpConn) (outcomes : List Writev) : Option WriteCall :=
  if conn.writeIdx = 0 then some ⟨[], .finished, true, conn.init, outcomes⟩
  else conn.writeLoop conn.writeIdx 0 [] outcomes

/-- The calls of `write`, up to the one that finishes the response: the bytes that
have been sent. -/
def transmit : Nat → HttpConn → List Writev → Option (List Byte)
  | 0, _, _ => none
  | calls + 1, conn, outcomes =>
      match conn.write outcomes with
      | none => none
      | some call =>
          match call.ended with
          | .finished => some call.sent
          | .failed => none
          | .waiting => (transmit calls call.conn call.rest).map (call.sent ++ ·)

/-- The first call that sends anything sends all of the `total` bytes. -/
def atOnce (total : Nat) : List Writev → Bool
  | [] => false
  | .sent 0 :: rest => atOnce total rest
  | .sent count :: _ => count = total
  | .again :: rest => atOnce total rest
  | .failed :: _ => false

/-! ## The bytes that are sent -/

/-- Further bytes start the response anew. -/
def Anew (response more : List Byte) : Prop := more = [] ∨ more.head? = response.head?

theorem Anew.take_append {response more : List Byte} (anew : Anew response more) (count : Nat) :
    Anew response (response.take count ++ more) := by
  cases response with
  | nil => simpa using anew
  | cons first rest =>
      cases count with
      | zero => simpa using anew
      | succ count => exact Or.inr rfl

variable {conn : HttpConn}

@[simp] theorem sent_finishWrite (sent : List Byte) (rest : List Writev) :
    (conn.finishWrite sent rest).sent = sent := by
  cases linger : conn.linger <;> simp [finishWrite, unmap, linger]

@[simp] theorem ended_finishWrite (sent : List Byte) (rest : List Writev) :
    (conn.finishWrite sent rest).ended = .finished := by
  cases linger : conn.linger <;> simp [finishWrite, unmap, linger]

theorem writeLoop_anew (outcomes : List Writev) (toSend haveSend : Int) (sent : List Byte)
    {call : WriteCall} (returned : conn.writeLoop toSend haveSend sent outcomes = some call) :
    (∃ more, call.sent = sent ++ more ∧ Anew conn.offered more) ∧
      (call.ended = .waiting → call.conn = conn) := by
  induction outcomes generalizing toSend haveSend sent with
  | nil => cases returned
  | cons outcome rest induction =>
      cases outcome with
      | again =>
          cases returned
          exact ⟨⟨[], by simp, Or.inl rfl⟩, fun _ => rfl⟩
      | failed =>
          cases returned
          exact ⟨⟨[], by simp, Or.inl rfl⟩, fun waiting => nomatch waiting⟩
      | sent count =>
          rw [writeLoop] at returned
          by_cases done : toSend - count ≤ haveSend + count
          · have once : Anew conn.offered (conn.offered.take count ++ []) :=
              Anew.take_append (Or.inl rfl) count
            rw [List.append_nil] at once
            rw [if_pos done] at returned
            cases returned
            exact ⟨⟨_, by simp, once⟩, by simp⟩
          · rw [if_neg done] at returned
            rcases induction _ _ _ returned with ⟨⟨more, sentEq, anew⟩, same⟩
            exact ⟨⟨conn.offered.take count ++ more, by rw [sentEq, List.append_assoc],
              anew.take_append count⟩, same⟩

theorem Anew.append {response first second : List Byte} (firstAnew : Anew response first)
    (secondAnew : Anew response second) : Anew response (first ++ second) := by
  cases first with
  | nil => exact secondAnew
  | cons byte rest =>
      rcases firstAnew with empty | same
      · cases empty
      · exact Or.inr same

/-- Calls that finish the response: the first one does, or it waits and the others do. -/
theorem transmit_succ {calls : Nat} {outcomes : List Writev} {sent : List Byte}
    (finished : transmit (calls + 1) conn outcomes = some sent) :
    ∃ call, conn.write outcomes = some call ∧
      (call.ended = .finished ∧ sent = call.sent ∨
        call.ended = .waiting ∧ ∃ others, transmit calls call.conn call.rest = some others ∧
          sent = call.sent ++ others) := by
  rw [transmit] at finished
  cases returned : conn.write outcomes with
  | none =>
      rw [returned] at finished
      cases finished
  | some call =>
      refine ⟨call, rfl, ?_⟩
      rw [returned] at finished
      cases ended : call.ended with
      | finished =>
          simp only [ended] at finished
          exact Or.inl ⟨rfl, (Option.some.inj finished).symm⟩
      | failed =>
          simp only [ended] at finished
          cases finished
      | waiting =>
          simp only [ended] at finished
          rcases Option.map_eq_some_iff.mp finished with ⟨others, later, rfl⟩
          exact Or.inr ⟨rfl, others, later, rfl⟩

/-- Whatever the calls send begins with the first byte of the response. -/
theorem transmit_anew (calls : Nat) (outcomes : List Writev) (pending : conn.writeIdx ≠ 0)
    {sent : List Byte} (finished : transmit calls conn outcomes = some sent) :
    Anew conn.offered sent := by
  induction calls generalizing outcomes sent with
  | zero => cases finished
  | succ calls induction =>
      rcases transmit_succ finished with ⟨call, returned, ended⟩
      rw [write, if_neg pending] at returned
      rcases writeLoop_anew outcomes _ _ _ returned with ⟨⟨more, sentEq, anew⟩, same⟩
      rw [List.nil_append] at sentEq
      rcases ended with ⟨_, rfl⟩ | ⟨waiting, others, later, rfl⟩
      · exact sentEq ▸ anew
      · rw [same waiting] at later
        rw [sentEq]
        exact anew.append (induction call.rest later)

/-- A response that begins with a byte which is not found again in its header. -/
structure Headed (conn : HttpConn) (response : List Byte) : Prop where
  pending : conn.writeIdx ≠ 0
  offered_eq : conn.offered = response
  header_le : conn.writeIdx ≤ response.length
  unrepeated : ∀ index, 0 < index → index < conn.writeIdx → response[index]? ≠ response.head?

/-- A first count that is neither zero nor all the bytes spoils the response. -/
theorem Headed.spoiled {response : List Byte} (headed : Headed conn response) {count : Nat}
    (positive : 0 < count) (partly : count < response.length) (calls : Nat)
    (rest : List Writev) {sent : List Byte}
    (finished : transmit calls conn (.sent count :: rest) = some sent) : sent ≠ response := by
  have offered := headed.offered_eq
  cases calls with
  | zero => cases finished
  | succ calls =>
      rcases transmit_succ finished with ⟨call, returned, ended⟩
      rw [write, if_neg headed.pending, writeLoop] at returned
      by_cases done : (conn.writeIdx : Int) - count ≤ 0 + count
      · rw [if_pos done] at returned
        cases returned
        rcases ended with ⟨_, rfl⟩ | ⟨waiting, _⟩
        · intro equal
          have lengths := congrArg List.length equal
          rw [sent_finishWrite, List.nil_append, offered, List.length_take] at lengths
          omega
        · rw [ended_finishWrite] at waiting
          cases waiting
      · have early : count < conn.writeIdx := by omega
        rw [if_neg done] at returned
        have split : ∃ more, sent = response.take count ++ more ∧ Anew response more := by
          rcases writeLoop_anew rest _ _ _ returned with ⟨⟨more, sentEq, anew⟩, same⟩
          rw [offered, List.nil_append] at sentEq
          rw [offered] at anew
          rcases ended with ⟨_, rfl⟩ | ⟨waiting, others, later, rfl⟩
          · exact ⟨more, sentEq, anew⟩
          · rw [same waiting] at later
            have othersAnew := transmit_anew calls call.rest headed.pending later
            rw [offered] at othersAnew
            exact ⟨more ++ others, by rw [sentEq]; exact List.append_assoc ..,
              anew.append othersAnew⟩
        rcases split with ⟨more, sentEq, anew⟩
        intro equal
        rw [equal] at sentEq
        have moreEq : more = response.drop count := by
          have parts := List.take_append_drop count response
          exact List.append_cancel_left (sentEq.symm.trans parts.symm)
        rcases anew with empty | same
        · have lengths := congrArg List.length (moreEq.symm.trans empty)
          rw [List.length_drop, List.length_nil] at lengths
          omega
        · rw [moreEq, List.head?_drop] at same
          exact headed.unrepeated count positive early same

/-- The response is sent as it should be exactly when one call sends all of it. -/
theorem Headed.sent_iff {response : List Byte} (headed : Headed conn response)
    (outcomes : List Writev) (possible : ∀ outcome ∈ outcomes, outcome.Possible response.length)
    (calls : Nat) {sent : List Byte} (finished : transmit calls conn outcomes = some sent) :
    sent = response ↔ atOnce response.length outcomes = true := by
  have offered := headed.offered_eq
  induction outcomes generalizing calls sent with
  | nil =>
      cases calls with
      | zero => cases finished
      | succ calls => simp [transmit, write, headed.pending, writeLoop] at finished
  | cons outcome rest induction =>
      have possibleRest : ∀ other ∈ rest, other.Possible response.length :=
        fun other member => possible other (List.mem_cons_of_mem _ member)
      have possibleNow := possible outcome (List.mem_cons_self ..)
      cases calls with
      | zero => cases finished
      | succ calls =>
          cases outcome with
          | failed => cases possibleNow
          | again =>
              rcases transmit_succ finished with ⟨call, returned, ended⟩
              rw [write, if_neg headed.pending, writeLoop] at returned
              cases returned
              rcases ended with ⟨never, _⟩ | ⟨_, others, later, sentEq⟩
              · cases never
              · rw [sentEq, List.nil_append, atOnce]
                exact induction possibleRest calls later
          | sent count =>
              cases count with
              | zero =>
                  have same : transmit (calls + 1) conn (.sent 0 :: rest) =
                      transmit (calls + 1) conn rest := by
                    have notDone : ¬ (conn.writeIdx : Int) - (0 : Nat) ≤ 0 + (0 : Nat) := by
                      have pending := headed.pending
                      omega
                    rw [transmit, transmit, write, write, if_neg headed.pending,
                      if_neg headed.pending, writeLoop, if_neg notDone]
                    simp
                  rw [same] at finished
                  rw [atOnce]
                  exact induction possibleRest (calls + 1) finished
              | succ count =>
                  have atOnceEq : atOnce response.length (.sent (count + 1) :: rest) =
                      decide (count + 1 = response.length) := rfl
                  rw [atOnceEq, decide_eq_true_iff]
                  by_cases whole : count + 1 = response.length
                  · refine iff_of_true ?_ whole
                    have headerLe := headed.header_le
                    have done : (conn.writeIdx : Int) - (count + 1 : Nat) ≤
                        0 + (count + 1 : Nat) := by omega
                    rw [transmit, write, if_neg headed.pending, writeLoop, if_pos done] at finished
                    simp only [ended_finishWrite, sent_finishWrite, List.nil_append, offered,
                      whole, List.take_length, Option.some.injEq] at finished
                    exact finished.symm
                  · have countLe : count + 1 ≤ response.length := possibleNow.1
                    exact iff_of_false (headed.spoiled (Nat.succ_pos count) (by omega) _ rest
                      finished) whole

/-! ## Prepared responses -/

/-- The header that `process_write` leaves in the write buffer, and the file behind it. -/
def response (code : HttpCode) (conn : HttpConn) : List Byte :=
  conn.writeBuf.take conn.writeIdx ++
    if code = .fileRequest then conn.fileAddress.getD [] else []

theorem BeginsWithH.headed (begins : BeginsWithH conn) {response body : List Byte}
    (responseEq : response = conn.writeBuf.take conn.writeIdx ++ body)
    (offeredEq : conn.offered = response) : Headed conn response := by
  rcases begins.text with ⟨tail, taken, unrepeated⟩
  have bufferLength := begins.bufferLength
  have writeIdxLe := begins.writeIdx_le
  have lengths := congrArg List.length taken
  rw [List.length_take, List.length_cons] at lengths
  refine ⟨by omega, offeredEq, ?_, ?_⟩
  · rw [responseEq, List.length_append, List.length_take]
    omega
  · intro index positive within same
    have cut : ∃ before, index = before + 1 := ⟨index - 1, by omega⟩
    rcases cut with ⟨before, rfl⟩
    have inTail : before < tail.length := by omega
    have stored : (72 :: tail ++ body)[before + 1]? = some tail[before] := by
      rw [List.cons_append, List.getElem?_cons_succ, List.getElem?_append_left inTail,
        List.getElem?_eq_getElem inTail]
    rw [responseEq, taken, stored] at same
    have isH := Option.some.inj same
    exact unrepeated (isH ▸ List.getElem_mem inTail)

variable {ready : HttpConn}

theorem BeginsWithH.offerBuffer (begins : BeginsWithH conn) : BeginsWithH conn.offerBuffer :=
  ⟨begins.bufferLength, begins.text, begins.writeIdx_le⟩

theorem BeginsWithH.offerFile (begins : BeginsWithH conn) : BeginsWithH conn.offerFile :=
  ⟨begins.bufferLength, begins.text, begins.writeIdx_le⟩

theorem offered_offerBuffer (conn : HttpConn) :
    conn.offerBuffer.offered = conn.writeBuf.take conn.writeIdx := by
  simp [offered, HttpConn.offerBuffer, region]

theorem offered_offerFile (conn : HttpConn)
    (mapped : conn.fileSize = (conn.fileAddress.getD []).length) :
    conn.offerFile.offered =
      conn.writeBuf.take conn.writeIdx ++ conn.fileAddress.getD [] := by
  simp [offered, HttpConn.offerFile, region, mapped]

theorem answer_headed {code : HttpCode} (notFile : code ≠ .fileRequest)
    (bufferLength : conn.writeBuf.length = writeBufferSize)
    (empty : conn.writeIdx = 0) {status : Int} {title form : List Byte}
    (absent : (72 : Byte) ∉ decimal status ++ ascii " " ++ title ++ ascii "\r\n")
    (short : (decimal status ++ title).length < 100) (formAbsent : (72 : Byte) ∉ form)
    (prepared : answer status title form conn = (ready, true)) :
    Headed ready (response code ready) := by
  have first := beginsWithH_addStatusLine bufferLength empty status title absent short
  have last := (first.addHeaders form.length).addResponse formAbsent
  have added : addContent form (addHeaders form.length (addStatusLine status title conn).1) =
    addResponse form (addHeaders form.length (addStatusLine status title conn).1) := rfl
  simp only [answer, added] at prepared
  generalize addResponse form (addHeaders form.length (addStatusLine status title conn).1) =
    result at last prepared
  split at prepared
  · have readyEq := (Prod.mk.inj prepared).1
    subst readyEq
    refine last.offerBuffer.headed rfl ?_
    rw [response, if_neg notFile, List.append_nil]
    exact offered_offerBuffer result.1
  · exact absurd (Prod.mk.inj prepared).2 (by decide)

/-- The status, the title, and the text of the responses to requests that fail. -/
def errorAnswers : List (Int × List Byte × List Byte) :=
  [(500, error500Title, error500Form), (400, error400Title, error400Form),
    (404, error404Title, error404Form), (403, error403Title, error403Form)]

theorem errorAnswers_plain : ∀ entry ∈ errorAnswers,
    (72 : Byte) ∉ decimal entry.1 ++ ascii " " ++ entry.2.1 ++ ascii "\r\n" ∧
      (decimal entry.1 ++ entry.2.1).length < 100 ∧ (72 : Byte) ∉ entry.2.2 := by
  decide +kernel

theorem answered_of_prepared {code : HttpCode} (notFile : code ≠ .fileRequest)
    (prepared : processWrite code conn = (ready, true)) :
    ∃ entry ∈ errorAnswers, answer entry.1 entry.2.1 entry.2.2 conn = (ready, true) := by
  cases code with
  | internalError =>
      refine ⟨(500, error500Title, error500Form), ?_, prepared⟩
      simp [errorAnswers]
  | badRequest =>
      refine ⟨(400, error400Title, error400Form), ?_, prepared⟩
      simp [errorAnswers]
  | noResource =>
      refine ⟨(404, error404Title, error404Form), ?_, prepared⟩
      simp [errorAnswers]
  | forbiddenRequest =>
      refine ⟨(403, error403Title, error403Form), ?_, prepared⟩
      simp [errorAnswers]
  | fileRequest => exact absurd rfl notFile
  | noRequest => cases prepared
  | getRequest => cases prepared
  | closedConnection => cases prepared

/-- Every response that `process_write` prepares begins with its only `H`. -/
theorem processWrite_headed {code : HttpCode} (bufferLength : conn.writeBuf.length = writeBufferSize)
    (empty : conn.writeIdx = 0)
    (mapped : code = .fileRequest → conn.fileSize = (conn.fileAddress.getD []).length)
    (prepared : processWrite code conn = (ready, true)) : Headed ready (response code ready) := by
  by_cases isFile : code = .fileRequest
  · subst isFile
    have first := beginsWithH_addStatusLine bufferLength empty 200 ok200Title (by decide +kernel)
      (by decide +kernel)
    have firstFile : SameFile conn (addStatusLine 200 ok200Title conn).1 :=
      sameFile_addResponse _ conn
    simp only [processWrite] at prepared
    generalize (addStatusLine 200 ok200Title conn).1 = started at first firstFile prepared
    split at prepared
    · have last := first.addHeaders (toInt started.fileSize)
      have file := firstFile.trans (sameFile_addHeaders (toInt started.fileSize) started)
      generalize addHeaders (toInt started.fileSize) started = result at last file prepared
      have readyEq := (Prod.mk.inj prepared).1
      subst readyEq
      refine last.offerFile.headed rfl ?_
      rw [response, if_pos rfl]
      apply offered_offerFile
      rw [file.fileSize, file.fileAddress, mapped rfl]
    · exact absurd (Prod.mk.inj prepared).2 (by decide)
  · rcases answered_of_prepared isFile prepared with ⟨entry, member, answered⟩
    rcases errorAnswers_plain entry member with ⟨absent, short, formAbsent⟩
    exact answer_headed isFile bufferLength empty absent short formAbsent answered

/-- The peer is sent the header and the file, each byte once and in order, exactly if
the first call of `writev` that sends anything sends all of it. -/
theorem sent_eq_response_iff {code : HttpCode} (bufferLength : conn.writeBuf.length = writeBufferSize)
    (empty : conn.writeIdx = 0)
    (mapped : code = .fileRequest → conn.fileSize = (conn.fileAddress.getD []).length)
    (prepared : processWrite code conn = (ready, true)) (outcomes : List Writev)
    (possible : ∀ outcome ∈ outcomes, outcome.Possible (response code ready).length)
    (calls : Nat) {sent : List Byte} (finished : transmit calls ready outcomes = some sent) :
    sent = response code ready ↔ atOnce (response code ready).length outcomes = true :=
  (processWrite_headed bufferLength empty mapped prepared).sent_iff outcomes possible calls finished

def refused : HttpConn := (processWrite .badRequest fresh).1

/-- A refused request, answered in the second call of `write`. -/
theorem sent_eq_response_iff_refused :
    response .badRequest refused = response .badRequest refused ↔
      atOnce (response .badRequest refused).length [.again, .sent 0, .sent 135] = true :=
  sent_eq_response_iff
    (List.length_replicate : fresh.writeBuf.length = writeBufferSize) rfl (by decide)
    (Prod.ext rfl (by decide +kernel)) _
    (by decide +kernel) 2 (by decide +kernel)

/-- Of the 135 bytes of this response the peer is sent only 100. -/
theorem write_stops_early :
    transmit 1 refused [.sent 100] = some ((response .badRequest refused).take 100) ∧
      (response .badRequest refused).take 100 ≠ response .badRequest refused := by
  decide +kernel

end HttpConn

end DataStructAlgorithm.HTTPD2
