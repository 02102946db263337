import DataStructAlgorithm.Foundation.CString
import DataStructAlgorithm.HTTPD.GetLine

/-! # The header loops of `HTTPD/httpd.c`

`drop_header` and the loop of `exec_cgi` for `POST` call `get_line` until it returns nothing or
an empty line. They differ in the size of the buffer and in what they keep of a line. -/

namespace DataStructAlgorithm.HTTPD

open Foundation

/-- `BUFF_SIZE` -/
def buffSize : Nat := 1024

/-- The string in a buffer after `get_line` has stored a line in it. -/
def stringOf (line : List Byte) : List Byte := line.takeWhile (· != 0)

section Loops

variable {Memory : Type}

/-- One line of the header, and what is remembered of it. -/
def headerPass (size : Nat) (visit : Memory → List Byte → Memory)
    (state : Memory × List Byte) :
    Outcome (Pass (Memory × List Byte) (Memory × List Byte)) := do
  let (line, sockfd) ← getLine size state.2
  let buf := stringOf line
  let memory := visit state.1 buf
  if 0 < line.length ∧ buf ≠ ascii "\n" then pure (.again (memory, sockfd))
  else pure (.leave (memory, sockfd))

end Loops

/-- What `drop_header` leaves of the socket. -/
def dropHeader (fuel : Nat) (sockfd : List Byte) : Outcome (List Byte) := do
  let state ← repeatLoop (headerPass buffSize fun (memory : Unit) _ => memory) fuel ((), sockfd)
  pure state.2

/-- `atoi` -/
def atoi (text : List Byte) : Int := toInt (atol text)

/-- The length that a line announces. -/
def announced (buf : List Byte) : Option Int :=
  if sameStart 16 buf (ascii "Content-Length: ") then some (atoi (buf.drop 16)) else none

/-- The loop of `exec_cgi` for `POST`: `content_len`, and what is left of the socket. -/
def postHeader (fuel : Nat) (sockfd : List Byte) : Outcome (Int × List Byte) :=
  repeatLoop
    (headerPass (buffSize / 10) fun contentLen buf => (announced buf).getD contentLen)
    fuel (-1, sockfd)

/-! ## One line -/

/-- The pieces that a line is read in, its line end among them. -/
def linePieces (bound : Nat) (line : List Byte) : List (List Byte) :=
  (List.range (line.length / bound + 1)).map fun index =>
    ((line ++ [lineFeed]).drop (index * bound)).take bound

/-- A line and its end. -/
def crlfLine (line : List Byte) : List Byte := line ++ [carriageReturn, lineFeed]

theorem linePieces_short {bound : Nat} {line : List Byte} (short : line.length < bound) :
    linePieces bound line = [line ++ [lineFeed]] := by
  have whole : (line ++ [lineFeed]).length ≤ bound := by
    rw [List.length_append]
    exact short
  rw [linePieces, Nat.div_eq_of_lt short]
  simp only [Nat.zero_add, List.range_one, List.map_cons, List.map_nil, Nat.zero_mul,
    List.drop_zero, List.take_of_length_le whole]

theorem linePieces_long {bound : Nat} {line : List Byte} (positive : 0 < bound)
    (long : bound ≤ line.length) :
    linePieces bound line = line.take bound :: linePieces bound (line.drop bound) := by
  have quotient : line.length / bound = (line.drop bound).length / bound + 1 := by
    rw [List.length_drop, ← Nat.div_eq_sub_div positive long]
  rw [linePieces, quotient, List.range_succ_eq_map, List.map_cons, List.map_map, Nat.zero_mul,
    List.drop_zero, List.take_append_of_le_length long, linePieces]
  apply congrArg
  apply List.map_congr_left
  intro index _
  rw [Function.comp_apply, Nat.succ_mul, Nat.add_comm, ← List.drop_drop,
    List.drop_append_of_le_length long]

theorem stringOf_ne_newline {piece : List Byte} (noFeed : lineFeed ∉ piece) :
    stringOf piece ≠ ascii "\n" := by
  intro same
  have member : lineFeed ∈ stringOf piece := by
    rw [same]
    decide
  exact noFeed (List.takeWhile_subset _ member)

theorem stringOf_last {line : List Byte} (unbroken : Unbroken line) :
    stringOf (line ++ [lineFeed]) = ascii "\n" ↔ line = [] := by
  constructor
  · intro same
    cases line with
    | nil => rfl
    | cons byte line =>
        by_cases isZero : byte = 0
        · rw [isZero] at same
          cases same
        · have kept : (fun byte : Byte => byte != 0) byte = true := bne_iff_ne.mpr isZero
          have first : byte :: stringOf (line ++ [lineFeed]) = ascii "\n" := by
            rw [← same, stringOf, stringOf, List.cons_append, List.takeWhile_cons, if_pos kept]
          exact absurd (List.cons.inj first).1 (unbroken_cons.mp unbroken).1.2
  · intro empty
    rw [empty]
    decide

section Reading

variable {Memory : Type} {size : Nat} (visit : Memory → List Byte → Memory)

/-- What is remembered of some pieces. -/
def visitAll (memory : Memory) (pieces : List (List Byte)) : Memory :=
  pieces.foldl (fun memory piece => visit memory (stringOf piece)) memory

theorem visitAll_append (memory : Memory) (first second : List (List Byte)) :
    visitAll visit memory (first ++ second) = visitAll visit (visitAll visit memory first) second :=
  List.foldl_append

theorem crlfLine_append (line rest : List Byte) :
    crlfLine line ++ rest = line ++ carriageReturn :: lineFeed :: rest := by
  rw [crlfLine, List.append_assoc]
  rfl

/-- A pass that reads something other than an empty line goes on. -/
theorem headerPass_again {memory : Memory} {sockfd piece left : List Byte}
    (taken : takePiece (size - 1) sockfd = (piece, left)) (present : 0 < piece.length)
    (notLast : stringOf piece ≠ ascii "\n") :
    headerPass size visit (memory, sockfd) = .ok (.again (visit memory (stringOf piece), left)) := by
  have got := getLine_eq size sockfd
  rw [taken] at got
  rw [headerPass, got, Outcome.ok_bind]
  exact if_pos ⟨present, notLast⟩

theorem headerPass_leave {memory : Memory} {sockfd piece left : List Byte}
    (taken : takePiece (size - 1) sockfd = (piece, left)) (isLast : stringOf piece = ascii "\n") :
    headerPass size visit (memory, sockfd) = .ok (.leave (visit memory (stringOf piece), left)) := by
  have got := getLine_eq size sockfd
  rw [taken] at got
  rw [headerPass, got, Outcome.ok_bind]
  exact if_neg fun goes => goes.2 isLast

/-- A line is read in its pieces. When its length is a multiple of what fits the buffer, its
end comes in a piece of its own, and the loop takes that for an empty line. -/
theorem header_line (two : 2 ≤ size) {line : List Byte} (unbroken : Unbroken line)
    (memory : Memory) (rest : List Byte) :
    ∃ passes, passes ≤ (crlfLine line).length ∧ ∀ fuel,
      repeatLoop (headerPass size visit) (fuel + passes) (memory, crlfLine line ++ rest) =
        if size - 1 ∣ line.length then
          .ok (visitAll visit memory (linePieces (size - 1) line), rest)
        else repeatLoop (headerPass size visit) fuel
          (visitAll visit memory (linePieces (size - 1) line), rest) := by
  induction longer : line.length using Nat.strongRecOn generalizing line memory with
  | ind length induction =>
      subst longer
      have taken := takePiece_line unbroken (size - 1) rest
      rw [← crlfLine_append] at taken
      by_cases short : line.length < size - 1
      · rw [if_pos short] at taken
        have few : 1 ≤ (crlfLine line).length := by
          rw [crlfLine, List.length_append]
          exact Nat.le_add_left 1 _
        refine ⟨1, few, fun fuel => ?_⟩
        rw [linePieces_short short]
        by_cases empty : line = []
        · rw [repeatLoop_leave _ (headerPass_leave visit taken ((stringOf_last unbroken).mpr empty)),
            if_pos (empty ▸ Nat.dvd_zero _)]
          rfl
        · have positive := List.length_pos_iff.mpr empty
          have present : 0 < (line ++ [lineFeed]).length := by simp
          rw [repeatLoop_again _ (headerPass_again visit taken present
            (mt (stringOf_last unbroken).mp empty)),
            if_neg (Nat.not_dvd_of_pos_of_lt positive short)]
          rfl
      · have long : size - 1 ≤ line.length := Nat.le_of_not_lt short
        have noFeed : lineFeed ∉ line.take (size - 1) := fun member =>
          (unbroken lineFeed (List.mem_of_mem_take member)).2 rfl
        have present : 0 < (line.take (size - 1)).length := by
          rw [List.length_take_of_le long]
          omega
        have dropped : (line.drop (size - 1)).length = line.length - (size - 1) :=
          List.length_drop
        have fewer : (line.drop (size - 1)).length < line.length := by omega
        rw [if_neg short, ← crlfLine_append] at taken
        rcases induction _ fewer
          (fun byte member => unbroken byte (List.mem_of_mem_drop member))
          (visit memory (stringOf (line.take (size - 1)))) rfl with ⟨passes, few, run⟩
        refine ⟨passes + 1, ?_, fun fuel => ?_⟩
        · rw [crlfLine, List.length_append] at few ⊢
          omega
        · have divides : size - 1 ∣ (line.drop (size - 1)).length ↔ size - 1 ∣ line.length := by
            rw [dropped]
            exact Nat.dvd_sub_iff_left long (Nat.dvd_refl _)
          rw [← Nat.add_assoc, repeatLoop_again _ (headerPass_again visit taken present
            (stringOf_ne_newline noFeed)), run, linePieces_long (by omega) long]
          simp only [divides]
          rfl

/-- The lines of a header and the empty line behind them. -/
def headerSection (lines : List (List Byte)) : List Byte :=
  lines.flatMap crlfLine ++ crlfLine []

/-- The header is left behind its empty line, or too early when the length of a line is a
multiple of what fits the buffer. -/
theorem header_section (two : 2 ≤ size) {lines : List (List Byte)}
    (unbroken : ∀ line ∈ lines, Unbroken line) (memory : Memory) (body : List Byte) :
    ∃ passes final, passes ≤ (headerSection lines).length ∧
      (∀ fuel, repeatLoop (headerPass size visit) (fuel + passes)
        (memory, headerSection lines ++ body) = .ok final) ∧
      ((∀ line ∈ lines, ¬ size - 1 ∣ line.length) → final =
        (visitAll visit memory ((lines ++ [[]]).flatMap (linePieces (size - 1))), body)) ∧
      ((∃ line ∈ lines, size - 1 ∣ line.length) → body.length < final.2.length) := by
  induction lines generalizing memory with
  | nil =>
      rcases header_line visit two unbroken_nil memory body with ⟨passes, few, run⟩
      refine ⟨passes, _, few, fun fuel => ?_, fun _ => rfl, by simp⟩
      have isMultiple : size - 1 ∣ ([] : List Byte).length := Nat.dvd_zero _
      have ended := run fuel
      rw [if_pos isMultiple] at ended
      simpa [headerSection] using ended
  | cons line lines induction =>
      have split : headerSection (line :: lines) ++ body =
          crlfLine line ++ (headerSection lines ++ body) := by
        simp only [headerSection, List.flatMap_cons, List.append_assoc]
      have longer : (headerSection (line :: lines)).length =
          (crlfLine line).length + (headerSection lines).length := by
        simp only [headerSection, List.flatMap_cons, List.length_append]
        omega
      have ends : 0 < (headerSection lines).length := by
        rw [headerSection, List.length_append]
        exact Nat.lt_of_lt_of_le (by decide) (Nat.le_add_left _ _)
      rcases List.forall_mem_cons.mp unbroken with ⟨first, others⟩
      rcases header_line visit two first memory (headerSection lines ++ body) with
        ⟨passes, few, run⟩
      by_cases isMultiple : size - 1 ∣ line.length
      · refine ⟨passes, (visitAll visit memory (linePieces (size - 1) line),
          headerSection lines ++ body), by omega, fun fuel => ?_, fun good => ?_, fun _ => ?_⟩
        · rw [split, run, if_pos isMultiple]
        · exact absurd isMultiple (good line List.mem_cons_self)
        · rw [List.length_append]
          omega
      · rcases induction others (visitAll visit memory (linePieces (size - 1) line)) with
          ⟨more, final, fewMore, runMore, whenGood, whenBad⟩
        refine ⟨passes + more, final, by omega, fun fuel => ?_, fun good => ?_, fun bad => ?_⟩
        · rw [split, Nat.add_comm passes, ← Nat.add_assoc, run, if_neg isMultiple, runMore]
        · rw [whenGood (List.forall_mem_cons.mp good).2, ← visitAll_append]
          rfl
        · rcases bad with ⟨bad, member, badMultiple⟩
          rcases List.mem_cons.mp member with rfl | later
          · exact absurd badMultiple isMultiple
          · exact whenBad ⟨bad, later, badMultiple⟩

/-- With as many passes as there are bytes, the loop ends. -/
theorem header_ended (two : 2 ≤ size) {lines : List (List Byte)}
    (unbroken : ∀ line ∈ lines, Unbroken line) (memory : Memory) (body : List Byte) (fuel : Nat)
    (enough : (headerSection lines).length ≤ fuel) :
    ∃ final, repeatLoop (headerPass size visit) fuel (memory, headerSection lines ++ body) =
        .ok final ∧
      (final.2 = body ↔ ∀ line ∈ lines, ¬ size - 1 ∣ line.length) ∧
      (final.2 = body →
        final.1 = visitAll visit memory ((lines ++ [[]]).flatMap (linePieces (size - 1)))) := by
  rcases header_section visit two unbroken memory body with
    ⟨passes, final, few, run, whenGood, whenBad⟩
  have exact := run (fuel - passes)
  rw [Nat.sub_add_cancel (Nat.le_trans few enough)] at exact
  have good : final.2 = body → ∀ line ∈ lines, ¬ size - 1 ∣ line.length := by
    intro left line member isMultiple
    have longer := whenBad ⟨line, member, isMultiple⟩
    rw [left] at longer
    exact Nat.lt_irrefl _ longer
  refine ⟨final, exact, ⟨good, fun all => ?_⟩, fun left => ?_⟩
  · rw [whenGood all]
  · rw [whenGood (good left)]

end Reading

/-! ## The announced length -/

/-- The number at the beginning of a text, without a bound. -/
def writtenNumber (text : List Byte) : Int :=
  match text.dropWhile isSpace with
  | [] => 0
  | first :: rest =>
      if first = 45 then -leadingNumber rest
      else if first = 43 then leadingNumber rest
      else leadingNumber (first :: rest)

def LengthLine (line : List Byte) : Prop :=
  sameStart 16 line (ascii "Content-Length: ") = true

instance (line : List Byte) : Decidable (LengthLine line) :=
  inferInstanceAs (Decidable (_ = _))

/-- The length that a piece of a line announces. -/
def announcedBy (piece : List Byte) : Option Int := announced (stringOf piece)

/-- What the pieces of some lines announce, one after the other. -/
def announcements (bound : Nat) (lines : List (List Byte)) : List Int :=
  (lines.flatMap (linePieces bound)).filterMap announcedBy

theorem announcements_append (bound : Nat) (first second : List (List Byte)) :
    announcements bound (first ++ second) =
      announcements bound first ++ announcements bound second := by
  rw [announcements, List.flatMap_append, List.filterMap_append]
  rfl

theorem visitAll_announced (pieces : List (List Byte)) (start : Int) :
    visitAll (fun contentLen buf => (announced buf).getD contentLen) start pieces =
      ((pieces.filterMap announcedBy).getLast?).getD start := by
  induction pieces generalizing start with
  | nil => rfl
  | cons piece pieces induction =>
      have step := induction ((announcedBy piece).getD start)
      rw [visitAll] at step ⊢
      rw [List.foldl_cons]
      refine step.trans ?_
      cases found : announcedBy piece with
      | none => rw [List.filterMap_cons_none found, Option.getD_none]
      | some value =>
          rw [List.filterMap_cons_some found, List.getLast?_cons, Option.getD_some,
            Option.getD_some]

/-- The first piece of a line that announces a length announces one. -/
theorem announcements_ne_nil {bound : Nat} (wide : 16 ≤ bound) {line : List Byte}
    (isLength : LengthLine line) (after : List (List Byte)) :
    announcements bound (line :: after) ≠ [] := by
  have long : 16 ≤ line.length := le_length_of_sameStart isLength (by decide)
  have first : ∃ rest, linePieces bound line = (line ++ [lineFeed]).take bound :: rest := by
    rw [linePieces, List.range_succ_eq_map, List.map_cons, Nat.zero_mul, List.drop_zero]
    exact ⟨_, rfl⟩
  rcases first with ⟨rest, pieces⟩
  have plain : ∀ byte ∈ line.take 16, (byte != 0) = true := by
    intro byte member
    rw [bne_iff_ne]
    intro isZero
    have inLower : toLower byte ∈ (line.take 16).map toLower := List.mem_map_of_mem member
    have same : (line.take 16).map toLower = ((ascii "Content-Length: ").take 16).map toLower :=
      beq_iff_eq.mp isLength
    rw [same, isZero] at inLower
    revert inLower
    decide
  have start : (stringOf ((line ++ [lineFeed]).take bound)).take 16 = line.take 16 := by
    have parts : (line ++ [lineFeed]).take bound =
        line.take 16 ++ ((line ++ [lineFeed]).take bound).drop 16 := by
      have kept : ((line ++ [lineFeed]).take bound).take 16 = line.take 16 := by
        rw [List.take_take, Nat.min_eq_left wide, List.take_append_of_le_length long]
      rw [← kept, List.take_append_drop]
    rw [parts, stringOf, List.takeWhile_append_of_pos plain, List.take_left']
    exact List.length_take_of_le long
  have isFirst : ∃ value, announcedBy ((line ++ [lineFeed]).take bound) = some value := by
    have begins : sameStart 16 (stringOf ((line ++ [lineFeed]).take bound))
        (ascii "Content-Length: ") = true := by
      rw [sameStart, start]
      exact isLength
    exact ⟨_, if_pos begins⟩
  rcases isFirst with ⟨value, isFirst⟩
  rw [announcements, List.flatMap_cons, pieces, List.cons_append, List.filterMap_cons_some isFirst]
  exact List.cons_ne_nil _ _

/-- Both loops leave exactly the body, and `content_len` is the number in the line that
announces the length, if there is exactly one such line. -/
def ReadsHeader (fuel : Nat) (lines : List (List Byte)) (body : List Byte) : Prop :=
  dropHeader fuel (headerSection lines ++ body) = .ok body ∧
  ∃ contentLen, postHeader fuel (headerSection lines ++ body) = .ok (contentLen, body) ∧
    ∀ before line after, lines = before ++ line :: after → LengthLine line →
      (∀ other ∈ before ++ after, ¬ LengthLine other) →
      contentLen = writtenNumber (line.drop 16)

/-- `drop_header` and the loop for `POST` read a header as they should exactly when no line has
a length that is a multiple of what fits their buffer, and the last piece that announces a
length announces the number in the line. -/
theorem header_read (lines : List (List Byte)) (body : List Byte) (fuel : Nat)
    (unbroken : ∀ line ∈ lines, line ≠ [] ∧ Unbroken line)
    (enough : (headerSection lines).length ≤ fuel) :
    ReadsHeader fuel lines body ↔
      (∀ line ∈ lines, ¬ 1023 ∣ line.length) ∧ (∀ line ∈ lines, ¬ 101 ∣ line.length) ∧
      ∀ before line after, lines = before ++ line :: after → LengthLine line →
        (∀ other ∈ before ++ after, ¬ LengthLine other) →
        (announcements 101 (line :: after)).getLast? = some (writtenNumber (line.drop 16)) := by
  have plain : ∀ line ∈ lines, Unbroken line := fun line member => (unbroken line member).2
  rcases header_ended (fun (memory : Unit) _ => memory) (by decide : 2 ≤ buffSize) plain () body
    fuel enough with ⟨dropped, dropRun, dropRight, _⟩
  rcases header_ended (fun contentLen buf => (announced buf).getD contentLen)
    (by decide : 2 ≤ buffSize / 10) plain (-1) body fuel enough with
    ⟨posted, postRun, postRight, postValue⟩
  have dropEq : dropHeader fuel (headerSection lines ++ body) = .ok dropped.2 := by
    rw [dropHeader, dropRun]
    rfl
  have value : posted.2 = body → ∀ before line after, lines = before ++ line :: after →
      LengthLine line → (announcements 101 (line :: after)).getLast? = some posted.1 := by
    intro left before line after split isLength
    have isLast := postValue left
    rw [visitAll_announced] at isLast
    have same : ((lines ++ [[]]).flatMap (linePieces (buffSize / 10 - 1))).filterMap announcedBy =
        announcements 101 before ++ announcements 101 (line :: after) := by
      rw [← announcements_append, ← split]
      have ended : announcements 101 [[]] = [] := by decide
      have whole := announcements_append 101 lines [[]]
      rw [ended, List.append_nil] at whole
      exact whole
    have present := announcements_ne_nil (by decide : 16 ≤ 101) isLength after
    rw [same, List.getLast?_append, List.getLast?_eq_some_getLast present, Option.some_or,
      Option.getD_some] at isLast
    rw [List.getLast?_eq_some_getLast present, isLast]
  constructor
  · rintro ⟨dropBody, contentLen, postBody, isNumber⟩
    rw [dropEq] at dropBody
    rw [postHeader, postRun] at postBody
    cases postBody
    refine ⟨dropRight.mp (Except.ok.inj dropBody), postRight.mp rfl, ?_⟩
    intro before line after split isLength only
    rw [value rfl before line after split isLength, isNumber before line after split isLength only]
  · rintro ⟨dropGood, postGood, lengthGood⟩
    have dropBody := dropRight.mpr dropGood
    have postBody := postRight.mpr postGood
    refine ⟨by rw [dropEq, dropBody], posted.1, ?_, ?_⟩
    · rw [postHeader, postRun, ← postBody]
    · intro before line after split isLength only
      have isLast := value postBody before line after split isLength
      rw [lengthGood before line after split isLength only] at isLast
      exact (Option.some.inj isLast).symm

theorem header_read_plain :
    ReadsHeader 60 [ascii "Host: here", ascii "content-length: 12"] (ascii "body") ↔
      (∀ line ∈ [ascii "Host: here", ascii "content-length: 12"], ¬ 1023 ∣ line.length) ∧
      (∀ line ∈ [ascii "Host: here", ascii "content-length: 12"], ¬ 101 ∣ line.length) ∧
      ∀ before line after,
        [ascii "Host: here", ascii "content-length: 12"] = before ++ line :: after →
        LengthLine line → (∀ other ∈ before ++ after, ¬ LengthLine other) →
        (announcements 101 (line :: after)).getLast? = some (writtenNumber (line.drop 16)) :=
  header_read _ _ 60 (by decide +kernel) (by decide)

/-- A line of 1023 bytes ends the header for `drop_header`. A line of 101 bytes ends it for the
loop of `POST`, which then never sees the length. -/
theorem header_cut :
    ¬ ReadsHeader 1100 [List.replicate 1023 97] (ascii "body") ∧
    postHeader 200 (headerSection [List.replicate 101 97, ascii "Content-Length: 4"] ++
      ascii "body") = .ok (-1, ascii "Content-Length: 4\r\n\r\nbody") ∧
    ¬ ReadsHeader 200 [List.replicate 101 97, ascii "Content-Length: 4"] (ascii "body") := by
  have posted : postHeader 200 (headerSection [List.replicate 101 97, ascii "Content-Length: 4"] ++
      ascii "body") = .ok (-1, ascii "Content-Length: 4\r\n\r\nbody") := by
    decide +kernel
  refine ⟨?_, posted, ?_⟩
  · rintro ⟨dropped, _⟩
    have plain : ∀ line ∈ [List.replicate 1023 (97 : Byte)], Unbroken line := by
      intro line member byte inLine
      rw [List.mem_singleton.mp member] at inLine
      rw [List.eq_of_mem_replicate inLine]
      decide
    have long : (headerSection [List.replicate 1023 97]).length ≤ 1100 := by
      simp only [headerSection, crlfLine, List.flatMap_cons, List.flatMap_nil, List.append_nil,
        List.nil_append, List.length_append, List.length_replicate, List.length_cons,
        List.length_nil, Nat.reduceAdd, Nat.reduceLeDiff]
    rcases header_ended (fun (memory : Unit) _ => memory) (by decide : 2 ≤ buffSize) plain ()
      (ascii "body") 1100 long with ⟨final, run, right, _⟩
    rw [dropHeader, run] at dropped
    have notMultiple := right.mp (Except.ok.inj dropped) _ List.mem_cons_self
    rw [List.length_replicate] at notMultiple
    exact notMultiple (Nat.dvd_refl 1023)
  · rintro ⟨_, contentLen, post, _⟩
    rw [posted] at post
    cases post

end DataStructAlgorithm.HTTPD
