import DataStructAlgorithm.HTTPD2.Fields

/-! # Well-formed requests

What a request is for `http_conn.cpp`: a request line, header lines, an empty line, and
a body of the length that the first `Content-Length` line declares. -/

namespace DataStructAlgorithm.HTTPD2

open Foundation

def lineEnd : List Byte := [carriageReturn, lineFeed]

/-- The bytes of complete lines. -/
def lineBytes (lines : List (List Byte)) : List Byte := lines.flatMap (· ++ lineEnd)

/-- A line as a string: up to a zero, if the client has sent one. -/
def lineText (line : List Byte) : List Byte := line.takeWhile (· != 0)

/-- The number that the first `Content-Length` line gives, as an `int`. -/
def contentLengthOf (headers : List (List Byte)) : Int :=
  (headers.findSome? fun header => declaredLength (lineText header)).getD 0

/-- Lines that are neither empty nor broken. -/
def HeaderLines (headers : List (List Byte)) : Prop :=
  ∀ header ∈ headers, header ≠ [] ∧ Unbroken header

structure Request where
  requestLine : List Byte
  headers : List (List Byte)
  body : List Byte
  unbroken : Unbroken requestLine
  headerLines : HeaderLines headers
  bodyLength : body.length = (contentLengthOf headers).toNat

namespace Request

def head (request : Request) : List Byte :=
  request.requestLine ++ lineEnd ++ lineBytes request.headers ++ lineEnd

def bytes (request : Request) : List Byte := request.head ++ request.body

end Request

/-- A line is malformed, and no line in front of it but the request line is empty. -/
def MalformedLine (bytes : List Byte) : Prop :=
  ∃ before content rest, bytes = before ++ content ++ rest ∧ Unbroken content ∧ Malformed rest ∧
    (before = [] ∨ ∃ requestLine headers, Unbroken requestLine ∧ HeaderLines headers ∧
      before = requestLine ++ lineEnd ++ lineBytes headers)

/-- The bytes begin with a whole request. -/
def Complete (bytes : List Byte) : Prop := ∃ request : Request, request.bytes <+: bytes

/-- More bytes are needed for a whole request. -/
def Incomplete (bytes : List Byte) : Prop :=
  ∃ request : Request, bytes <+: request.bytes ∧ bytes ≠ request.bytes

theorem lineBytes_cons (line : List Byte) (lines : List (List Byte)) :
    lineBytes (line :: lines) = line ++ lineEnd ++ lineBytes lines := rfl

theorem lineBytes_cons_append (line : List Byte) (lines : List (List Byte)) (rest : List Byte) :
    lineBytes (line :: lines) ++ lineEnd ++ rest =
      line ++ carriageReturn :: lineFeed :: (lineBytes lines ++ lineEnd ++ rest) := by
  rw [lineBytes_cons]
  simp only [List.append_assoc]
  rfl

theorem contentLengthOf_undeclared {header : List Byte} (headers : List (List Byte))
    (declared : declaredLength (lineText header) = none) :
    contentLengthOf (header :: headers) = contentLengthOf headers := by
  rw [contentLengthOf, List.findSome?_cons, declared]
  rfl

theorem contentLengthOf_declared {header : List Byte} (headers : List (List Byte)) {value : Int}
    (declared : declaredLength (lineText header) = some value) :
    contentLengthOf (header :: headers) = value := by
  rw [contentLengthOf, List.findSome?_cons, declared]
  rfl

theorem length_le_lineBytes (lines : List (List Byte)) :
    lines.length ≤ (lineBytes lines).length := by
  induction lines with
  | nil => exact Nat.le_refl 0
  | cons line lines induction =>
      have two : lineEnd.length = 2 := rfl
      rw [lineBytes_cons, List.length_append, List.length_append, List.length_cons]
      omega

theorem headerLines_cons {header : List Byte} {headers : List (List Byte)} :
    HeaderLines (header :: headers) ↔
      (header ≠ [] ∧ Unbroken header) ∧ HeaderLines headers :=
  List.forall_mem_cons

/-- Where the lines that follow the request line lead to. -/
inductive HeadEnd (bytes : List Byte) : Prop
  | ended (headers rest) (headerLines : HeaderLines headers)
      (same : bytes = lineBytes headers ++ lineEnd ++ rest)
  | unfinished (headers tail content) (headerLines : HeaderLines headers)
      (same : bytes = lineBytes headers ++ tail) (scanned : scan tail = .open content)
  | malformed (headers tail content) (headerLines : HeaderLines headers)
      (same : bytes = lineBytes headers ++ tail) (scanned : scan tail = .bad content)

theorem HeadEnd.cons {header bytes : List Byte} (ends : HeadEnd bytes)
    (headerLine : header ≠ [] ∧ Unbroken header) : HeadEnd (header ++ lineEnd ++ bytes) := by
  cases ends with
  | ended headers rest headerLines same =>
      refine .ended (header :: headers) rest (headerLines_cons.mpr ⟨headerLine, headerLines⟩) ?_
      rw [same, lineBytes_cons]
      simp only [List.append_assoc]
  | unfinished headers tail content headerLines same scanned =>
      refine .unfinished (header :: headers) tail content
        (headerLines_cons.mpr ⟨headerLine, headerLines⟩) ?_ scanned
      rw [same, lineBytes_cons]
      simp only [List.append_assoc]
  | malformed headers tail content headerLines same scanned =>
      refine .malformed (header :: headers) tail content
        (headerLines_cons.mpr ⟨headerLine, headerLines⟩) ?_ scanned
      rw [same, lineBytes_cons]
      simp only [List.append_assoc]

theorem headEnd (bytes : List Byte) : HeadEnd bytes := by
  induction length : bytes.length using Nat.strongRecOn generalizing bytes with
  | ind count induction =>
      have describes := scan_describes bytes
      cases scanned : scan bytes with
      | «open» content => exact .unfinished [] bytes content nofun rfl scanned
      | bad content => exact .malformed [] bytes content nofun rfl scanned
      | line content rest =>
          rw [scanned] at describes
          rcases describes with ⟨unbroken, same⟩
          cases content with
          | nil => exact .ended [] rest nofun same
          | cons first others =>
              have shorter : rest.length < count := by
                rw [← length, same]
                simp only [List.length_append, List.length_cons]
                omega
              have split : bytes = (first :: others) ++ lineEnd ++ rest := by
                rw [same, List.append_assoc]
                rfl
              rw [split]
              exact (induction rest.length shorter rest rfl).cons
                ⟨List.cons_ne_nil _ _, unbroken⟩

/-! ## The kinds of contents -/

/-- A request with a body of zeros. -/
def Request.withZeros {requestLine : List Byte} {headers : List (List Byte)}
    (unbroken : Unbroken requestLine) (headerLines : HeaderLines headers) : Request where
  requestLine := requestLine
  headers := headers
  body := List.replicate (contentLengthOf headers).toNat 0
  unbroken := unbroken
  headerLines := headerLines
  bodyLength := List.length_replicate

theorem incomplete_of_head {bytes more : List Byte} (request : Request)
    (head : bytes ++ more = request.head) (some : more ≠ []) : Incomplete bytes := by
  refine ⟨request, ⟨more ++ request.body, ?_⟩, fun equal => ?_⟩
  · rw [Request.bytes, ← head, List.append_assoc]
  · have lengths := congrArg List.length equal
    rw [Request.bytes, ← head, List.length_append, List.length_append] at lengths
    have positive := List.length_pos_iff.mpr some
    omega

/-- A line that is not finished can be finished. -/
theorem exists_rest_of_open {tail content : List Byte} (scanned : scan tail = .open content) :
    Unbroken content ∧ ∃ more, more ≠ [] ∧ tail ++ more = content ++ lineEnd := by
  have describes := scan_describes tail
  rw [scanned] at describes
  rcases describes with ⟨unbroken, rfl | rfl⟩
  · exact ⟨unbroken, lineEnd, List.cons_ne_nil _ _, rfl⟩
  · exact ⟨unbroken, [lineFeed], List.cons_ne_nil _ _, List.append_assoc _ _ _⟩

theorem incomplete_of_unfinished {requestLine tail content : List Byte}
    {headers : List (List Byte)} (unbroken : Unbroken requestLine)
    (headerLines : HeaderLines headers) (scanned : scan tail = .open content) :
    Incomplete (requestLine ++ lineEnd ++ (lineBytes headers ++ tail)) := by
  rcases exists_rest_of_open scanned with ⟨contentUnbroken, more, someMore, finished⟩
  cases content with
  | nil =>
      apply incomplete_of_head (.withZeros unbroken headerLines) _ someMore
      rw [Request.head, Request.withZeros]
      simp only [List.append_assoc, finished, List.nil_append]
  | cons first rest =>
      have longer : HeaderLines (headers ++ [first :: rest]) := by
        intro header member
        rcases List.mem_append.mp member with earlier | last
        · exact headerLines header earlier
        · rw [List.mem_singleton.mp last]
          exact ⟨List.cons_ne_nil _ _, contentUnbroken⟩
      have someEnd : more ++ lineEnd ≠ [] := List.append_ne_nil_of_left_ne_nil someMore _
      apply incomplete_of_head (.withZeros unbroken longer) _ someEnd
      have last : lineBytes (headers ++ [first :: rest]) =
          lineBytes headers ++ (tail ++ more) := by
        rw [finished, lineBytes, List.flatMap_append]
        simp only [lineBytes, List.flatMap_cons, List.flatMap_nil, List.append_nil]
      rw [Request.head, Request.withZeros, last]
      simp only [List.append_assoc]

theorem complete_or_incomplete_of_ended {requestLine rest : List Byte}
    {headers : List (List Byte)} (unbroken : Unbroken requestLine)
    (headerLines : HeaderLines headers) :
    Complete (requestLine ++ lineEnd ++ (lineBytes headers ++ lineEnd ++ rest)) ∨
      Incomplete (requestLine ++ lineEnd ++ (lineBytes headers ++ lineEnd ++ rest)) := by
  rcases Nat.lt_or_ge rest.length (contentLengthOf headers).toNat with short | enough
  · let filled : Request :=
      { requestLine := requestLine, headers := headers
        body := rest ++ List.replicate ((contentLengthOf headers).toNat - rest.length) 0
        unbroken := unbroken, headerLines := headerLines
        bodyLength := by
          rw [List.length_append, List.length_replicate]
          omega }
    have bytesEq : filled.bytes = requestLine ++ lineEnd ++ (lineBytes headers ++ lineEnd ++ rest) ++
        List.replicate ((contentLengthOf headers).toNat - rest.length) 0 := by
      simp only [filled, Request.bytes, Request.head, List.append_assoc]
    refine Or.inr ⟨filled, ⟨_, bytesEq.symm⟩, fun equal => ?_⟩
    have lengths := congrArg List.length (equal.trans bytesEq)
    simp only [List.length_append, List.length_replicate] at lengths
    omega
  · let whole : Request :=
      { requestLine := requestLine, headers := headers
        body := rest.take (contentLengthOf headers).toNat
        unbroken := unbroken, headerLines := headerLines
        bodyLength := List.length_take_of_le enough }
    refine Or.inl ⟨whole, rest.drop (contentLengthOf headers).toNat, ?_⟩
    simp only [whole, Request.bytes, Request.head, List.append_assoc, List.take_append_drop]

/-- Every content has a malformed line, begins with a whole request, or is a proper part of
one. -/
theorem malformed_or_complete_or_incomplete (bytes : List Byte) :
    MalformedLine bytes ∨ Complete bytes ∨ Incomplete bytes := by
  have describes := scan_describes bytes
  cases scanned : scan bytes with
  | «open» content =>
      rcases exists_rest_of_open scanned with ⟨unbroken, more, someMore, finished⟩
      have noHeaders : HeaderLines [] := nofun
      have someEnd : more ++ lineEnd ≠ [] := List.append_ne_nil_of_left_ne_nil someMore _
      refine Or.inr (Or.inr (incomplete_of_head (.withZeros unbroken noHeaders) ?_ someEnd))
      rw [← List.append_assoc, finished, Request.head, Request.withZeros, lineBytes,
        List.flatMap_nil, List.append_nil]
  | bad content =>
      rw [scanned] at describes
      rcases describes with ⟨unbroken, rest, same, malformed⟩
      exact Or.inl ⟨[], content, rest, same, unbroken, malformed, Or.inl rfl⟩
  | line content rest =>
      rw [scanned] at describes
      rcases describes with ⟨unbroken, same⟩
      have split : bytes = content ++ lineEnd ++ rest := by
        rw [same, List.append_assoc]
        rfl
      rw [split]
      cases headEnd rest with
      | ended headers body headerLines restEq =>
          rw [restEq]
          exact Or.inr (complete_or_incomplete_of_ended unbroken headerLines)
      | unfinished headers tail last headerLines restEq tailScanned =>
          rw [restEq]
          exact Or.inr (Or.inr (incomplete_of_unfinished unbroken headerLines tailScanned))
      | malformed headers tail last headerLines restEq tailScanned =>
          have tailDescribes := scan_describes tail
          rw [tailScanned] at tailDescribes
          rcases tailDescribes with ⟨lastUnbroken, broken, tailEq, malformed⟩
          refine Or.inl ⟨content ++ lineEnd ++ lineBytes headers, last, broken, ?_, lastUnbroken,
            malformed, Or.inr ⟨content, headers, unbroken, headerLines, rfl⟩⟩
          rw [restEq, tailEq]
          simp only [List.append_assoc]

end DataStructAlgorithm.HTTPD2
