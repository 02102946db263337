import DataStructAlgorithm.HTTPD1.Histories

/-! # Request lines

What `get_method` makes of a request line with a method, a target, and a version. -/

namespace DataStructAlgorithm.HTTPD1

open Foundation

/-- A token of HTTP has neither white space nor separators in it, of which only the slash matters
here. -/
def IsToken (text : List Byte) : Prop :=
  text ≠ [] ∧ ∀ byte ∈ text, isSpace byte = false ∧ byte ≠ 47

instance (text : List Byte) : Decidable (IsToken text) :=
  @instDecidableAnd _ _ inferInstance (List.decidableBAll _ text)

/-- A path stops at white space and at a question mark. -/
def IsPath (text : List Byte) : Prop := ∀ byte ∈ text, isSpace byte = false ∧ byte ≠ 63

instance (text : List Byte) : Decidable (IsPath text) := List.decidableBAll _ text

def IsQuery (text : List Byte) : Prop := ∀ byte ∈ text, isSpace byte = false

instance (text : List Byte) : Decidable (IsQuery text) := List.decidableBAll _ text

structure RequestLine where
  method : List Byte
  path : List Byte
  /-- What stands behind the question mark, `none` without one. -/
  query : Option (List Byte)
  version : List Byte
  isToken : IsToken method
  isPath : IsPath path
  isQuery : ∀ text ∈ query, IsQuery text

namespace RequestLine

def queryText (line : RequestLine) : List Byte :=
  match line.query with
  | none => []
  | some query => 63 :: query

/-- What the line asks for, behind the slash. -/
def targetText (line : RequestLine) : List Byte :=
  line.path ++ (line.queryText ++ 32 :: line.version)

def text (line : RequestLine) : List Byte := line.method ++ 32 :: 47 :: line.targetText

/-- The method that the token stands for. -/
def requested (line : RequestLine) : Method :=
  if line.method = ascii "GET" ∨ line.method = ascii "get" then .get
  else if line.method = ascii "POST" ∨ line.method = ascii "post" then .post
  else .other

/-- The word occurs nowhere in the line, in capitals or in small letters. -/
def Lacks (line : RequestLine) (capitals smalls : String) : Prop :=
  occurs (ascii capitals) line.text = false ∧ occurs (ascii smalls) line.text = false

instance (line : RequestLine) (capitals smalls : String) :
    Decidable (line.Lacks capitals smalls) := inferInstanceAs (Decidable (_ ∧ _))

/-- No word in the line is taken for another method. -/
def Unmistakable (line : RequestLine) : Prop :=
  (line.requested ≠ .get → line.Lacks "GET" "get") ∧
    (line.requested = .other → line.Lacks "POST" "post")

instance (line : RequestLine) : Decidable line.Unmistakable :=
  inferInstanceAs (Decidable (_ ∧ _))

/-- A query has a first byte, which may be a question mark; there is none behind it. -/
def SingleMark (line : RequestLine) : Prop :=
  ∀ query ∈ line.query, query ≠ [] ∧ (63 : Byte) ∉ query.tail

instance (line : RequestLine) : Decidable line.SingleMark :=
  inferInstanceAs (Decidable (∀ query ∈ line.query, _))

end RequestLine

/-! ## The method -/

theorem occurs_front (word rest : List Byte) : occurs word (word ++ rest) = true := by
  rw [occurs, List.any_eq_true]
  refine ⟨0, List.mem_range.mpr (Nat.succ_pos _), ?_⟩
  rw [List.drop_zero, List.isPrefixOf_iff_prefix]
  exact List.prefix_append word rest

namespace RequestLine

variable (line : RequestLine)

theorem occurs_method {word : List Byte} (isWord : line.method = word) :
    occurs word line.text = true := by
  rw [text, isWord]
  exact occurs_front word _

/-- The method is the one of the token unless the line has a word for another one in it. -/
theorem methodOf_eq_iff : CgiConn.methodOf line.text = line.requested ↔ line.Unmistakable := by
  have lacks : ∀ capitals smalls, line.Lacks capitals smalls ↔
      ¬ (occurs (ascii capitals) line.text = true ∨ occurs (ascii smalls) line.text = true) := by
    intro capitals smalls
    rw [Lacks, not_or, Bool.not_eq_true, Bool.not_eq_true]
  rw [Unmistakable, lacks, lacks, CgiConn.methodOf, requested]
  by_cases get : line.method = ascii "GET" ∨ line.method = ascii "get"
  · have found : occurs (ascii "GET") line.text = true ∨ occurs (ascii "get") line.text = true :=
      get.imp line.occurs_method line.occurs_method
    simp [get, found]
  · by_cases post : line.method = ascii "POST" ∨ line.method = ascii "post"
    · have found :
          occurs (ascii "POST") line.text = true ∨ occurs (ascii "post") line.text = true :=
        post.imp line.occurs_method line.occurs_method
      by_cases other : occurs (ascii "GET") line.text = true ∨ occurs (ascii "get") line.text = true
      · simp [get, post, other]
      · simp [get, post, other, found]
    · by_cases other : occurs (ascii "GET") line.text = true ∨ occurs (ascii "get") line.text = true
      · simp [get, post, other]
      · by_cases another :
            occurs (ascii "POST") line.text = true ∨ occurs (ascii "post") line.text = true
        · simp [get, post, other, another]
        · simp [get, post, other, another]

end RequestLine

/-! ## The target -/

theorem targetParts_path {path : List Byte} (isPath : IsPath path) (rest : List Byte) :
    targetParts false (path ++ rest) =
      (path ++ (targetParts false rest).1, (targetParts false rest).2) := by
  induction path with
  | nil => rfl
  | cons byte path induction =>
      rcases isPath byte List.mem_cons_self with ⟨notSpace, notMark⟩
      have later := induction fun byte member => isPath byte (List.mem_cons_of_mem _ member)
      rw [List.cons_append, targetParts_cons, if_neg (Bool.not_eq_true _ ▸ notSpace),
        if_neg notMark, if_neg Bool.false_ne_true, later]
      rfl

theorem targetParts_space (flag : Bool) (rest : List Byte) :
    targetParts flag (32 :: rest) = ([], []) := by
  rw [targetParts_cons]
  rfl

theorem targetParts_mark (flag : Bool) (next : Byte) (rest : List Byte) :
    targetParts flag (63 :: next :: rest) =
      ((targetParts true rest).1, next :: (targetParts true rest).2) := by
  rw [targetParts_cons]
  rfl

theorem targetParts_query {byte : Byte} (notSpace : isSpace byte = false) (notMark : byte ≠ 63)
    (rest : List Byte) : targetParts true (byte :: rest) =
      ((targetParts true rest).1, byte :: (targetParts true rest).2) := by
  rw [targetParts_cons, if_neg (Bool.not_eq_true _ ▸ notSpace), if_neg notMark]
  rfl

/-- Behind a question mark nothing is taken for the file. -/
theorem targetParts_file (text : List Byte) : (targetParts true text).1 = [] := by
  generalize isFlag : true = flag
  fun_induction targetParts flag text with
  | case1 => rfl
  | case2 => rfl
  | case3 => rfl
  | case4 flag next str notSpace induction => exact induction rfl
  | case5 byte str notSpace notMark induction => exact induction rfl
  | case6 byte str flag notSpace notMark notFlag induction => exact absurd isFlag.symm notFlag

theorem targetParts_marked {query : List Byte} (isQuery : IsQuery query)
    (unmarked : (63 : Byte) ∉ query) (rest : List Byte) :
    (targetParts true (query ++ 32 :: rest)).2 = query := by
  induction query with
  | nil => rw [List.nil_append, targetParts_space]
  | cons byte query induction =>
      have notMark : byte ≠ 63 := fun same => unmarked (same ▸ List.mem_cons_self)
      have later := induction (fun byte member => isQuery byte (List.mem_cons_of_mem _ member))
        fun member => unmarked (List.mem_cons_of_mem _ member)
      rw [List.cons_append, targetParts_query (isQuery byte List.mem_cons_self) notMark, later]

/-- Every further question mark is lost or hides the next byte, which may be the space behind the
query. -/
theorem targetParts_shorter (rest : List Byte) (query : List Byte) (isQuery : IsQuery query) :
    32 ∈ (targetParts true (query ++ 32 :: rest)).2 ∨
      (targetParts true (query ++ 32 :: rest)).2.length ≤ query.length ∧
        (63 ∈ query → (targetParts true (query ++ 32 :: rest)).2.length < query.length) := by
  induction length : query.length using Nat.strongRecOn generalizing query with
  | _ count induction =>
      subst length
      cases query with
      | nil =>
          rw [List.nil_append, targetParts_space]
          simp
      | cons byte query =>
          have isRest : IsQuery query := fun byte member =>
            isQuery byte (List.mem_cons_of_mem _ member)
          by_cases mark : byte = 63
          · subst mark
            cases query with
            | nil =>
                left
                rw [List.cons_append, List.nil_append, targetParts_mark]
                exact List.mem_cons_self
            | cons next query =>
                have isLater : IsQuery query := fun byte member =>
                  isRest byte (List.mem_cons_of_mem _ member)
                have later := induction query.length (by simp only [List.length_cons]; omega) query
                  isLater rfl
                rw [List.cons_append, List.cons_append, targetParts_mark]
                rcases later with space | ⟨shorter, _⟩
                · exact Or.inl (List.mem_cons_of_mem _ space)
                · right
                  simp only [List.length_cons]
                  omega
          · have later := induction query.length (by simp only [List.length_cons]; omega) query
              isRest rfl
            rw [List.cons_append, targetParts_query (isQuery byte List.mem_cons_self) mark]
            rcases later with space | ⟨shorter, strict⟩
            · exact Or.inl (List.mem_cons_of_mem _ space)
            · right
              refine ⟨Nat.succ_le_succ shorter, fun member => Nat.succ_lt_succ (strict ?_)⟩
              rcases List.mem_cons.mp member with same | behind
              · exact absurd same.symm mark
              · exact behind

theorem targetParts_marked_iff {query : List Byte} (isQuery : IsQuery query) (rest : List Byte) :
    (targetParts true (query ++ 32 :: rest)).2 = query ↔ (63 : Byte) ∉ query := by
  refine ⟨fun same marked => ?_, fun unmarked => targetParts_marked isQuery unmarked rest⟩
  have shorter := targetParts_shorter rest query isQuery
  rw [same] at shorter
  rcases shorter with space | ⟨_, strict⟩
  · exact absurd (isQuery 32 space) (by decide)
  · exact absurd (strict marked) (Nat.lt_irrefl _)

namespace RequestLine

variable (line : RequestLine)

/-- The loop starts behind the slash in front of the path. -/
theorem lineParts_text : lineParts line.text = targetParts false line.targetText := by
  have none : ∀ byte ∈ line.method ++ [32], (byte == 47) = false := by
    intro byte member
    rcases List.mem_append.mp member with inMethod | space
    · exact beq_false_of_ne (line.isToken.2 byte inMethod).2
    · cases List.mem_singleton.mp space
      rfl
  have slash : strchr line.text 47 = some (line.method ++ [32]).length := by
    rw [strchr, text, List.append_cons, List.findIdx?_append, List.findIdx?_eq_none_iff.mpr none,
      List.findIdx?_cons]
    simp
  have behind : line.text.drop ((line.method ++ [32]).length + 1) = line.targetText := by
    have split : line.text = line.method ++ [32] ++ [47] ++ line.targetText := by simp [text]
    rw [split]
    exact List.drop_left' List.length_append
  rw [lineParts, slash]
  exact congrArg _ behind

theorem lineParts_eq_iff :
    lineParts line.text = (line.path, line.query.getD []) ↔ line.SingleMark := by
  rw [lineParts_text, targetText, targetParts_path line.isPath, SingleMark, queryText]
  have queries := line.isQuery
  cases isQuery : line.query with
  | none => simp [targetParts_space]
  | some query =>
      rw [isQuery] at queries
      cases query with
      | nil =>
          simp [targetParts_mark]
      | cons first query =>
          have isRest : IsQuery query := fun byte member =>
            queries (first :: query) rfl byte (List.mem_cons_of_mem _ member)
          simp [targetParts_mark, targetParts_file, targetParts_marked_iff isRest]

/-- `get_method` finds the method of the token, the path, and the query. -/
structure Understood (conn : CgiConn) (line : RequestLine) : Prop where
  method : (conn.getMethod line.text).method = line.requested
  file : (conn.getMethod line.text).file = line.path
  querystring : (conn.getMethod line.text).querystring = line.query.getD []

/-- A new object gets the method, the path, and the query of a line exactly if no word in the line
is taken for another method, and the query is not empty and has no question mark behind its first
byte. -/
theorem understood_iff {conn : CgiConn} (constructed : CgiConn.Constructed conn)
    (line : RequestLine) : Understood conn line ↔ line.Unmistakable ∧ line.SingleMark := by
  have parsed := CgiConn.getMethod_parsed conn line.text
  rw [constructed.file, constructed.querystring] at parsed
  have method : (conn.getMethod line.text).method = CgiConn.methodOf line.text :=
    congrArg Parsed.method parsed
  have file : (conn.getMethod line.text).file = (lineParts line.text).1 :=
    congrArg Parsed.file parsed
  have querystring : (conn.getMethod line.text).querystring = (lineParts line.text).2 :=
    congrArg Parsed.querystring parsed
  rw [← line.methodOf_eq_iff, ← line.lineParts_eq_iff, Prod.ext_iff, ← method, ← file,
    ← querystring]
  constructor
  · rintro ⟨sameMethod, sameFile, sameQuery⟩
    exact ⟨sameMethod, sameFile, sameQuery⟩
  · rintro ⟨sameMethod, sameFile, sameQuery⟩
    exact ⟨sameMethod, sameFile, sameQuery⟩

/-- `GET /a?b HTTP/1.1` -/
def queryLine : RequestLine :=
  ⟨ascii "GET", ascii "a", some (ascii "b"), ascii "HTTP/1.1", by decide, by decide, by decide⟩

theorem understood_queryLine :
    Understood CgiConn.fresh queryLine ↔ queryLine.Unmistakable ∧ queryLine.SingleMark :=
  understood_iff ⟨rfl, rfl⟩ queryLine

/-- `POST /widget HTTP/1.1` -/
def widgetLine : RequestLine :=
  ⟨ascii "POST", ascii "widget", none, ascii "HTTP/1.1", by decide, by decide, by decide⟩

/-- `GET /a? HTTP/1.1` -/
def emptyLine : RequestLine :=
  ⟨ascii "GET", ascii "a", some [], ascii "HTTP/1.1", by decide, by decide, by decide⟩

/-- `GET /a?b?c HTTP/1.1` -/
def marksLine : RequestLine :=
  ⟨ascii "GET", ascii "a", some (ascii "b?c"), ascii "HTTP/1.1", by decide, by decide, by decide⟩

/-- A path that is taken for a method, an empty query that goes on to the end of the line, and a
query that loses its question mark. -/
theorem misunderstood :
    (CgiConn.fresh.getMethod widgetLine.text).method = .get ∧
    (CgiConn.fresh.getMethod emptyLine.text).querystring = ascii " HTTP/1.1" ∧
    (CgiConn.fresh.getMethod marksLine.text).querystring = ascii "bc" ∧
    ¬ Understood CgiConn.fresh widgetLine ∧ ¬ Understood CgiConn.fresh emptyLine ∧
    ¬ Understood CgiConn.fresh marksLine := by
  have widget : (CgiConn.fresh.getMethod widgetLine.text).method = .get := by
    decide +kernel
  have none : (CgiConn.fresh.getMethod emptyLine.text).querystring = ascii " HTTP/1.1" := by
    decide +kernel
  have marks : (CgiConn.fresh.getMethod marksLine.text).querystring = ascii "bc" := by
    decide +kernel
  refine ⟨widget, none, marks, fun understood => ?_, fun understood => ?_, fun understood => ?_⟩
  · have post := understood.method
    rw [widget] at post
    exact absurd post (by decide)
  · have query := understood.querystring
    rw [none] at query
    exact absurd query (by decide)
  · have query := understood.querystring
    rw [marks] at query
    exact absurd query (by decide)

end RequestLine

end DataStructAlgorithm.HTTPD1
