import Mathlib.Logic.Function.Basic
import DataStructAlgorithm.Foundation.CString
import DataStructAlgorithm.Foundation.Transition

/-! # The request of `mysql_connect/mysql_signals.cpp`

`process` takes names and values from the text of a request before it asks the database, which is
not modelled. -/

namespace DataStructAlgorithm.HTTPD

open Foundation

namespace MysqlProcess

/-- `SIZE` -/
def nameSize : Nat := 100

/-- `BSIZE` -/
def messageSize : Nat := 1024

/-- `client_info`, the method of which is not used. -/
structure Info where
  msg : List Byte
  len : Nat
  msgLength : msg.length = messageSize

/-- `map<string, string>` -/
abbrev Bindings := List Byte → Option (List Byte)

/-- The variables of `process`. -/
structure Parsing where
  i : Nat
  j : Nat
  k : Nat
  name : List Byte
  value : List Byte
  flag : Int
  mp : Bindings

/-- `mp[name] = value` -/
def assign (mp : Bindings) (name value : List Byte) : Outcome Bindings := do
  let name ← cString name 0
  let value ← cString value 0
  pure (Function.update mp name (some value))

/-- The body of the loop for a byte of the text. -/
def takeByte (state : Parsing) (byte : Byte) : Outcome Parsing :=
  if byte = 38 then do
    let mp ← assign state.mp state.name state.value
    pure ⟨state.i + 1, 0, 0, List.replicate nameSize 0, List.replicate nameSize 0, 1, mp⟩
  else if byte = 61 then pure { state with i := state.i + 1, flag := state.flag - 1 }
  else if state.flag = 1 then do
    let name ← writeAt state.name state.j byte
    pure { state with i := state.i + 1, j := state.j + 1, name := name }
  else if state.flag = 0 then do
    let value ← writeAt state.value state.k byte
    pure { state with i := state.i + 1, k := state.k + 1, value := value }
  else pure { state with i := state.i + 1 }

def parsePass (msg : Info) (state : Parsing) : Outcome (Pass Parsing Parsing) :=
  if state.i < msg.len then do
    let byte ← readAt msg.msg state.i
    let state ← takeByte state byte
    pure (.again state)
  else pure (.leave state)

/-- `process` up to the last assignment to `mp`. -/
def parse (fuel : Nat) (msg : Info) (mp : Bindings) : Outcome Bindings := do
  let state ← repeatLoop (parsePass msg) fuel
    ⟨0, 0, 0, List.replicate nameSize 0, List.replicate nameSize 0, 1, mp⟩
  assign state.mp state.name state.value

/-! ## The loop -/

theorem takeByte_i {state after : Parsing} {byte : Byte} (taken : takeByte state byte = .ok after) :
    after.i = state.i + 1 := by
  rw [takeByte] at taken
  split at taken
  · rcases Outcome.bind_eq_ok taken with ⟨mp, _, taken⟩
    cases taken
    rfl
  · split at taken
    · cases taken
      rfl
    · split at taken
      · rcases Outcome.bind_eq_ok taken with ⟨name, _, taken⟩
        cases taken
        rfl
      · split at taken
        · rcases Outcome.bind_eq_ok taken with ⟨value, _, taken⟩
          cases taken
          rfl
        · cases taken
          rfl

/-- The text of the request. -/
def Info.text (msg : Info) : List Byte := msg.msg.take msg.len

/-- The loop takes the bytes of the text one after the other. -/
theorem loop_eq_runAll {msg : Info} (fits : msg.len ≤ messageSize) (state : Parsing)
    (within : state.i ≤ msg.len) {fuel : Nat} (enough : msg.len - state.i < fuel) :
    repeatLoop (parsePass msg) fuel state = runAll takeByte state (msg.text.drop state.i) := by
  have length : msg.text.length = msg.len :=
    List.length_take_of_le (msg.msgLength.symm ▸ fits)
  induction fuel generalizing state with
  | zero => exact absurd enough (Nat.not_lt_zero _)
  | succ fuel induction =>
      rcases Nat.lt_or_ge state.i msg.len with more | ended
      · have inText : state.i < msg.text.length := length.symm ▸ more
        have read : readAt msg.msg state.i = .ok msg.text[state.i] := by
          apply readAt_of_getElem?
          rw [← List.getElem?_take_of_lt more]
          exact List.getElem?_eq_getElem inText
        rw [List.drop_eq_getElem_cons inText, runAll]
        cases taken : takeByte state msg.text[state.i] with
        | error fault =>
            have stops : parsePass msg state = .error fault := by
              rw [parsePass, if_pos more, read, Outcome.ok_bind, taken]
              rfl
            rw [repeatLoop_error _ stops]
            rfl
        | ok after =>
            have again : parsePass msg state = .ok (.again after) := by
              rw [parsePass, if_pos more, read, Outcome.ok_bind, taken]
              rfl
            have next := takeByte_i taken
            rw [repeatLoop_again _ again, induction after (by omega) (by omega), next]
            rfl
      · have stops : parsePass msg state = .ok (.leave state) := if_neg (Nat.not_lt_of_le ended)
        rw [repeatLoop_leave _ stops, List.drop_eq_nil_of_le (length.symm ▸ ended)]
        rfl

/-! ## Names and values -/

/-- A buffer with a text at its beginning and zeros behind it. -/
def filled (text : List Byte) : List Byte :=
  text ++ List.replicate (nameSize - text.length) 0

theorem writeAt_filled {text : List Byte} (room : text.length < nameSize) (byte : Byte) :
    writeAt (filled text) text.length byte = .ok (filled (text ++ [byte])) := by
  have split : nameSize - text.length = nameSize - (text ++ [byte]).length + 1 := by
    rw [List.length_append, List.length_singleton]
    omega
  have within : text.length < (filled text).length := by
    rw [filled, List.length_append, List.length_replicate]
    omega
  rw [writeAt_of_lt _ within, filled, List.set_append_right _ _ (Nat.le_refl _), Nat.sub_self,
    split, List.replicate_succ, List.set_cons_zero, filled, List.append_assoc]
  rfl

theorem cString_filled {text : List Byte} (room : text.length < nameSize) (plain : 0 ∉ text) :
    cString (filled text) 0 = .ok text := by
  have split : nameSize - text.length = nameSize - text.length - 1 + 1 := by omega
  apply StringAt.cString_eq
  refine ⟨plain, List.replicate (nameSize - text.length - 1) 0, ?_⟩
  rw [List.drop_zero, filled, split, List.replicate_succ]
  rfl

/-- A text that is sent as a name or as a value. -/
structure IsField (text : List Byte) : Prop where
  short : text.length < nameSize
  plain : ∀ byte ∈ text, byte ≠ 38 ∧ byte ≠ 61 ∧ byte ≠ 0

instance (text : List Byte) : Decidable (IsField text) :=
  have := List.decidableBAll (fun byte : Byte => byte ≠ 38 ∧ byte ≠ 61 ∧ byte ≠ 0) text
  decidable_of_iff (text.length < nameSize ∧ ∀ byte ∈ text, byte ≠ 38 ∧ byte ≠ 61 ∧ byte ≠ 0)
    ⟨fun both => ⟨both.1, both.2⟩, fun isField => ⟨isField.short, isField.plain⟩⟩

theorem IsField.no_zero {text : List Byte} (isField : IsField text) : 0 ∉ text :=
  fun member => (isField.plain 0 member).2.2 rfl

structure Pair where
  name : List Byte
  value : List Byte
  isName : IsField name
  isValue : IsField value

def Pair.text (pair : Pair) : List Byte := pair.name ++ 61 :: pair.value

/-- `n1=v1&n2=v2&...` -/
def joined (pairs : List Pair) : List Byte := List.intercalate [38] (pairs.map Pair.text)

/-- The value that goes with the last occurrence of a name. -/
def lastValue (pairs : List Pair) (name : List Byte) : Option (List Byte) :=
  ((pairs.filter fun pair => pair.name = name).getLast?).map Pair.value

theorem joined_cons (pair next : Pair) (rest : List Pair) :
    joined (pair :: next :: rest) = pair.text ++ 38 :: joined (next :: rest) := by
  simp [joined, List.intercalate]

theorem IsField.front {first second : List Byte} (isField : IsField (first ++ second)) :
    IsField first := by
  have short := isField.short
  rw [List.length_append] at short
  exact ⟨by omega, fun byte member => isField.plain byte (List.mem_append_left second member)⟩

/-- States that each byte of a field is added to. -/
theorem runAll_field {state : List Byte → Parsing}
    (adds : ∀ before byte, IsField (before ++ [byte]) →
      takeByte (state before) byte = .ok (state (before ++ [byte])))
    (text before : List Byte) (isField : IsField (before ++ text)) :
    runAll takeByte (state before) text = .ok (state (before ++ text)) := by
  induction text generalizing before with
  | nil => rw [List.append_nil, runAll]
  | cons byte text induction =>
      rw [List.append_cons] at isField ⊢
      rw [runAll, adds before byte isField.front, Outcome.ok_bind]
      exact induction (before ++ [byte]) isField

/-- The variables behind a part of a name. -/
def naming (i : Nat) (mp : Bindings) (text : List Byte) : Parsing :=
  ⟨i + text.length, text.length, 0, filled text, filled [], 1, mp⟩

/-- The variables behind a part of the value that goes with a name. -/
def valuing (i : Nat) (mp : Bindings) (name text : List Byte) : Parsing :=
  ⟨i + text.length, name.length, text.length, filled name, filled text, 0, mp⟩

section Adds

variable {before : List Byte} {byte : Byte} (isField : IsField (before ++ [byte])) (i : Nat)
  (mp : Bindings)

include isField

theorem naming_adds :
    takeByte (naming i mp before) byte = .ok (naming i mp (before ++ [byte])) := by
  have plain := isField.plain byte (by simp)
  have room : before.length < nameSize := isField.front.short
  rw [takeByte, if_neg plain.1, if_neg plain.2.1]
  simp only [naming, if_true, writeAt_filled room, Outcome.ok_bind, List.length_append,
    List.length_singleton]
  rfl

theorem valuing_adds (name : List Byte) :
    takeByte (valuing i mp name before) byte = .ok (valuing i mp name (before ++ [byte])) := by
  have plain := isField.plain byte (by simp)
  have room : before.length < nameSize := isField.front.short
  rw [takeByte, if_neg plain.1, if_neg plain.2.1]
  simp only [valuing, Int.zero_ne_one, if_false, if_true, writeAt_filled room, Outcome.ok_bind,
    List.length_append, List.length_singleton]
  rfl

end Adds

/-! ## Pairs -/

/-- The variables in front of a pair. -/
def ready (i : Nat) (mp : Bindings) : Parsing := naming i mp []

/-- The variables behind a pair, before it is assigned. -/
def held (pair : Pair) (i : Nat) (mp : Bindings) : Parsing :=
  valuing (i + pair.name.length + 1) mp pair.name pair.value

def bindAll (mp : Bindings) (pairs : List Pair) : Bindings :=
  pairs.foldl (fun mp pair => Function.update mp pair.name (some pair.value)) mp

theorem run_pair (pair : Pair) (i : Nat) (mp : Bindings) :
    runAll takeByte (ready i mp) pair.text = .ok (held pair i mp) := by
  have name : runAll takeByte (ready i mp) pair.name = .ok (naming i mp pair.name) :=
    runAll_field (fun _ _ isField => naming_adds isField i mp) pair.name [] pair.isName
  have equals : takeByte (naming i mp pair.name) 61 =
      .ok (valuing (i + pair.name.length + 1) mp pair.name []) := rfl
  rw [Pair.text, runAll_of_append name, runAll, equals]
  exact runAll_field (fun _ _ isField => valuing_adds isField _ mp pair.name) pair.value []
    pair.isValue

theorem assign_filled (pair : Pair) (mp : Bindings) :
    assign mp (filled pair.name) (filled pair.value) = .ok (bindAll mp [pair]) := by
  rw [assign, cString_filled pair.isName.short pair.isName.no_zero, Outcome.ok_bind,
    cString_filled pair.isValue.short pair.isValue.no_zero]
  rfl

theorem run_separator (pair : Pair) (i : Nat) (mp : Bindings) :
    takeByte (held pair i mp) 38 = .ok (ready (i + pair.text.length + 1) (bindAll mp [pair])) := by
  have length : i + pair.name.length + 1 + pair.value.length = i + pair.text.length := by
    rw [Pair.text, List.length_append, List.length_cons]
    omega
  rw [takeByte, if_pos rfl]
  simp only [held, valuing, assign_filled, Outcome.ok_bind, length]
  rfl

/-- All pairs but the last one have been assigned. -/
theorem run_joined (pair : Pair) (rest : List Pair) (i : Nat) (mp : Bindings) :
    ∃ front last start, pair :: rest = front ++ [last] ∧
      runAll takeByte (ready i mp) (joined (pair :: rest)) =
        .ok (held last start (bindAll mp front)) := by
  induction rest generalizing pair i mp with
  | nil =>
      have alone : joined [pair] = pair.text := by simp [joined, List.intercalate]
      rw [alone]
      exact ⟨[], pair, i, rfl, run_pair pair i mp⟩
  | cons next rest induction =>
      rcases induction next (i + pair.text.length + 1) (bindAll mp [pair]) with
        ⟨front, last, start, split, run⟩
      refine ⟨pair :: front, last, start, congrArg (pair :: ·) split, ?_⟩
      rw [joined_cons, runAll_of_append (run_pair pair i mp), runAll, run_separator]
      exact run

theorem bindAll_eq (pairs : List Pair) (mp : Bindings) (name : List Byte) :
    bindAll mp pairs name = (lastValue pairs name).or (mp name) := by
  induction pairs generalizing mp with
  | nil => rfl
  | cons pair rest induction =>
      have split : bindAll mp (pair :: rest) =
          bindAll (Function.update mp pair.name (some pair.value)) rest := rfl
      rw [split, induction, lastValue, lastValue, List.filter_cons]
      by_cases same : pair.name = name
      · rw [if_pos (decide_eq_true same), List.getLast?_cons, same, Function.update_self]
        cases (rest.filter fun pair => pair.name = name).getLast? with
        | none => rfl
        | some last => rfl
      · rw [if_neg (by simpa using same), Function.update_of_ne (Ne.symm same)]

theorem lastValue_ne_none (pairs : List Pair) (name : List Byte) :
    lastValue pairs name ≠ none ↔ ∃ pair ∈ pairs, pair.name = name := by
  rw [lastValue, ne_eq, Option.map_eq_none_iff, List.getLast?_eq_none_iff, List.filter_eq_nil_iff]
  simp

/-- A list of pairs that fits into the request is taken apart again: the loop ends, nothing is
written outside the buffers, and the names of the list are bound to the values of their last
occurrences. -/
theorem parse_joined {pairs : List Pair} (notEmpty : pairs ≠ []) {msg : Info}
    (fits : msg.len ≤ messageSize) (isText : msg.text = joined pairs) {fuel : Nat}
    (enough : msg.len < fuel) :
    parse fuel msg (fun _ => none) = .ok (lastValue pairs) ∧
      ∀ name, lastValue pairs name ≠ none ↔ ∃ pair ∈ pairs, pair.name = name := by
  refine ⟨?_, lastValue_ne_none pairs⟩
  rcases List.exists_cons_of_ne_nil notEmpty with ⟨pair, rest, rfl⟩
  rcases run_joined pair rest 0 fun _ => none with ⟨front, last, start, split, run⟩
  have loop := loop_eq_runAll fits (ready 0 fun _ => none) (Nat.zero_le _) enough
  rw [← isText] at run
  have all : bindAll (bindAll (fun _ => none) front) [last] = lastValue (pair :: rest) := by
    have joint : bindAll (bindAll (fun _ => none) front) [last] =
        bindAll (fun _ => none) (pair :: rest) := by
      rw [split, bindAll, bindAll, bindAll, List.foldl_append]
    funext name
    rw [joint, bindAll_eq, Option.or_none]
  have returned : repeatLoop (parsePass msg) fuel (ready 0 fun _ => none) =
      .ok (held last start (bindAll (fun _ => none) front)) := loop.trans run
  show (repeatLoop (parsePass msg) fuel (ready 0 fun _ => none) >>= fun state =>
    assign state.mp state.name state.value) = _
  rw [returned, Outcome.ok_bind, ← all]
  exact assign_filled last _

/-- `a=1&b=&a=` -/
def repeated : Info :=
  ⟨ascii "a=1&b=&a=" ++ List.replicate 1015 0, 9, by
    rw [List.length_append, List.length_replicate]
    rfl⟩

def repeatedPairs : List Pair :=
  [⟨ascii "a", ascii "1", by decide, by decide⟩,
    ⟨ascii "b", [], by decide, by decide⟩,
    ⟨ascii "a", [], by decide, by decide⟩]

theorem parse_joined_repeated :
    parse 10 repeated (fun _ => none) = .ok (lastValue repeatedPairs) ∧
      ∀ name, lastValue repeatedPairs name ≠ none ↔ ∃ pair ∈ repeatedPairs, pair.name = name :=
  parse_joined (List.cons_ne_nil _ _) (by decide) (by decide +kernel) (by decide)

end MysqlProcess

end DataStructAlgorithm.HTTPD
