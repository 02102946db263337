import Mathlib.Data.List.Induction
import DataStructAlgorithm.Foundation.Simulation
import DataStructAlgorithm.HTTPD1.Histories

/-! # Receiving

Where the bytes of a connection are stored, and where its first line ends, for any sequence of
results of `recv`. -/

namespace DataStructAlgorithm.HTTPD1

open Foundation

/-- The line feed of the first line end in some bytes. -/
def firstLineEnd (bytes : List Byte) : Option Nat :=
  (List.range bytes.length).find? fun idx => decide (1 ≤ idx ∧
    bytes[idx - 1]? = some carriageReturn ∧ bytes[idx]? = some lineFeed)

/-- `recv` gives at most as many bytes as it is asked for. -/
def Arrival.received (arrival : Arrival) : List Byte := arrival.bytes.take bufferSize

def received (arrivals : List Arrival) : List Byte := arrivals.flatMap Arrival.received

namespace CgiConn

/-! ## Calls of `recv` -/

/-- What a pass leaves, whether the loop goes on or not. -/
def leftBy : Pass Processing (CgiConn × List Parsed) → CgiConn × List Parsed
  | .again next => (next.conn, next.parsed)
  | .leave final => final

/-- What `process` does with the result of one call of `recv`. -/
def recvStep (state : CgiConn × List Parsed) (arrival : Arrival) :
    Outcome (CgiConn × List Parsed) :=
  (processPass ⟨state.1, state.2, [arrival]⟩).map leftBy

/-- The same with other arrivals behind the pass. -/
def followedBy (arrivals : List Arrival) :
    Pass Processing (CgiConn × List Parsed) → Pass Processing (CgiConn × List Parsed)
  | .again next => .again { next with arrivals := arrivals }
  | .leave final => .leave final

theorem answer_followedBy (conn : CgiConn) (parsed : List Parsed)
    (stat : List Byte → Option FileMode) (arrivals : List Arrival) :
    conn.answer parsed stat arrivals = followedBy arrivals (conn.answer parsed stat []) := by
  rw [answer, answer]
  cases stat conn.file with
  | none => rfl
  | some st =>
      dsimp only
      split
      · rfl
      · rfl

theorem processPass_cons (conn : CgiConn) (parsed : List Parsed) (arrival : Arrival)
    (arrivals : List Arrival) : processPass ⟨conn, parsed, arrival :: arrivals⟩ =
      (processPass ⟨conn, parsed, [arrival]⟩).map (followedBy arrivals) := by
  simp only [processPass]
  split
  · rfl
  · cases conn.takeLine (arrival.bytes.take bufferSize) with
    | error fault => rfl
    | ok taken =>
        rcases taken with ⟨_ | fileName, filled⟩
        · rfl
        · simp only [Outcome.ok_bind]
          rw [answer_followedBy]
          rfl

/-- A call of `process` gets some of the arrivals, one with each call of `recv`. -/
theorem step_recvStep (arrivals : List Arrival) (state : CgiConn × List Parsed) :
    ∃ taken, taken <+: arrivals ∧
      step state (.process arrivals) = runAll recvStep state taken := by
  rw [step]
  induction arrivals generalizing state with
  | nil => exact ⟨[], List.prefix_refl [], rfl⟩
  | cons arrival rest induction =>
      have split := processPass_cons state.1 state.2 arrival rest
      cases pass : processPass ⟨state.1, state.2, [arrival]⟩ with
      | error fault =>
          rw [pass] at split
          refine ⟨[arrival], ⟨rest, rfl⟩, ?_⟩
          rw [repeatLoop_error _ split, runAll, recvStep, pass]
          rfl
      | ok result =>
          rw [pass] at split
          cases result with
          | again next =>
              rcases induction (next.conn, next.parsed) with ⟨taken, front, run⟩
              refine ⟨arrival :: taken, List.cons_prefix_cons.mpr ⟨rfl, front⟩, ?_⟩
              rw [List.length_cons, repeatLoop_again _ split, runAll, recvStep, pass]
              exact run
          | leave final =>
              refine ⟨[arrival], ⟨rest, rfl⟩, ?_⟩
              rw [repeatLoop_leave _ split, runAll, recvStep, pass]
              rfl

/-- So do all calls for a connection. -/
theorem connection_recvStep (calls : List (List Arrival)) (state : CgiConn × List Parsed) :
    ∃ taken, taken.Sublist calls.flatten ∧
      runAll step state (connection calls) = runAll recvStep (state.1.init, []) taken := by
  change ∃ taken, taken.Sublist calls.flatten ∧
    runAll step (state.1.init, []) (calls.map .process) = runAll recvStep (state.1.init, []) taken
  generalize (state.1.init, ([] : List Parsed)) = start
  induction calls generalizing start with
  | nil => exact ⟨[], List.Sublist.slnil, rfl⟩
  | cons arrivals calls induction =>
      rcases step_recvStep arrivals start with ⟨first, front, stepped⟩
      cases ended : runAll recvStep start first with
      | error fault =>
          refine ⟨first, front.sublist.trans (List.sublist_append_left _ _), ?_⟩
          rw [List.map_cons, runAll, stepped, ended]
          rfl
      | ok middle =>
          rcases induction middle with ⟨others, later, run⟩
          refine ⟨first ++ others, front.sublist.append later, ?_⟩
          rw [List.map_cons, runAll, stepped, ended, runAll_of_append ended]
          exact run

/-! ## What has been received -/

/-- The bytes that have arrived are in the buffer, which is as they are until a line has been cut
from it. -/
structure HasReceived (past : List Byte) (state : CgiConn × List Parsed) : Prop where
  bufferLength : state.1.buf.length = bufferSize
  readIdx : state.1.readIdx = past.length
  room : past.length ≤ bufferSize
  uncut : state.2 = [] → state.1.buf.take past.length = past ∧ firstLineEnd past = none

theorem hasReceived_init (conn : CgiConn) : HasReceived [] (conn.init, []) :=
  ⟨List.length_replicate, rfl, Nat.zero_le _, fun _ => ⟨rfl, rfl⟩⟩

theorem find?_congr {Entry : Type} {first second : Entry → Bool} {entries : List Entry}
    (same : ∀ entry ∈ entries, first entry = second entry) :
    entries.find? first = entries.find? second := by
  induction entries with
  | nil => rfl
  | cons entry entries induction =>
      rw [List.find?_cons, List.find?_cons, same entry List.mem_cons_self,
        induction fun other member => same other (List.mem_cons_of_mem _ member)]

/-- Where no line end has been found, the search does not begin again. -/
theorem lineEnd_eq {conn : CgiConn} {past bytes : List Byte}
    (readIdx : conn.readIdx = (past ++ bytes).length)
    (content : conn.buf.take (past ++ bytes).length = past ++ bytes)
    (unended : firstLineEnd past = none) :
    conn.lineEnd past.length = firstLineEnd (past ++ bytes) := by
  have inBuffer : ∀ idx < (past ++ bytes).length, conn.buf[idx]? = (past ++ bytes)[idx]? := by
    intro idx within
    rw [← content, List.getElem?_take_of_lt within]
  have inPast : ∀ idx < past.length, (past ++ bytes)[idx]? = past[idx]? :=
    fun idx within => List.getElem?_append_left within
  have before : (List.range past.length).find? (fun idx => decide (1 ≤ idx ∧
      (past ++ bytes)[idx - 1]? = some carriageReturn ∧ (past ++ bytes)[idx]? = some lineFeed)) =
        none := by
    rw [← unended, firstLineEnd]
    apply find?_congr
    intro idx member
    rw [List.mem_range] at member
    rw [inPast idx member, inPast (idx - 1) (by omega)]
  rw [firstLineEnd, List.length_append, List.range_add, List.find?_append, before, Option.none_or,
    lineEnd, ← List.range'_eq_map_range, readIdx, List.length_append, Nat.add_sub_cancel_left]
  apply find?_congr
  intro idx member
  rw [List.mem_range'_1, ← List.length_append] at member
  rw [inBuffer idx member.2, inBuffer (idx - 1) (by omega)]

/-- The buffer after a call of `recv`. -/
def filled (conn : CgiConn) (bytes : List Byte) : CgiConn :=
  { conn with buf := overwrite conn.buf conn.readIdx bytes, readIdx := conn.readIdx + bytes.length }

section Received

variable {past bytes : List Byte} {state : CgiConn × List Parsed}

theorem HasReceived.receive_iff (has : HasReceived past state) :
    (past ++ bytes).length ≤ bufferSize ↔ state.1.receive bytes = .ok (state.1.filled bytes) := by
  rw [receive, has.readIdx, has.bufferLength, List.length_append]
  split
  · rename_i fits
    rw [filled, has.readIdx]
    exact ⟨fun _ => rfl, fun _ => fits⟩
  · rename_i exceeds
    exact ⟨fun fits => absurd fits exceeds, fun returned => by cases returned⟩

theorem HasReceived.filled (has : HasReceived past state)
    (fits : (past ++ bytes).length ≤ bufferSize) :
    (state.1.filled bytes).buf.length = bufferSize ∧
      (state.1.filled bytes).readIdx = (past ++ bytes).length ∧
      (state.2 = [] → (state.1.filled bytes).buf.take (past ++ bytes).length = past ++ bytes) := by
  rw [List.length_append] at fits ⊢
  have room : state.1.readIdx + bytes.length ≤ state.1.buf.length := by
    rw [has.readIdx, has.bufferLength]
    exact fits
  refine ⟨(length_overwrite room).trans has.bufferLength, ?_, fun uncut => ?_⟩
  · rw [CgiConn.filled, has.readIdx]
  · have kept := take_overwrite bytes (show state.1.readIdx ≤ state.1.buf.length by omega)
      (Nat.le_refl bytes.length)
    rw [has.readIdx, (has.uncut uncut).1, List.take_length] at kept
    rw [CgiConn.filled, has.readIdx]
    exact kept

/-- What `takeLine` does with bytes that fit. -/
theorem HasReceived.takeLine (has : HasReceived past state)
    (fits : (past ++ bytes).length ≤ bufferSize) :
    ∃ line after, state.1.takeLine bytes = .ok (line, after) ∧ after.buf.length = bufferSize ∧
      after.readIdx = (past ++ bytes).length ∧
      (line = none → state.2 = [] → after.buf.take (past ++ bytes).length = past ++ bytes ∧
        firstLineEnd (past ++ bytes) = none) := by
  rcases has.filled fits with ⟨bufferLength, readIdx, content⟩
  rw [CgiConn.takeLine, has.receive_iff.mp fits, Outcome.ok_bind]
  cases ended : (state.1.filled bytes).lineEnd state.1.readIdx with
  | none =>
      refine ⟨none, _, rfl, bufferLength, readIdx, fun _ uncut => ⟨content uncut, ?_⟩⟩
      rw [has.readIdx] at ended
      rw [← lineEnd_eq readIdx (content uncut) (has.uncut uncut).2]
      exact ended
  | some idx =>
      have found := List.find?_some ended
      rw [decide_eq_true_iff] at found
      have within : idx < (state.1.filled bytes).buf.length :=
        (List.getElem?_eq_some_iff.mp found.2.2).1
      have cut : idx - 1 < (state.1.filled bytes).buf.length := by omega
      have zero : (0 : Byte) ∈ ((state.1.filled bytes).buf.set (idx - 1) 0).drop 0 := by
        rw [List.drop_zero]
        exact List.mem_set cut 0
      have isString : ∃ fileName,
          cString ((state.1.filled bytes).buf.set (idx - 1) 0) 0 = .ok fileName :=
        ⟨_, if_pos zero⟩
      rcases isString with ⟨fileName, isString⟩
      refine ⟨some fileName, { state.1.filled bytes with
        buf := (state.1.filled bytes).buf.set (idx - 1) 0 }, ?_, List.length_set.trans bufferLength,
        readIdx, fun isNone _ => absurd isNone (Option.some_ne_none _)⟩
      simp only [writeAt_of_lt _ cut, Outcome.ok_bind, isString]
      rfl

/-- What is behind `get_method` leaves the buffer as it is. -/
theorem leftBy_answer (conn : CgiConn) (parsed : List Parsed) (stat : List Byte → Option FileMode)
    (arrivals : List Arrival) :
    (leftBy (conn.answer parsed stat arrivals)).1.buf = conn.buf ∧
      (leftBy (conn.answer parsed stat arrivals)).1.readIdx = conn.readIdx ∧
      (leftBy (conn.answer parsed stat arrivals)).2 = parsed := by
  have same : ∀ st, (conn.distinguish st).buf = conn.buf ∧
      (conn.distinguish st).readIdx = conn.readIdx := by
    intro st
    rw [distinguish]
    split
    · exact ⟨rfl, rfl⟩
    · split
      · exact ⟨rfl, rfl⟩
      · exact ⟨rfl, rfl⟩
  rw [answer]
  cases stat conn.file with
  | none => exact ⟨rfl, rfl, rfl⟩
  | some st =>
      dsimp only
      split
      · exact ⟨(same st).1, (same st).2, rfl⟩
      · exact ⟨(same st).1, (same st).2, rfl⟩

theorem getMethod_same (conn : CgiConn) (line : List Byte) :
    (conn.getMethod line).buf = conn.buf ∧ (conn.getMethod line).readIdx = conn.readIdx := by
  rw [getMethod]
  cases strchr line 47 with
  | none => exact ⟨rfl, rfl⟩
  | some pos =>
      dsimp only
      rw [targetLoop_eq]
      exact ⟨rfl, rfl⟩

theorem HasReceived.recvStep (has : HasReceived past state) (arrival : Arrival)
    (fits : (past ++ arrival.received).length ≤ bufferSize) :
    ∃ after, recvStep state arrival = .ok after ∧ HasReceived (past ++ arrival.received) after := by
  rw [Arrival.received] at fits ⊢
  rw [CgiConn.recvStep, processPass]
  by_cases nothing : arrival.bytes.take bufferSize = []
  · simp only [nothing, if_true, List.append_nil]
    exact ⟨state, rfl, has⟩
  · rcases has.takeLine fits with ⟨line, filled, taken, bufferLength, readIdx, uncut⟩
    simp only [if_neg nothing, taken, Outcome.ok_bind]
    cases line with
    | none => exact ⟨_, rfl, bufferLength, readIdx, fits, uncut rfl⟩
    | some fileName =>
        have method := getMethod_same filled fileName
        rcases leftBy_answer (filled.getMethod fileName) (state.2 ++ [⟨fileName,
          (filled.getMethod fileName).method, (filled.getMethod fileName).file,
          (filled.getMethod fileName).querystring⟩]) arrival.stat [] with ⟨buf, idx, parsed⟩
        refine ⟨_, rfl, ?_, ?_, fits, fun uncut => ?_⟩
        · rw [buf, method.1]
          exact bufferLength
        · rw [idx, method.2]
          exact readIdx
        · rw [parsed] at uncut
          exact absurd uncut (List.append_ne_nil_of_right_ne_nil _ (List.cons_ne_nil _ _))

theorem HasReceived.runAll (has : HasReceived past state) (arrivals : List Arrival)
    (fits : (past ++ received arrivals).length ≤ bufferSize) :
    ∃ after, runAll CgiConn.recvStep state arrivals = .ok after ∧
      HasReceived (past ++ received arrivals) after := by
  induction arrivals generalizing past state with
  | nil =>
      rw [received, List.flatMap_nil, List.append_nil]
      exact ⟨state, rfl, has⟩
  | cons arrival rest induction =>
      rw [received, List.flatMap_cons, ← List.append_assoc] at fits ⊢
      have first : (past ++ arrival.received).length ≤ bufferSize := by
        rw [List.length_append] at fits
        omega
      rcases has.recvStep arrival first with ⟨middle, taken, next⟩
      rcases induction next fits with ⟨after, run, final⟩
      refine ⟨after, ?_, final⟩
      rw [Foundation.runAll, taken, Outcome.ok_bind]
      exact run

end Received

/-! ## A connection -/

/-- The bytes are stored inside the buffer, and the first line ends where it ends in all bytes that
have arrived. -/
structure Sound (past bytes : List Byte) (state : CgiConn × List Parsed) : Prop where
  stored : ∀ index < bytes.length, state.1.readIdx + index < bufferSize
  readIdx_le : state.1.readIdx + bytes.length ≤ bufferSize
  cut : state.2 = [] → ∃ after, state.1.receive bytes = .ok after ∧
    after.lineEnd state.1.readIdx = firstLineEnd (past ++ bytes)

theorem HasReceived.sound_iff {past : List Byte} {state : CgiConn × List Parsed}
    (has : HasReceived past state) (bytes : List Byte) :
    Sound past bytes state ↔ (past ++ bytes).length ≤ bufferSize := by
  constructor
  · rintro ⟨_, readIdx_le, _⟩
    rw [has.readIdx] at readIdx_le
    rw [List.length_append]
    exact readIdx_le
  · intro fits
    rcases has.filled fits with ⟨_, readIdx, content⟩
    have total := List.length_append ▸ fits
    have start := has.readIdx
    refine ⟨fun index within => by omega, by omega, fun uncut => ?_⟩
    refine ⟨state.1.filled bytes, has.receive_iff.mp fits, ?_⟩
    rw [start]
    exact lineEnd_eq readIdx (content uncut) (has.uncut uncut).2

/-- Before the first arrival that does not fit, every call of `recv` has succeeded. -/
theorem exists_exceeding {arrivals : List Arrival}
    (exceeds : bufferSize < (received arrivals).length) :
    ∃ before arrival rest, arrivals = before ++ arrival :: rest ∧
      (received before).length ≤ bufferSize ∧
      bufferSize < (received before ++ arrival.received).length := by
  induction arrivals using List.reverseRecOn with
  | nil => exact absurd exceeds (Nat.not_lt_zero _)
  | append_singleton front last induction =>
      rcases Nat.lt_or_ge bufferSize (received front).length with early | fits
      · rcases induction early with ⟨before, arrival, rest, rfl, room, tooMany⟩
        exact ⟨before, arrival, rest ++ [last], by simp, room, tooMany⟩
      · refine ⟨front, last, [], rfl, fits, ?_⟩
        rw [received, List.flatMap_append, List.flatMap_singleton] at exceeds
        exact exceeds

/-- All calls of `recv` of a connection are sound exactly if no more bytes arrive on it than the
buffer holds. -/
theorem all_sound_iff (conn : CgiConn) (arrivals : List Arrival) :
    (∀ before arrival rest state, arrivals = before ++ arrival :: rest →
      runAll recvStep (conn.init, []) before = .ok state →
        Sound (received before) arrival.received state) ↔
      (received arrivals).length ≤ bufferSize := by
  have start := hasReceived_init conn
  constructor
  · intro sound
    rcases Nat.lt_or_ge bufferSize (received arrivals).length with exceeds | fits
    · rcases exists_exceeding exceeds with ⟨before, arrival, rest, rfl, room, tooMany⟩
      rcases start.runAll before room with ⟨state, run, has⟩
      have fits := (has.sound_iff arrival.received).mp (sound before arrival rest state rfl run)
      exact absurd fits (Nat.not_le_of_lt tooMany)
    · exact fits
  · rintro fits before arrival rest state rfl run
    have room : (received before ++ arrival.received).length ≤ bufferSize := by
      rw [received, List.flatMap_append, List.flatMap_cons, ← List.append_assoc,
        List.length_append] at fits
      exact Nat.le_of_add_right_le fits
    rcases start.runAll before (Nat.le_trans (by simp) room) with ⟨same, ran, has⟩
    rw [run] at ran
    cases ran
    exact (has.sound_iff arrival.received).mpr room

/-- A request line of 1200 bytes arrives in two parts. -/
theorem second_part_unsound :
    let arrival : Arrival := ⟨List.replicate 600 97, fun _ => none⟩
    ¬ ∀ before next rest state, [arrival, arrival] = before ++ next :: rest →
      runAll recvStep (fresh.init, []) before = .ok state →
        Sound (received before) next.received state := by
  intro arrival sound
  have length : arrival.received.length = 600 := by
    rw [Arrival.received, List.length_take, List.length_replicate, bufferSize]
    rfl
  have one : (received [arrival]).length = 600 := by
    rw [received, List.flatMap_singleton, length]
  have fitsFirst : ([] ++ received [arrival]).length ≤ bufferSize := by
    rw [List.nil_append, one, bufferSize]
    decide
  rcases (hasReceived_init fresh).runAll [arrival] fitsFirst with ⟨state, run, has⟩
  have fits := (has.sound_iff arrival.received).mp (sound [arrival] arrival [] state rfl run)
  rw [List.nil_append, List.length_append, one, length, bufferSize] at fits
  exact absurd fits (by decide)

end CgiConn

end DataStructAlgorithm.HTTPD1
