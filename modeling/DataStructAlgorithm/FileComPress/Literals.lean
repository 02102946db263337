import DataStructAlgorithm.FileComPress.ZipCompress

/-! # The tokens that are written

`Getch` never says that it has read a character, so that no repetition is found. Every byte
is written as a zero bit and its own bits. -/

namespace DataStructAlgorithm.FileComPress.ZipCompress

open Foundation

/-! ## The search -/

theorem getch_fst (input : InFile) (v : List Byte) : (getch input v).1 = false := rfl

theorem content_getch (input : InFile) (v : List Byte) :
    (getch input v).2.1.content = input.content :=
  InFile.content_fgetc input

/-- A repetition has no length. -/
theorem getRepetionLength_spec (fuel : Nat) (object : Searching) (input : InFile)
    (distance startWindowPos : Int) :
    ∃ after, getRepetionLength fuel object input distance startWindowPos = .ok (0, distance, after) ∧
      after.content = input.content := by
  have got := getch_fst input []
  have content := content_getch input []
  refine ⟨(getch input []).2.1, ?_, content⟩
  simp only [getRepetionLength, got, Bool.false_eq_true, if_false]

theorem windowLoop_spec (bytes : List Byte) {input : InFile} (ahead : input.rest = bytes) (i : Nat)
    (window : List Byte) (fuel : Nat) (enough : bytes.length < fuel) :
    ∃ after filled, repeatLoop windowPass fuel (i, input, window) = .ok (after, filled) ∧
      after.content = input.content := by
  induction bytes generalizing input i window fuel with
  | nil =>
      rcases fuel with _ | fuel
      · omega
      by_cases room : i < windowSize
      · rcases InFile.fgetc_of_nil ahead with ⟨next, got, _, _⟩
        have content := InFile.content_fgetc input
        rw [got] at content
        have pass : windowPass (i, input, window) = .ok (.leave (next, window)) := by
          simp only [windowPass, if_pos room, got, if_true]
        exact ⟨next, window, repeatLoop_leave fuel pass, content⟩
      · have pass : windowPass (i, input, window) = .ok (.leave (input, window)) := if_neg room
        exact ⟨input, window, repeatLoop_leave fuel pass, rfl⟩
  | cons byte rest induction =>
      rcases fuel with _ | fuel
      · omega
      by_cases room : i < windowSize
      · rcases InFile.fgetc_of_cons ahead with ⟨next, got, nextAhead, _⟩
        have content := InFile.content_fgetc input
        rw [got] at content
        have notEnd : ¬(byte.toNat : Int) = -1 := by omega
        have pass : windowPass (i, input, window) =
            .ok (.again (i + 1, next, window ++ [toChar byte.toNat])) := by
          simp only [windowPass, if_pos room, got, if_neg notEnd]
        rcases induction nextAhead (i + 1) (window ++ [toChar byte.toNat]) fuel
          (by simpa using enough) with ⟨after, filled, ran, same⟩
        exact ⟨after, filled, (repeatLoop_again fuel pass).trans ran, same.trans content⟩
      · have pass : windowPass (i, input, window) = .ok (.leave (input, window)) := if_neg room
        exact ⟨input, window, repeatLoop_leave fuel pass, rfl⟩

theorem findRepetion_spec (fuel : Nat) (object : Searching) (startWindow input : InFile)
    (distance : Int) (enough : input.content.length < fuel) :
    ∃ after found, findRepetion fuel object startWindow input distance =
        .ok (0, distance, after, found) ∧ after.content = input.content := by
  by_cases behind : toSizeT input.ftell > object.last
  · have few : input.rest.length < fuel := by
      rw [InFile.rest, List.length_drop]
      omega
    rcases windowLoop_spec input.rest rfl 0 [] fuel few with ⟨next, window, filled, content⟩
    let found : Searching := ⟨window, toSizeT startWindow.ftell,
      toSizeT (window.length + startWindow.ftell)⟩
    rcases getRepetionLength_spec fuel found next distance startWindow.ftell with
      ⟨after, searched, same⟩
    refine ⟨after, found, ?_, same.trans content⟩
    simp only [findRepetion, if_pos behind, filled, Outcome.ok_bind, Outcome.pure_bind']
    rw [searched]
    rfl
  · rcases getRepetionLength_spec fuel object input distance startWindow.ftell with
      ⟨after, searched, same⟩
    refine ⟨after, object, ?_, same⟩
    simp only [findRepetion, if_neg behind, Outcome.pure_bind', searched, Outcome.ok_bind]
    rfl

/-- A file that is at its old position again is the old file. -/
theorem fseek_back {input after : InFile} (notEnded : input.eof = false)
    (content : after.content = input.content) : after.fseek input.ftell .start = input := by
  rcases input with ⟨bytes, position, eof⟩
  cases notEnded
  cases content
  have forward : ¬((0 : Nat) : Int) + (position : Int) < 0 := by omega
  have same : (((0 : Nat) : Int) + (position : Int)).toNat = position := by omega
  simp only [InFile.fseek, InFile.ftell, if_neg forward, same]

/-- Where the window of a pass begins, and how long it is. -/
def windowStart (state : Zipping) : InFile × Int :=
  if state.input.ftell > slipBlock then
    (state.startWindow.fseek (state.input.ftell - slipBlock - 1) .start, slipBlock)
  else (state.startWindow.fseek 0 .start, state.input.ftell - 1)

/-- The search of a pass: the length, the distance, the file and the object after it. -/
def searched (fuel : Nat) (state : Zipping) : Outcome (Nat × Int × InFile × Searching) :=
  let (startWindow, distance) := windowStart state
  if distance > 1 then do
    let input := state.input.fseek (state.input.ftell - 1) .start
    let (length, distance, input, object) ←
      findRepetion fuel state.object startWindow input distance
    pure (length, distance, input.fseek state.input.ftell .start, object)
  else pure (0, distance, state.input, state.object)

/-- A pass searches and then writes. -/
theorem zipPass_eq {state : Zipping} (notEnded : state.input.eof = false) (fuel : Nat) :
    zipPass fuel state = (do
      let (length, distance, input, object) ← searched fuel state
      let (input, writing, count) ←
        (if length ≠ 0 then do
          let writing := writeBits distance (downFrom 15) (writeBit state.writing true)
          let writing ← repeatLoop (lengthPass length) fuel writing
          pure (input.fseek (length - 1) .current, writing, state.count + 3)
        else
          pure (input, writeBits state.ch (downFrom 7) (writeBit state.writing false),
            state.count + 1))
      let (ch, input) := input.fgetc
      pure (.again ⟨input, (windowStart state).1, ch, count, writing, object⟩)) := by
  simp only [zipPass, notEnded, Bool.false_eq_true, if_false, searched, windowStart]
  rfl

/-- No repetition is found. -/
theorem searched_spec {fuel : Nat} {state : Zipping} (notEnded : state.input.eof = false)
    (enough : state.input.content.length < fuel) :
    ∃ object, searched fuel state = .ok (0, (windowStart state).2, state.input, object) := by
  by_cases far : (windowStart state).2 > 1
  · have kept : (state.input.fseek (state.input.ftell - 1) .start).content =
        state.input.content := by
      simp only [InFile.fseek]
      split <;> rfl
    rcases findRepetion_spec fuel state.object (windowStart state).1
      (state.input.fseek (state.input.ftell - 1) .start) (windowStart state).2
      (by rw [kept]; exact enough) with ⟨after, object, found, content⟩
    refine ⟨object, ?_⟩
    simp only [searched, if_pos far, found, Outcome.ok_bind,
      fseek_back notEnded (content.trans kept)]
    rfl
  · exact ⟨state.object, if_neg far⟩

/-! ## One byte -/

/-- The next byte of the file is written as it is. -/
theorem zipPass_spec {fuel : Nat} {state : Zipping} (notEnded : state.input.eof = false)
    (enough : state.input.content.length < fuel) :
    ∃ startWindow object, zipPass fuel state = .ok (.again ⟨state.input.fgetc.2, startWindow,
      state.input.fgetc.1, state.count + 1,
      writeBits state.ch (downFrom 7) (writeBit state.writing false), object⟩) := by
  rcases searched_spec notEnded enough with ⟨object, found⟩
  refine ⟨(windowStart state).1, object, ?_⟩
  simp only [zipPass_eq notEnded, found, Outcome.ok_bind, ne_eq, not_true_eq_false, if_false,
    Outcome.pure_bind']
  rfl

/-! ## The bits that are written -/

/-- Some bits are written. The last of them are not in the output yet. -/
def Written (state : Writing) (written : List Bool) : Prop :=
  ∃ front, state.pos = 7 - (front.length : Int) ∧ front.length < 8 ∧ Filled state.value front ∧
    stream state.output ++ front = written

theorem written_start : Written ⟨0, 7, []⟩ [] :=
  ⟨[], rfl, Nat.zero_lt_succ 7, filled_zero, rfl⟩

theorem Written.writeBit {state : Writing} {written : List Bool} (before : Written state written)
    (bit : Bool) : Written (writeBit state bit) (written ++ [bit]) := by
  rcases before with ⟨front, place, few, filled, rfl⟩
  have pushed := filled.push (show front.length + state.pos.toNat = 7 by omega) bit
  by_cases full : state.pos - 1 < 0
  · have eight : 8 - (front ++ [bit]).length = 0 := by
      rw [List.length_append, List.length_singleton]
      omega
    rw [Filled, eight, List.replicate_zero, List.append_nil] at pushed
    have flushed : ZipCompress.writeBit state bit = ⟨0, 7, state.output ++ [_]⟩ := if_pos full
    rw [flushed]
    refine ⟨[], rfl, Nat.zero_lt_succ 7, filled_zero, ?_⟩
    rw [List.append_nil, stream_append, stream_cons, pushed, stream_nil, List.append_nil,
      List.append_assoc]
  · have kept : ZipCompress.writeBit state bit = ⟨_, state.pos - 1, state.output⟩ := if_neg full
    have longer : (front ++ [bit]).length = front.length + 1 := List.length_append
    rw [kept]
    refine ⟨front ++ [bit], ?_, by omega, pushed, ?_⟩
    · show state.pos - 1 = 7 - ((front ++ [bit]).length : Int)
      omega
    · rw [List.append_assoc]

theorem Written.writeBits {state : Writing} {written : List Bool} (before : Written state written)
    (number : Int) (flags : List Nat) :
    Written (writeBits number flags state) (written ++ flags.map number.testBit) := by
  induction flags generalizing state written with
  | nil =>
      rw [List.map_nil, List.append_nil]
      exact before
  | cons flag rest induction =>
      have after := induction (before.writeBit (number.testBit flag))
      rw [List.append_assoc] at after
      exact after

theorem testBit_byte (byte : Byte) {flag : Nat} (within : flag < 8) :
    (byte.toNat : Int).testBit flag = bitAt byte flag := by
  rw [bitAt_eq byte within]
  rfl

theorem map_testBit (byte : Byte) : (downFrom 7).map (byte.toNat : Int).testBit = bits byte := by
  have flags : downFrom 7 = (List.range 8).map fun index => 7 - index := by decide
  rw [flags, List.map_map, bits]
  apply List.map_congr_left
  intro index _
  have within : 7 - index < 8 := by omega
  exact testBit_byte byte within

/-- The bits of a token. -/
def symbolBits (byte : Byte) : List Bool := false :: bits byte

theorem Written.literal {state : Writing} {written : List Bool} (before : Written state written)
    (byte : Byte) :
    Written (ZipCompress.writeBits byte.toNat (downFrom 7) (ZipCompress.writeBit state false))
      (written ++ symbolBits byte) := by
  have after := (before.writeBit false).writeBits byte.toNat (downFrom 7)
  rw [map_testBit, List.append_assoc] at after
  exact after

/-- The last byte is written, too. -/
def flushed (state : Writing) : List Byte :=
  if state.pos ≠ 7 then state.output ++ [state.value] else state.output

theorem Written.flush {state : Writing} {written : List Bool} (after : Written state written) :
    ∃ padding, stream (flushed state) = written ++ padding := by
  rcases after with ⟨front, place, few, filled, rfl⟩
  by_cases started : state.pos ≠ 7
  · refine ⟨List.replicate (8 - front.length) false, ?_⟩
    rw [flushed, if_pos started, stream_append, stream_cons, stream_nil, List.append_nil, filled,
      List.append_assoc]
  · have empty : front = [] := List.eq_nil_of_length_eq_zero (by omega)
    refine ⟨[], ?_⟩
    rw [flushed, if_neg started, empty, List.append_nil, List.append_nil]

/-! ## The whole file -/

theorem zipPass_ended {fuel : Nat} {state : Zipping} (ended : state.input.eof = true) :
    zipPass fuel state = .ok (.leave state) :=
  if_pos ended

theorem zipLoop_spec (bytes : List Byte) (byte : Byte) (inner : Nat) (state : Zipping)
    (notEnded : state.input.eof = false) (isNext : state.ch = byte.toNat)
    (ahead : state.input.rest = bytes) (large : state.input.content.length < inner)
    {written : List Bool} (before : Written state.writing written) (fuel : Nat)
    (enough : bytes.length + 1 < fuel) :
    ∃ final, repeatLoop (zipPass inner) fuel state = .ok final ∧
      final.count = state.count + (byte :: bytes).length ∧
      Written final.writing (written ++ (byte :: bytes).flatMap symbolBits) := by
  induction bytes generalizing byte state written fuel with
  | nil =>
      rcases fuel with _ | _ | fuel
      · omega
      · simp at enough
      have literal := before.literal byte
      rw [← isNext] at literal
      rcases zipPass_spec notEnded large with ⟨startWindow, object, pass⟩
      rcases InFile.fgetc_of_nil ahead with ⟨next, got, _, ended⟩
      rw [got] at pass
      refine ⟨_, (repeatLoop_again _ pass).trans (repeatLoop_leave _ (zipPass_ended ended)), ?_, ?_⟩
      · rw [List.length_singleton, Nat.cast_one]
      · rw [List.flatMap_singleton]
        exact literal
  | cons head rest induction =>
      rcases fuel with _ | fuel
      · omega
      have literal := before.literal byte
      rw [← isNext] at literal
      rcases zipPass_spec notEnded large with ⟨startWindow, object, pass⟩
      rcases InFile.fgetc_of_cons ahead with ⟨next, got, nextAhead, same⟩
      have content := InFile.content_fgetc state.input
      rw [got] at pass content
      have nextOpen : next.eof = false := same.trans notEnded
      have nextLarge : next.content.length < inner := by
        rw [content]
        exact large
      rcases induction head ⟨next, startWindow, head.toNat, state.count + 1,
        writeBits state.ch (downFrom 7) (writeBit state.writing false), object⟩ nextOpen rfl
        nextAhead nextLarge literal fuel (by simpa using enough) with ⟨final, ran, count, after⟩
      refine ⟨final, (repeatLoop_again _ pass).trans ran, ?_, ?_⟩
      · simp only [count, List.length_cons]
        omega
      · rw [List.flatMap_cons, ← List.append_assoc]
        exact after

/-- The output is padded, and the number of tokens follows. -/
theorem zipCompress_spec (layout : Layout Int64 8) (object : Searching) (filename : List Char)
    (content : List Byte) (fuel : Nat) (enough : content.length < fuel) :
    ∃ after body padding, zipCompress layout fuel object filename content =
        .ok (after, filename ++ ".ipzz".toList,
          body ++ layout.toBytes (Int64.ofInt content.length)) ∧
      stream body = content.flatMap symbolBits ++ padding := by
  have looped : ∃ final, repeatLoop (zipPass fuel) fuel ⟨(InFile.opened content).fgetc.2,
      .opened content, (InFile.opened content).fgetc.1, 0, ⟨0, 7, []⟩, object⟩ = .ok final ∧
      final.count = content.length ∧ Written final.writing (content.flatMap symbolBits) := by
    have kept := InFile.content_fgetc (.opened content)
    cases content with
    | nil =>
        rcases InFile.fgetc_of_nil (InFile.rest_opened []) with ⟨next, got, _, ended⟩
        rcases fuel with _ | fuel
        · simp at enough
        rw [got]
        exact ⟨_, repeatLoop_leave fuel (zipPass_ended ended), rfl, written_start⟩
    | cons byte rest =>
        rcases InFile.fgetc_of_cons (InFile.rest_opened (byte :: rest)) with ⟨next, got, ahead, same⟩
        rw [got] at kept
        rw [got]
        have large : next.content.length < fuel := by
          rw [kept]
          exact enough
        rcases zipLoop_spec rest byte fuel ⟨next, .opened (byte :: rest),
          byte.toNat, 0, ⟨0, 7, []⟩, object⟩ same rfl ahead large written_start fuel enough with
          ⟨final, ran, count, written⟩
        refine ⟨final, ran, ?_, written⟩
        rw [count, Int.zero_add]
  rcases looped with ⟨final, ran, count, written⟩
  rcases written.flush with ⟨padding, packed⟩
  refine ⟨final.object, flushed final.writing, padding, ?_, packed⟩
  simp only [zipCompress, ran, Outcome.ok_bind, count]
  rfl

end DataStructAlgorithm.FileComPress.ZipCompress
