import DataStructAlgorithm.FileComPress.Literals

/-! # Decompressing what has been compressed

The decompression reads the bits in the order in which they were written. The number of
tokens at the end of the file says when to stop. -/

namespace DataStructAlgorithm.FileComPress.ZipCompress

open Foundation

/-! ## Reading bits -/

/-- Some bits come next. -/
def Ready (state : Reading) (next : List Bool) : Prop :=
  next = [] ∨ (0 ≤ state.pos ∧ state.pos ≤ 7 ∧ ∃ byte : Byte, state.ch = byte.toNat ∧
    next <+: ahead byte state.pos.toNat state.input.rest)

theorem Ready.readBit {state : Reading} {bit : Bool} {next : List Bool}
    (ready : Ready state (bit :: next)) :
    (readBit state).1 = bit ∧ Ready (readBit state).2 next := by
  rcases ready with impossible | ⟨nonneg, within, byte, current, isPrefix⟩
  · cases impossible
  rw [ahead_eq (by omega), List.cons_prefix_cons] at isPrefix
  have tested : state.ch.testBit state.pos.toNat = bit := by
    rw [current, testBit_byte byte (by omega)]
    exact isPrefix.1.symm
  by_cases used : state.pos - 1 < 0
  · have refilled : ZipCompress.readBit state =
        (state.ch.testBit state.pos.toNat, ⟨state.input.fgetc.1, 7, state.input.fgetc.2⟩) :=
      if_pos used
    rw [refilled]
    refine ⟨tested, ?_⟩
    rw [if_pos (by omega)] at isPrefix
    cases ended : state.input.rest with
    | nil =>
        rw [ended] at isPrefix
        exact Or.inl (List.prefix_nil.mp isPrefix.2)
    | cons byte rest =>
        rcases InFile.fgetc_of_cons ended with ⟨after, got, afterAhead, _⟩
        rw [ended] at isPrefix
        rw [got]
        refine Or.inr ⟨Int.natCast_nonneg 7, Int.le_refl 7, byte, rfl, ?_⟩
        show next <+: ahead byte 7 after.rest
        rw [afterAhead, ahead_seven]
        exact isPrefix.2
  · have moved : ZipCompress.readBit state =
        (state.ch.testBit state.pos.toNat, ⟨state.ch, state.pos - 1, state.input⟩) := if_neg used
    rw [moved]
    rw [if_neg (by omega)] at isPrefix
    refine ⟨tested, Or.inr ⟨?_, ?_, byte, current, ?_⟩⟩
    · show 0 ≤ state.pos - 1
      omega
    · show state.pos - 1 ≤ 7
      omega
    · show next <+: ahead byte (state.pos - 1).toNat state.input.rest
      rw [show (state.pos - 1).toNat = state.pos.toNat - 1 by omega]
      exact isPrefix.2

/-- The bits of a file come next when its first byte has been read. -/
theorem ready_opened {content : List Byte} (nonempty : content ≠ []) :
    ∃ (byte : Byte) (input : InFile), (InFile.opened content).fgetc = ((byte.toNat : Int), input) ∧
      input.position = 1 ∧ Ready ⟨byte.toNat, 7, input⟩ (stream content) := by
  rcases List.exists_cons_of_ne_nil nonempty with ⟨byte, rest, rfl⟩
  have ahead := InFile.rest_opened (byte :: rest)
  have position := InFile.position_fgetc ahead
  rcases InFile.fgetc_of_cons ahead with ⟨input, got, inputAhead, _⟩
  rw [got] at position
  refine ⟨byte, input, got, position, Or.inr ⟨Int.natCast_nonneg 7, Int.le_refl 7, byte, rfl, ?_⟩⟩
  rw [← ahead_seven, ← inputAhead]
  exact List.prefix_refl _

theorem flags_cons (bit : Bool) (rest : List Bool) : (List.range (bit :: rest).length).reverse =
    rest.length :: (List.range rest.length).reverse := by
  rw [List.length_cons, List.range_succ, List.reverse_concat]

theorem readByte_cons (flag : Nat) (flags : List Nat) (value : Byte) (state : Reading) :
    readByte (flag :: flags) value state = readByte flags
      (if (readBit state).1 then setBit value flag else keepFrom value flag) (readBit state).2 :=
  rfl

/-- The bits of a value are read into it, the highest one first. -/
theorem Ready.readByte {state : Reading} {back next : List Bool} (ready : Ready state (back ++ next))
    {value : Byte} {front : List Bool} (filled : Filled value front)
    (whole : front.length + back.length = 8) :
    Filled (readByte (List.range back.length).reverse value state).1 (front ++ back) ∧
      Ready (readByte (List.range back.length).reverse value state).2 next := by
  induction back generalizing state value front with
  | nil =>
      rw [List.append_nil]
      exact ⟨filled, ready⟩
  | cons bit rest induction =>
      rw [List.length_cons] at whole
      rcases ready.readBit with ⟨isBit, nextReady⟩
      have place : front.length + rest.length = 7 := by omega
      rw [flags_cons, readByte_cons, isBit]
      have later := induction nextReady (filled.push place bit)
        (by rw [List.length_append, List.length_singleton]; omega)
      rw [List.append_assoc] at later
      exact later

theorem readByte_spec {state : Reading} {byte : Byte} {next : List Bool}
    (ready : Ready state (bits byte ++ next)) :
    (readByte (downFrom 7) 0 state).1 = byte ∧ Ready (readByte (downFrom 7) 0 state).2 next := by
  have read := ready.readByte filled_zero (by rw [length_bits]; rfl)
  rw [length_bits] at read
  refine ⟨?_, read.2⟩
  apply eq_of_bits
  have filled := read.1
  rw [List.nil_append, Filled, length_bits, Nat.sub_self, List.replicate_zero,
    List.append_nil] at filled
  exact filled

/-! ## One token, and all of them -/

theorem unzipPass_literal {state : Unzipping} (more : state.count > 0) (isZero : state.value = 0)
    {byte : Byte} {next : List Bool} (ready : Ready state.reading (symbolBits byte ++ next)) :
    ∃ reading, unzipPass state = .ok (.again ⟨state.count - 1, 0, reading, state.startWindow,
        state.output ++ [byte]⟩) ∧ Ready reading next := by
  rcases Ready.readBit ready with ⟨status, bitsReady⟩
  rcases readByte_spec bitsReady with ⟨isByte, nextReady⟩
  refine ⟨(readByte (downFrom 7) 0 (readBit state.reading).2).2, ?_, nextReady⟩
  simp only [unzipPass, if_pos more, status, Bool.false_eq_true, if_false, isZero, isByte]

theorem unzipLoop_spec (bytes : List Byte) (state : Unzipping) (count : state.count = bytes.length)
    (isZero : state.value = 0) {padding : List Bool}
    (ready : Ready state.reading (bytes.flatMap symbolBits ++ padding)) (fuel : Nat)
    (enough : bytes.length < fuel) :
    repeatLoop unzipPass fuel state = .ok (state.output ++ bytes) := by
  induction bytes generalizing state fuel with
  | nil =>
      rcases fuel with _ | fuel
      · omega
      have finished : ¬state.count > 0 := by
        rw [count]
        decide
      have pass : unzipPass state = .ok (.leave state.output) := if_neg finished
      rw [repeatLoop_leave fuel pass, List.append_nil]
  | cons byte rest induction =>
      rcases fuel with _ | fuel
      · omega
      rw [List.length_cons] at count enough
      rw [List.flatMap_cons, List.append_assoc] at ready
      have more : state.count > 0 := by omega
      rcases unzipPass_literal more isZero ready with ⟨reading, pass, nextReady⟩
      have fewer : state.count - 1 = rest.length := by omega
      rw [repeatLoop_again fuel pass, induction ⟨state.count - 1, 0, reading,
        state.startWindow, state.output ++ [byte]⟩ fewer rfl nextReady fuel (by omega),
        List.append_assoc]
      rfl

/-! ## The whole file -/

theorem unCompress_spec (layout : Layout Int64 8) (unset : Int64) (filename : List Char)
    {bytes body : List Byte} {padding : List Bool} (small : bytes.length < 2 ^ 63)
    (packed : stream body = bytes.flatMap symbolBits ++ padding) (fuel : Nat)
    (enough : bytes.length < fuel) :
    unCompress layout fuel unset filename (body ++ layout.toBytes (Int64.ofInt bytes.length)) =
      .ok (filename ++ ".uzip".toList, bytes) := by
  have eight := layout.length_toBytes (Int64.ofInt bytes.length)
  -- The number of tokens is read from the end of the file.
  have atCount : ((InFile.opened (body ++ layout.toBytes (Int64.ofInt bytes.length))).fseek (-8)
      .finish).rest = layout.toBytes (Int64.ofInt bytes.length) ++ [] := by
    have length : (body ++ layout.toBytes (Int64.ofInt bytes.length)).length = body.length + 8 := by
      rw [List.length_append, eight]
    have inside : ¬((body.length + 8 : Nat) : Int) + -8 < 0 := by omega
    have place : (((body.length + 8 : Nat) : Int) + -8).toNat = body.length := by omega
    simp only [InFile.fseek, InFile.opened, length, if_neg inside, place, InFile.rest,
      List.drop_left, List.append_nil]
  rcases InFile.fread_of_append atCount with ⟨after, counted, _, _⟩
  rw [eight] at counted
  have content : after.content = body ++ layout.toBytes (Int64.ofInt bytes.length) := by
    have kept : ∀ file : InFile, (file.fread 8).2.content = file.content := fun _ => rfl
    have same := kept ((InFile.opened (body ++ layout.toBytes (Int64.ofInt bytes.length))).fseek
      (-8) .finish)
    rw [counted] at same
    rw [same, InFile.fseek]
    split <;> rfl
  have rewound : after.fseek 0 .start =
      .opened (body ++ layout.toBytes (Int64.ofInt bytes.length)) := by
    rw [← content]
    rfl
  have number : (Int64.ofInt bytes.length).toInt = bytes.length :=
    Int64.toInt_ofInt_of_le (by omega) (by omega)
  -- The first byte of the file is read.
  have nonempty : body ++ layout.toBytes (Int64.ofInt bytes.length) ≠ [] := by
    apply List.ne_nil_of_length_pos
    rw [List.length_append]
    omega
  rcases ready_opened nonempty with ⟨byte, input, got, _, ready⟩
  rw [stream_append, packed, List.append_assoc] at ready
  have decoded := unzipLoop_spec bytes ⟨bytes.length, 0, ⟨byte.toNat, 7, input⟩,
    .opened (body ++ layout.toBytes (Int64.ofInt bytes.length)), []⟩ rfl rfl ready fuel enough
  simp only [unCompress, counted, eight, if_true, layout.ofBytes_toBytes, rewound, got, number,
    decoded, Outcome.ok_bind]
  rfl

/-- Decompressing a compressed file gives the file. -/
theorem unCompress_zipCompress (layout : Layout Int64 8) (object : Searching) (unset : Int64)
    (filename : List Char) (bytes : List Byte) (small : bytes.length < 2 ^ 63) (fuel : Nat)
    (enough : bytes.length < fuel) :
    ∃ after name content newName,
      zipCompress layout fuel object filename bytes = .ok (after, name, content) ∧
      unCompress layout fuel unset name content = .ok (newName, bytes) := by
  rcases zipCompress_spec layout object filename bytes fuel enough with
    ⟨after, body, padding, ran, packed⟩
  exact ⟨after, _, _, _, ran, unCompress_spec layout unset _ small packed fuel enough⟩

theorem unCompress_zipCompress_small :
    ∃ after name content newName,
      zipCompress .littleEndian 10 ⟨[], 0, 0⟩ "a".toList [97, 97, 97, 97] =
        .ok (after, name, content) ∧
      unCompress .littleEndian 10 0 name content = .ok (newName, [97, 97, 97, 97]) :=
  unCompress_zipCompress .littleEndian ⟨[], 0, 0⟩ 0 "a".toList [97, 97, 97, 97] (by decide) 10
    (by decide)

end DataStructAlgorithm.FileComPress.ZipCompress
