import DataStructAlgorithm.FileComPress.FileCompress
import DataStructAlgorithm.Foundation.ByteTable

/-! # The packed codes

The digits of the codes are shifted into the bytes of the compressed file. The last byte
is filled up, and the symbol that is read at the end of the file is packed too. -/

namespace DataStructAlgorithm.FileComPress.FileCompress

open Foundation

def isOne (digit : Char) : Bool := decide ('1' = digit)

/-- Some bits are packed. The last of them are not in the output yet. -/
def Packed (state : Packing) (packed : List Bool) : Prop :=
  ∃ back, back.length = state.pos ∧ state.pos < 8 ∧ ShiftedIn state.currentValue back ∧
    stream state.output ++ back = packed

theorem packed_start : Packed ⟨0, 0, []⟩ [] :=
  ⟨[], rfl, by decide, shiftedIn_zero, rfl⟩

theorem Packed.packDigit {state : Packing} {packed : List Bool} (before : Packed state packed)
    (digit : Char) : Packed (packDigit state digit) (packed ++ [isOne digit]) := by
  rcases before with ⟨back, length, few, shifted, rfl⟩
  have pushed := shifted.push (by omega) (isOne digit)
  have newLength : (back ++ [isOne digit]).length = state.pos + 1 := by
    rw [List.length_append, length, List.length_singleton]
  simp only [isOne, decide_eq_true_eq] at pushed newLength ⊢
  by_cases full : state.pos + 1 = 8
  · -- The byte is full, and nothing but the new bits is in it.
    have filled : FileCompress.packDigit state digit = ⟨0, 0, state.output ++ [_]⟩ := if_pos full
    rw [ShiftedIn, newLength, full, Nat.sub_self, List.replicate_zero, List.nil_append] at pushed
    rw [filled]
    refine ⟨[], rfl, Nat.zero_lt_succ 7, shiftedIn_zero, ?_⟩
    rw [List.append_nil, stream_append, stream_cons, pushed, stream_nil, List.append_nil,
      List.append_assoc]
  · have grown : FileCompress.packDigit state digit = ⟨_, state.pos + 1, state.output⟩ :=
      if_neg full
    have fewer : state.pos + 1 < 8 := by omega
    rw [grown]
    refine ⟨back ++ [decide ('1' = digit)], newLength, fewer, pushed, ?_⟩
    rw [List.append_assoc]

theorem Packed.packDigits {state : Packing} {packed : List Bool} (before : Packed state packed)
    (code : List Char) :
    Packed (code.foldl FileCompress.packDigit state) (packed ++ code.map isOne) := by
  induction code generalizing state packed with
  | nil =>
      rw [List.map_nil, List.append_nil]
      exact before
  | cons digit rest induction =>
      have after := induction (before.packDigit digit)
      rw [List.append_assoc] at after
      exact after

/-- The last byte is completed with zero bits. -/
theorem Packed.finish {state : Packing} {packed : List Bool} (before : Packed state packed) :
    ∃ count < 8, stream (finishPacking state) = packed ++ List.replicate count false := by
  rcases before with ⟨back, length, few, shifted, rfl⟩
  by_cases started : state.pos ≠ 0
  · have last := shifted.finish (show 8 - state.pos < 8 by omega) (by omega)
    refine ⟨8 - state.pos, by omega, ?_⟩
    rw [finishPacking, if_pos started, stream_append, stream_cons, last, stream_nil,
      List.append_nil, List.append_assoc]
  · have empty : back = [] := List.eq_nil_of_length_eq_zero (by omega)
    refine ⟨0, by decide, ?_⟩
    rw [finishPacking, if_neg started, empty, List.append_nil, List.replicate_zero,
      List.append_nil]

/-! ## The loop over the file -/

/-- The digits that are packed for some bytes. -/
def digits (entries : Byte → FileInformation) (bytes : List Byte) : List Char :=
  bytes.flatMap fun byte => (entries byte).huffmanCode

theorem packPass_notEnded {entries : Byte → FileInformation} {file after : InFile} {value : Int}
    (notEnded : file.eof = false) (got : file.fgetc = (value, after)) (packing : Packing) :
    packPass (tableOf entries) (file, packing) = .ok (.again (after,
      (entries (toChar value)).huffmanCode.foldl packDigit packing)) := by
  simp only [packPass, notEnded, Bool.false_eq_true, if_false, got, readAt_tableOf,
    Outcome.ok_bind]
  rfl

theorem packPass_ended {table : List FileInformation} {file : InFile} (ended : file.eof = true)
    (packing : Packing) : packPass table (file, packing) = .ok (.leave packing) :=
  if_pos ended

/-- The end of the file is read as the byte 255, which is packed as well. -/
theorem packLoop_spec (entries : Byte → FileInformation) (bytes : List Byte) {file : InFile}
    (ahead : file.rest = bytes) (notEnded : file.eof = false) (packing : Packing) (fuel : Nat)
    (enough : bytes.length + 1 < fuel) :
    repeatLoop (packPass (tableOf entries)) fuel (file, packing) =
      .ok ((digits entries (bytes ++ [255])).foldl packDigit packing) := by
  induction bytes generalizing file packing fuel with
  | nil =>
      rcases fuel with _ | _ | fuel
      · omega
      · simp at enough
      rcases InFile.fgetc_of_nil ahead with ⟨after, got, _, ended⟩
      rw [repeatLoop_again _ (packPass_notEnded notEnded got packing),
        repeatLoop_leave _ (packPass_ended ended _), show toChar (-1) = 255 by decide, digits,
        List.nil_append, List.flatMap_singleton]
  | cons byte rest induction =>
      rcases fuel with _ | fuel
      · omega
      rcases InFile.fgetc_of_cons ahead with ⟨after, got, afterAhead, same⟩
      rw [repeatLoop_again _ (packPass_notEnded notEnded got packing), toChar_toNat,
        induction afterAhead (same.trans notEnded) _ fuel (by simpa using enough), digits, digits,
        List.cons_append, List.flatMap_cons, List.foldl_append]

/-- The packed part holds the codes of the bytes of the file and of the byte 255. -/
theorem compressToFile_spec (entries : Byte → FileInformation) {bytes : List Byte} {file : InFile}
    (content : file.content = bytes) (fuel : Nat) (enough : bytes.length + 1 < fuel) :
    ∃ packed, compressToFile fuel (tableOf entries) file = .ok packed ∧ ∃ count < 8,
      stream packed = (digits entries (bytes ++ [255])).map isOne ++ List.replicate count false := by
  have rewound : file.seek 0 = .opened bytes := by
    rw [InFile.seek_zero, content]
  have ran := packLoop_spec entries bytes (InFile.rest_opened bytes) rfl ⟨0, 0, []⟩ fuel enough
  refine ⟨finishPacking ((digits entries (bytes ++ [255])).foldl packDigit ⟨0, 0, []⟩), ?_,
    (packed_start.packDigits (digits entries (bytes ++ [255]))).finish⟩
  rw [compressToFile, rewound, ran]
  rfl

theorem digits_last (entries : Byte → FileInformation) (bytes : List Byte) :
    digits entries (bytes ++ [255]) = digits entries bytes ++ (entries 255).huffmanCode := by
  rw [digits, List.flatMap_append, List.flatMap_singleton]
  rfl

end DataStructAlgorithm.FileComPress.FileCompress
