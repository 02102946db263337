import DataStructAlgorithm.Foundation.ByteTable
import DataStructAlgorithm.FileComPress.FileCompress

/-! # The table of the bytes

The table is filled with the counts of a file, the counts are written to the compressed
file, and another table is filled with what is read from there. -/

namespace DataStructAlgorithm.FileComPress.FileCompress

open Foundation

theorem new_eq : new = tableOf fun byte => ⟨0, [], byte⟩ := by
  rw [new, tableOf, allBytes, List.map_map]
  rfl

/-! ## Counting -/

/-- The table after some bytes have been counted. -/
def counted (entries : Byte → FileInformation) (bytes : List Byte) : Byte → FileInformation :=
  fun byte => { entries byte with
    appearenceNumber := (entries byte).appearenceNumber + bytes.count byte }

theorem counted_nil (entries : Byte → FileInformation) : counted entries [] = entries := rfl

theorem counted_cons (entries : Byte → FileInformation) (byte : Byte) (bytes : List Byte) :
    counted entries (byte :: bytes) = counted (Function.update entries byte
      { entries byte with appearenceNumber := (entries byte).appearenceNumber + 1 }) bytes := by
  funext other
  by_cases same : other = byte
  · subst same
    simp only [counted, Function.update_self, List.count_cons_self]
    rw [Nat.add_assoc, Nat.add_comm 1]
  · simp only [counted, Function.update_of_ne same, List.count_cons_of_ne (Ne.symm same)]

theorem countPass_open {entries : Byte → FileInformation} {file after : InFile} {value : Int}
    (notEnded : file.eof = false) (got : file.fgetc = (value, after)) (byte : Byte) :
    countPass (tableOf entries, file, byte) = .ok (.again (tableOf (Function.update entries byte
      { entries byte with appearenceNumber := (entries byte).appearenceNumber + 1 }), after,
      toChar value)) := by
  simp only [countPass, notEnded, Bool.false_eq_true, if_false, readAt_tableOf, writeAt_tableOf,
    Outcome.ok_bind, got]
  rfl

theorem countPass_ended {table : List FileInformation} {file : InFile} (ended : file.eof = true)
    (byte : Byte) : countPass (table, file, byte) = .ok (.leave (table, file)) :=
  if_pos ended

theorem countLoop_spec (bytes : List Byte) (byte : Byte) {entries : Byte → FileInformation}
    {file : InFile} (ahead : file.rest = bytes) (notEnded : file.eof = false) (fuel : Nat)
    (enough : bytes.length + 1 < fuel) :
    ∃ after, repeatLoop countPass fuel (tableOf entries, file, byte) =
        .ok (tableOf (counted entries (byte :: bytes)), after) ∧
      after.content = file.content := by
  induction bytes generalizing byte entries file fuel with
  | nil =>
      rcases fuel with _ | _ | fuel
      · omega
      · simp at enough
      rcases InFile.fgetc_of_nil ahead with ⟨next, got, _, ended⟩
      have content := InFile.content_fgetc file
      rw [got] at content
      refine ⟨next, ?_, content⟩
      rw [repeatLoop_again _ (countPass_open notEnded got byte),
        repeatLoop_leave _ (countPass_ended ended _), counted_cons, counted_nil]
  | cons head rest induction =>
      rcases fuel with _ | fuel
      · omega
      rcases InFile.fgetc_of_cons ahead with ⟨next, got, nextAhead, same⟩
      have content := InFile.content_fgetc file
      rw [got] at content
      rw [repeatLoop_again _ (countPass_open notEnded got byte), counted_cons, toChar_toNat,
        ← content]
      exact induction head nextAhead (same.trans notEnded) fuel (by simpa using enough)

theorem countBytes_spec (bytes : List Byte) (entries : Byte → FileInformation) (fuel : Nat)
    (enough : bytes.length < fuel) :
    ∃ after, countBytes fuel (tableOf entries) (.opened bytes) =
        .ok (tableOf (counted entries bytes), after) ∧ after.content = bytes := by
  have content := InFile.content_fgetc (.opened bytes)
  cases bytes with
  | nil =>
      rcases InFile.fgetc_of_nil (InFile.rest_opened []) with ⟨next, got, _, ended⟩
      rw [got] at content
      rcases fuel with _ | fuel
      · simp at enough
      refine ⟨next, ?_, content⟩
      simp only [countBytes, got]
      exact repeatLoop_leave _ (countPass_ended ended _)
  | cons head rest =>
      rcases InFile.fgetc_of_cons (InFile.rest_opened (head :: rest)) with ⟨next, got, ahead, same⟩
      rw [got] at content
      rcases countLoop_spec rest head ahead same fuel enough with ⟨after, ran, sameContent⟩
      refine ⟨after, ?_, sameContent.trans content⟩
      simp only [countBytes, got, toChar_toNat]
      exact ran

/-! ## The counts in the compressed file -/

section Config

variable {size : Nat} (layout : Layout ConfigInfo size)

/-- What is written for an entry. -/
def configBytes (entry : FileInformation) : List Byte :=
  layout.toBytes ⟨entry.ch, Int64.ofNat entry.appearenceNumber⟩

def appears (entry : FileInformation) : Bool :=
  decide (entry.appearenceNumber ≠ 0)

theorem foldl_configStep (fileinfo : List FileInformation) (info : ConfigInfo)
    (bytes : List Byte) :
    ∃ last, fileinfo.foldl (configStep layout) (info, bytes) =
      (last, bytes ++ (fileinfo.filter appears).flatMap (configBytes layout)) := by
  induction fileinfo generalizing info bytes with
  | nil =>
      refine ⟨info, ?_⟩
      simp
  | cons entry rest induction =>
      rw [List.foldl_cons, configStep]
      by_cases used : entry.appearenceNumber ≠ 0
      · rcases induction ⟨entry.ch, Int64.ofNat entry.appearenceNumber⟩
          (bytes ++ configBytes layout entry) with ⟨last, folded⟩
        refine ⟨last, ?_⟩
        have kept : appears entry = true := decide_eq_true used
        rw [if_pos used, List.filter_cons_of_pos kept, List.flatMap_cons, ← List.append_assoc]
        exact folded
      · rcases induction info bytes with ⟨last, folded⟩
        refine ⟨last, ?_⟩
        have dropped : ¬appears entry = true := fun kept => used (of_decide_eq_true kept)
        rw [if_neg used, List.filter_cons_of_neg dropped]
        exact folded

theorem configurationFileInformation_eq (unset : ConfigInfo) (fileinfo : List FileInformation) :
    ∃ ch, configurationFileInformation layout unset fileinfo =
      (fileinfo.filter appears).flatMap (configBytes layout) ++ layout.toBytes ⟨ch, -1⟩ := by
  rcases foldl_configStep layout fileinfo unset [] with ⟨last, folded⟩
  refine ⟨last.ch, ?_⟩
  simp only [configurationFileInformation, folded, List.nil_append]

/-- What is read for an entry is written to the other table. -/
def restore (stored entry : FileInformation) : FileInformation :=
  { entry with ch := stored.ch, appearenceNumber := stored.appearenceNumber }

/-- What a record that is read changes in the entry of its byte. -/
def enter (info : ConfigInfo) (entry : FileInformation) : FileInformation :=
  { entry with ch := info.ch, appearenceNumber := info.count.toUInt64.toNat }

/-- Numbers that are the same `size_t` are the same `long long`. -/
theorem ofNat_mod {first second : Nat} (same : first % 2 ^ 64 = second % 2 ^ 64) :
    Int64.ofNat first = Int64.ofNat second := by
  apply Int64.toBitVec_inj.mp
  apply BitVec.eq_of_toNat_eq
  simp only [Int64.ofNat]
  exact same

theorem count_ofNat {number : Nat} (small : number < 2 ^ 63) :
    (Int64.ofNat number).toUInt64.toNat = number ∧ Int64.ofNat number ≠ -1 := by
  constructor
  · simp
    omega
  · intro same
    have values := congrArg Int64.toInt same
    rw [Int64.toInt_ofNat_of_lt small] at values
    simp at values

/-- The variable `info` after some bytes have been read. -/
def readInfo (bytes : List Byte) (info : ConfigInfo) : ConfigInfo :=
  if bytes.length = size then layout.ofBytes bytes else info

theorem configPass_again {entries : Byte → FileInformation} {file after : InFile}
    {bytes : List Byte} {info next : ConfigInfo} (got : file.fread size = (bytes, after))
    (isNext : readInfo layout bytes info = next) (counts : next.count ≠ -1) :
    configPass layout (tableOf entries, file, info) =
      .ok (.again (tableOf (Function.update entries next.ch (enter next (entries next.ch))), after,
        next)) := by
  subst isNext
  rw [readInfo] at counts ⊢
  simp only [configPass, got, if_neg counts, readAt_tableOf, writeAt_tableOf, Outcome.ok_bind]
  rfl

theorem configPass_last {table : List FileInformation} {file after : InFile}
    {bytes : List Byte} {info : ConfigInfo} (got : file.fread size = (bytes, after))
    (isLast : (readInfo layout bytes info).count = -1) :
    configPass layout (table, file, info) = .ok (.leave (table, after)) := by
  rw [readInfo] at isLast
  simp only [configPass, got, if_pos isLast]
  rfl

theorem readInfo_toBytes (stored info : ConfigInfo) :
    readInfo layout (layout.toBytes stored) info = stored := by
  rw [readInfo, if_pos (layout.length_toBytes stored), layout.ofBytes_toBytes]

/-- A stored count is read back. -/
theorem enter_stored {stored : FileInformation} (small : stored.appearenceNumber < 2 ^ 63)
    (entry : FileInformation) :
    enter ⟨stored.ch, Int64.ofNat stored.appearenceNumber⟩ entry = restore stored entry := by
  rw [enter, restore, (count_ofNat small).1]

theorem configLoop_spec (stored : List FileInformation)
    (small : ∀ entry ∈ stored, entry.appearenceNumber < 2 ^ 63) (entries : Byte → FileInformation)
    {file : InFile} {ch : Byte} {tail : List Byte}
    (ahead : file.rest = stored.flatMap (configBytes layout) ++ layout.toBytes ⟨ch, -1⟩ ++ tail)
    (info : ConfigInfo) (fuel : Nat) (enough : stored.length < fuel) :
    ∃ after, repeatLoop (configPass layout) fuel (tableOf entries, file, info) =
        .ok (tableOf (changeAll FileInformation.ch restore entries stored), after) ∧
      after.rest = tail := by
  induction stored generalizing entries file info fuel with
  | nil =>
      rcases fuel with _ | fuel
      · omega
      rcases InFile.fread_of_append ahead with ⟨after, got, rest, _⟩
      rw [List.flatMap_nil, List.nil_append, layout.length_toBytes] at got
      have isLast := congrArg ConfigInfo.count (readInfo_toBytes layout ⟨ch, -1⟩ info)
      exact ⟨after, repeatLoop_leave _ (configPass_last layout got isLast), rest⟩
  | cons entry others induction =>
      rcases fuel with _ | fuel
      · omega
      rw [List.flatMap_cons, List.append_assoc, List.append_assoc] at ahead
      rcases InFile.fread_of_append ahead with ⟨next, got, rest, _⟩
      have length : (configBytes layout entry).length = size := layout.length_toBytes _
      rw [length] at got
      rcases List.forall_mem_cons.mp small with ⟨entrySmall, othersSmall⟩
      rw [repeatLoop_again _ (configPass_again layout got (readInfo_toBytes layout _ info)
        (count_ofNat entrySmall).2), enter_stored entrySmall]
      apply induction othersSmall _ _ _ fuel (by simpa using enough)
      rw [rest, List.append_assoc]

end Config

end DataStructAlgorithm.FileComPress.FileCompress
