import Mathlib.Data.List.TakeWhile

/-! # Segments

A list that is cut in front of every occurrence of a mark. What stands before the first mark
belongs to no segment. -/

namespace DataStructAlgorithm.Foundation

section Segments

variable {Entry : Type u} [DecidableEq Entry] {mark : Entry}

def segments (mark : Entry) : List Entry → List (List Entry)
  | [] => []
  | entry :: rest =>
      if entry = mark then (entry :: rest.takeWhile (· != mark)) :: segments mark rest
      else segments mark rest

/-- A segment begins with the mark, which does not occur again in it. -/
def IsSegment (mark : Entry) (segment : List Entry) : Prop :=
  ∃ rest, segment = mark :: rest ∧ mark ∉ rest

theorem mark_not_mem_takeWhile (entries : List Entry) :
    mark ∉ entries.takeWhile (· != mark) := by
  intro member
  have different := List.mem_takeWhile_imp member
  exact absurd rfl (bne_iff_ne.mp different)

theorem isSegment_of_mem {entries segment : List Entry} (member : segment ∈ segments mark entries) :
    IsSegment mark segment := by
  induction entries with
  | nil => cases member
  | cons entry rest induction =>
      rw [segments] at member
      split at member
      · rename_i isMark
        rcases List.mem_cons.mp member with rfl | later
        · exact ⟨_, congrArg (· :: _) isMark, mark_not_mem_takeWhile rest⟩
        · exact induction later
      · exact induction member

/-- Together the segments are what begins at the first mark. -/
theorem flatten_segments (entries : List Entry) :
    (segments mark entries).flatten = entries.dropWhile (· != mark) := by
  induction entries with
  | nil => rfl
  | cons entry rest induction =>
      by_cases isMark : entry = mark
      · rw [segments, if_pos isMark, List.flatten_cons, induction, List.cons_append,
          List.takeWhile_append_dropWhile, List.dropWhile_cons_of_neg]
        simp [isMark]
      · rw [segments, if_neg isMark, induction, List.dropWhile_cons_of_pos]
        simp [isMark]

theorem segments_dropWhile (entries : List Entry) :
    segments mark (entries.dropWhile (· != mark)) = segments mark entries := by
  induction entries with
  | nil => rfl
  | cons entry rest induction =>
      by_cases isMark : entry = mark
      · rw [List.dropWhile_cons_of_neg]
        simp [isMark]
      · rw [List.dropWhile_cons_of_pos, induction, segments, if_neg isMark]
        simp [isMark]

theorem segments_eq_iff {entries others : List Entry} :
    segments mark entries = segments mark others ↔
      entries.dropWhile (· != mark) = others.dropWhile (· != mark) := by
  constructor
  · intro same
    rw [← flatten_segments, ← flatten_segments, same]
  · intro same
    rw [← segments_dropWhile entries, ← segments_dropWhile others, same]

theorem segments_of_not_mem {entries : List Entry} (absent : mark ∉ entries) :
    segments mark entries = [] := by
  induction entries with
  | nil => rfl
  | cons entry rest induction =>
      rw [List.mem_cons, not_or] at absent
      rw [segments, if_neg (Ne.symm absent.1)]
      exact induction absent.2

end Segments

/-! ## Cutting at positions -/

section Cuts

variable {Entry : Type u}

/-- What stands between each position and the next one. -/
def cuts (entries : List Entry) (idx : List Nat) : List (List Entry) :=
  (List.range (idx.length - 1)).map fun i =>
    (entries.drop (idx.getD i 0)).take (idx.getD (i + 1) 0 - idx.getD i 0)

theorem cuts_cons (entries : List Entry) (first second : Nat) (idx : List Nat) :
    cuts entries (first :: second :: idx) =
      (entries.drop first).take (second - first) :: cuts entries (second :: idx) := by
  simp only [cuts, List.length_cons, Nat.add_sub_cancel, List.range_succ_eq_map, List.map_cons,
    List.map_map]
  rfl

/-- The same with an entry in front. -/
theorem cuts_map (entry : Entry) (rest : List Entry) (idx : List Nat) :
    cuts (entry :: rest) (idx.map (· + 1)) = cuts rest idx := by
  rw [cuts, cuts, List.length_map]
  apply List.map_congr_left
  intro i member
  rw [List.mem_range] at member
  have moved : ∀ place < idx.length, (idx.map (· + 1)).getD place 0 = idx.getD place 0 + 1 := by
    intro place within
    simp [List.getD_eq_getElem?_getD, within]
  rw [moved i (by omega), moved (i + 1) (by omega), List.drop_succ_cons, Nat.add_sub_add_right]

variable [DecidableEq Entry]

/-- The positions of the mark. -/
def positions (mark : Entry) (entries : List Entry) : List Nat :=
  (List.range entries.length).filter fun i => entries[i]? = some mark

theorem positions_cons (mark entry : Entry) (rest : List Entry) :
    positions mark (entry :: rest) =
      (if entry = mark then [0] else []) ++ (positions mark rest).map (· + 1) := by
  have first : decide ((entry :: rest)[0]? = some mark) = decide (entry = mark) := by simp
  have later : (List.map Nat.succ (List.range rest.length)).filter
      (fun i => decide ((entry :: rest)[i]? = some mark)) =
        (positions mark rest).map (· + 1) := by
    rw [List.filter_map]
    rfl
  rw [positions, List.length_cons, List.range_succ_eq_map, List.filter_cons, first, later]
  by_cases isMark : entry = mark
  · simp [isMark]
  · simp [isMark]

/-- The first position, or the end when there is none. -/
theorem positions_end (mark : Entry) (entries : List Entry) :
    ∃ first idx, positions mark entries ++ [entries.length] = first :: idx ∧
      entries.take first = entries.takeWhile (· != mark) := by
  induction entries with
  | nil => exact ⟨0, [], rfl, rfl⟩
  | cons entry rest induction =>
      rw [positions_cons]
      by_cases isMark : entry = mark
      · rw [if_pos isMark]
        refine ⟨0, _, rfl, ?_⟩
        simp [isMark]
      · rcases induction with ⟨first, idx, split, before⟩
        have moved := congrArg (List.map (· + 1)) split
        rw [List.map_append, List.map_cons] at moved
        refine ⟨first + 1, idx.map (· + 1), ?_, ?_⟩
        · rw [if_neg isMark, List.nil_append]
          exact moved
        · rw [List.take_succ_cons, before, List.takeWhile_cons_of_pos]
          simp [isMark]

theorem cuts_positions (mark : Entry) (entries : List Entry) :
    cuts entries (positions mark entries ++ [entries.length]) = segments mark entries := by
  induction entries with
  | nil => rfl
  | cons entry rest induction =>
      have moved : (positions mark rest ++ [rest.length]).map (· + 1) =
          (positions mark rest).map (· + 1) ++ [(entry :: rest).length] := by
        rw [List.map_append]
        rfl
      rw [positions_cons, List.append_assoc, ← moved, segments]
      by_cases isMark : entry = mark
      · rcases positions_end mark rest with ⟨first, idx, split, before⟩
        have later := cuts_map entry rest (first :: idx)
        rw [List.map_cons] at later
        rw [split] at induction
        rw [if_pos isMark, if_pos isMark, split, List.map_cons, List.singleton_append, cuts_cons,
          later, induction, List.drop_zero, Nat.sub_zero, List.take_succ_cons, before]
      · rw [if_neg isMark, if_neg isMark, List.nil_append, cuts_map, induction]

end Cuts

end DataStructAlgorithm.Foundation
