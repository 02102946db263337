import DataStructAlgorithm.Foundation.Lines

/-! # All lines of a stream

Lines are split off a stream as long as there is a complete one. More bytes at the end of the
stream only add lines. -/

namespace DataStructAlgorithm.Foundation

theorem scan_shrinks {bytes content rest : List Byte} (scanned : scan bytes = .line content rest) :
    rest.length < bytes.length := by
  have describes := scan_describes bytes
  rw [scanned] at describes
  rw [describes.2, List.length_append, List.length_cons, List.length_cons]
  omega

/-- The complete lines at the beginning of a stream, and what comes behind them. -/
def splitLines (bytes : List Byte) : List (List Byte) × List Byte :=
  match _scanned : scan bytes with
  | .line content rest => (content :: (splitLines rest).1, (splitLines rest).2)
  | .open _ => ([], bytes)
  | .bad _ => ([], bytes)
termination_by bytes.length
decreasing_by all_goals exact scan_shrinks ‹_›

theorem splitLines_line {bytes content rest : List Byte}
    (scanned : scan bytes = .line content rest) :
    splitLines bytes = (content :: (splitLines rest).1, (splitLines rest).2) := by
  rw [splitLines]
  split
  · rename_i same
    rw [scanned] at same
    cases same
    rfl
  · rename_i same
    rw [scanned] at same
    cases same
  · rename_i same
    rw [scanned] at same
    cases same

theorem splitLines_none {bytes : List Byte}
    (noLine : ∀ content rest, scan bytes ≠ .line content rest) : splitLines bytes = ([], bytes) := by
  rw [splitLines]
  split
  · rename_i scanned
    exact absurd scanned (noLine _ _)
  · rfl
  · rfl

/-- A property of streams, by the way the first line is split off. -/
theorem splitLines_induction {holds : List Byte → Prop}
    (none : ∀ bytes, (∀ content rest, scan bytes ≠ .line content rest) → holds bytes)
    (line : ∀ bytes content rest, scan bytes = .line content rest → holds rest → holds bytes)
    (bytes : List Byte) : holds bytes := by
  induction long : bytes.length using Nat.strongRecOn generalizing bytes with
  | ind length induction =>
      by_cases some : ∃ content rest, scan bytes = .line content rest
      · rcases some with ⟨content, rest, scanned⟩
        apply line bytes content rest scanned
        exact induction rest.length (long ▸ scan_shrinks scanned) rest rfl
      · apply none bytes
        intro content rest scanned
        exact some ⟨content, rest, scanned⟩

theorem scan_line_append {bytes content rest : List Byte}
    (scanned : scan bytes = .line content rest) (more : List Byte) :
    scan (bytes ++ more) = .line content (rest ++ more) := by
  have describes := scan_describes bytes
  rw [scanned] at describes
  rcases describes with ⟨unbroken, same⟩
  rw [same, List.append_assoc]
  exact scan_line unbroken (rest ++ more)

/-- The lines of a stream that comes in two parts. -/
theorem splitLines_append (bytes more : List Byte) :
    splitLines (bytes ++ more) = ((splitLines bytes).1 ++
      (splitLines ((splitLines bytes).2 ++ more)).1, (splitLines ((splitLines bytes).2 ++ more)).2) := by
  induction bytes using splitLines_induction with
  | none bytes noLine =>
      rw [splitLines_none noLine]
      rfl
  | line bytes content rest scanned induction =>
      rw [splitLines_line (scan_line_append scanned more), splitLines_line scanned, induction]
      rfl

/-! ## What the lines are -/

/-- A line of the bytes: a longest part without carriage returns and line feeds that is followed
by one of each. -/
def LineIn (bytes line : List Byte) : Prop :=
  ∃ before after, bytes = before ++ line ++ carriageReturn :: lineFeed :: after ∧ Unbroken line ∧
    ∀ last, before.getLast? = some last → last = carriageReturn ∨ last = lineFeed

theorem LineIn.behind {rest line : List Byte} (lineIn : LineIn rest line) (content : List Byte) :
    LineIn (content ++ carriageReturn :: lineFeed :: rest) line := by
  rcases lineIn with ⟨before, after, rfl, unbroken, ends⟩
  refine ⟨content ++ carriageReturn :: lineFeed :: before, after, by simp, unbroken, ?_⟩
  intro last isLast
  cases before with
  | nil =>
      rw [List.getLast?_append] at isLast
      exact Or.inr (Option.some.inj isLast).symm
  | cons first before =>
      rw [List.getLast?_append] at isLast
      exact ends last (by simpa using isLast)

theorem splitLines_lineIn (bytes : List Byte) : ∀ line ∈ (splitLines bytes).1, LineIn bytes line := by
  induction bytes using splitLines_induction with
  | none bytes noLine =>
      rw [splitLines_none noLine]
      exact nofun
  | line bytes content rest scanned induction =>
      have describes := scan_describes bytes
      rw [scanned] at describes
      rcases describes with ⟨unbroken, same⟩
      intro line member
      rw [splitLines_line scanned] at member
      rw [same]
      rcases List.mem_cons.mp member with rfl | later
      · exact ⟨[], rest, rfl, unbroken, nofun⟩
      · exact (induction line later).behind content

/-- The lines with their ends and what comes behind them are the stream. -/
theorem splitLines_bytes (bytes : List Byte) :
    (splitLines bytes).1.flatMap (· ++ [carriageReturn, lineFeed]) ++ (splitLines bytes).2 =
      bytes := by
  induction bytes using splitLines_induction with
  | none bytes noLine =>
      rw [splitLines_none noLine]
      rfl
  | line bytes content rest scanned induction =>
      have describes := scan_describes bytes
      rw [scanned] at describes
      rw [splitLines_line scanned, List.flatMap_cons, List.append_assoc, induction, describes.2,
        List.append_assoc]
      rfl

/-! ## Streams that are not lines -/

/-- A line feed that does not stand behind a carriage return, or a carriage return in front of
another byte than a line feed. -/
def Broken (bytes : List Byte) : Prop :=
  (∃ before after, bytes = before ++ lineFeed :: after ∧ before.getLast? ≠ some carriageReturn) ∨
  ∃ before next after, bytes = before ++ carriageReturn :: next :: after ∧ next ≠ lineFeed

theorem broken_of_malformed {bytes : List Byte} (malformed : Malformed bytes) : Broken bytes := by
  cases bytes with
  | nil => exact malformed.elim
  | cons first rest =>
      rcases malformed with rfl | ⟨rfl, next, others, rfl, notFeed⟩
      · exact Or.inl ⟨[], rest, rfl, nofun⟩
      · exact Or.inr ⟨[], next, others, rfl, notFeed⟩

theorem not_broken_nil : ¬ Broken [] := by
  rintro (⟨before, after, same, _⟩ | ⟨before, next, after, same, _⟩)
  · exact List.append_ne_nil_of_right_ne_nil before (List.cons_ne_nil _ _) same.symm
  · exact List.append_ne_nil_of_right_ne_nil before (List.cons_ne_nil _ _) same.symm

theorem not_broken_return : ¬ Broken [carriageReturn] := by
  rintro (⟨before, after, same, _⟩ | ⟨before, next, after, same, _⟩)
  · cases before with
    | nil => exact absurd (List.cons.inj same).1 (by decide)
    | cons first before =>
        have empty := (List.cons.inj same).2
        exact List.append_ne_nil_of_right_ne_nil before (List.cons_ne_nil _ _) empty.symm
  · have short := congrArg List.length same
    simp only [List.length_append, List.length_cons, List.length_nil] at short
    omega

theorem broken_cons {byte : Byte} (plain : byte ≠ carriageReturn ∧ byte ≠ lineFeed)
    (rest : List Byte) : Broken (byte :: rest) ↔ Broken rest := by
  constructor
  · rintro (⟨before, after, same, apart⟩ | ⟨before, next, after, same, notFeed⟩)
    · cases before with
      | nil => exact absurd (List.cons.inj same).1 plain.2
      | cons first before =>
          refine Or.inl ⟨before, after, (List.cons.inj same).2, fun isReturn => apart ?_⟩
          rw [List.getLast?_cons, isReturn]
          rfl
    · cases before with
      | nil => exact absurd (List.cons.inj same).1 plain.1
      | cons first before => exact Or.inr ⟨before, next, after, (List.cons.inj same).2, notFeed⟩
  · rintro (⟨before, after, rfl, apart⟩ | ⟨before, next, after, rfl, notFeed⟩)
    · refine Or.inl ⟨byte :: before, after, rfl, ?_⟩
      rw [List.getLast?_cons]
      cases last : before.getLast? with
      | none => exact fun isReturn => plain.1 (Option.some.inj isReturn)
      | some other =>
          rw [last] at apart
          exact apart
    · exact Or.inr ⟨byte :: before, next, after, rfl, notFeed⟩

theorem broken_append {content : List Byte} (unbroken : Unbroken content) (rest : List Byte) :
    Broken (content ++ rest) ↔ Broken rest := by
  induction content with
  | nil => rfl
  | cons byte content induction =>
      rw [unbroken_cons] at unbroken
      rw [List.cons_append, broken_cons unbroken.1, induction unbroken.2]

theorem broken_lineEnd (rest : List Byte) :
    Broken (carriageReturn :: lineFeed :: rest) ↔ Broken rest := by
  constructor
  · rintro (⟨before, after, same, apart⟩ | ⟨before, next, after, same, notFeed⟩)
    · rcases before with _ | ⟨first, _ | ⟨second, before⟩⟩
      · exact absurd (List.cons.inj same).1 (by decide)
      · rw [← (List.cons.inj same).1] at apart
        exact absurd rfl apart
      · have parts := (List.cons.inj (List.cons.inj same).2)
        refine Or.inl ⟨before, after, parts.2, fun isReturn => apart ?_⟩
        rw [List.getLast?_cons, List.getLast?_cons, isReturn]
        rfl
    · rcases before with _ | ⟨first, _ | ⟨second, before⟩⟩
      · exact absurd (List.cons.inj (List.cons.inj same).2).1.symm notFeed
      · exact absurd (List.cons.inj (List.cons.inj same).2).1 (by decide)
      · exact Or.inr ⟨before, next, after, (List.cons.inj (List.cons.inj same).2).2, notFeed⟩
  · rintro (⟨before, after, rfl, apart⟩ | ⟨before, next, after, rfl, notFeed⟩)
    · refine Or.inl ⟨carriageReturn :: lineFeed :: before, after, rfl, ?_⟩
      rw [List.getLast?_cons, List.getLast?_cons]
      cases last : before.getLast? with
      | none => decide
      | some other =>
          rw [last] at apart
          exact apart
    · exact Or.inr ⟨carriageReturn :: lineFeed :: before, next, after, rfl, notFeed⟩

/-- A stream is broken exactly when what comes behind its lines begins with a bad line. -/
theorem broken_iff (bytes : List Byte) :
    Broken bytes ↔ ∃ content, scan (splitLines bytes).2 = .bad content := by
  induction bytes using splitLines_induction with
  | none bytes noLine =>
      have describes := scan_describes bytes
      rw [splitLines_none noLine]
      cases scanned : scan bytes with
      | line content rest => exact absurd scanned (noLine content rest)
      | «open» content =>
          rw [scanned] at describes
          apply iff_of_false _ nofun
          rcases describes with ⟨unbroken, same | same⟩
          · rw [same, ← List.append_nil content, broken_append unbroken]
            exact not_broken_nil
          · rw [same, broken_append unbroken]
            exact not_broken_return
      | bad content =>
          rw [scanned] at describes
          rcases describes with ⟨unbroken, rest, same, malformed⟩
          rw [same, broken_append unbroken]
          exact iff_of_true (broken_of_malformed malformed) ⟨content, rfl⟩
  | line bytes content rest scanned induction =>
      have describes := scan_describes bytes
      rw [scanned] at describes
      rcases describes with ⟨unbroken, same⟩
      rw [splitLines_line scanned, same, broken_append unbroken, broken_lineEnd]
      exact induction

end DataStructAlgorithm.Foundation
