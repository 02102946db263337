import DataStructAlgorithm.FileComPress.Literals

/-! # What the search should find

Three bytes that occur in the window before them should be found together with the bytes
that follow. The search answers 0 at every position. -/

namespace DataStructAlgorithm.FileComPress.ZipCompress

open Foundation

/-! ## Repetitions of a file -/

section Files

variable (content : List Byte)

/-- The three bytes at a position end before it, too, and begin in the window. -/
def RepeatsFrom (position earlier : Nat) : Prop :=
  earlier + 3 ≤ position ∧ position ≤ earlier + 32 * 1024 ∧ position + 3 ≤ content.length ∧
    (content.drop earlier).take 3 = (content.drop position).take 3

instance (position earlier : Nat) : Decidable (RepeatsFrom content position earlier) :=
  inferInstanceAs (Decidable (_ ∧ _))

def Repeats (position : Nat) : Prop :=
  ∃ earlier, RepeatsFrom content position earlier

/-- The bytes at a position are those some distance before it. -/
structure IsRepetition (position length : Nat) (distance : Int) : Prop where
  long : 3 ≤ length
  short : length ≤ 255
  positive : 1 ≤ distance
  inWindow : distance ≤ 32 * 1024
  inFile : distance ≤ position ∧ position + length ≤ content.length
  same : (content.drop position).take length =
    (content.drop (position - distance.toNat)).take length

/-- A pass that goes on finds a repetition when there is one, and answers 0 otherwise. -/
def Finds (fuel : Nat) (state : Zipping) : Prop :=
  state.input.eof = false → ∃ length distance input object,
    searched fuel state = .ok (length, distance, input, object) ∧
    (Repeats content (state.input.position - 1) →
      IsRepetition content (state.input.position - 1) length distance) ∧
    (¬Repeats content (state.input.position - 1) → length = 0)

/-- The state before the first pass. -/
def zipStart (object : Searching) : Zipping :=
  let (ch, input) := (InFile.opened content).fgetc
  ⟨input, .opened content, ch, 0, ⟨0, 7, []⟩, object⟩

end Files

/-! ## The passes -/

section Passes

variable {content : List Byte} {fuel : Nat} {state : Zipping} {position : Nat}

/-- The search does what it should where nothing is repeated. -/
theorem finds_iff (atByte : state.input = ⟨content, position + 1, false⟩)
    (enough : content.length < fuel) : Finds content fuel state ↔ ¬Repeats content position := by
  have notEnded : state.input.eof = false := congrArg InFile.eof atByte
  have place : state.input.position - 1 = position := by rw [atByte, Nat.add_sub_cancel]
  have large : state.input.content.length < fuel := by
    rw [atByte]
    exact enough
  rcases searched_spec notEnded large with ⟨object, found⟩
  rw [Finds, forall_prop_of_true notEnded, place]
  constructor
  · rintro ⟨length, distance, input, other, answered, finds, _⟩ repeats
    rw [found] at answered
    cases answered
    exact absurd (finds repeats).long (by decide)
  · intro alone
    exact ⟨0, _, _, object, found, fun repeats => absurd repeats alone, fun _ => rfl⟩

theorem fgetc_inside {byte : Byte} (isByte : content[position]? = some byte) (eof : Bool) :
    (InFile.mk content position eof).fgetc =
      ((byte.toNat : Int), ⟨content, position + 1, eof⟩) := by
  simp only [InFile.fgetc, isByte]

theorem fgetc_outside (outside : content[position]? = none) (eof : Bool) :
    (InFile.mk content position eof).fgetc = (-1, ⟨content, position, true⟩) := by
  simp only [InFile.fgetc, outside]

theorem everyPass_ended (ended : state.input.eof = true) (count : Nat) :
    EveryPass (zipPass fuel) (Finds content fuel) count state := by
  cases count with
  | zero => trivial
  | succ count =>
      refine ⟨fun notEnded => absurd (ended.symm.trans notEnded) nofun, ?_⟩
      intro next pass
      rw [zipPass_ended ended] at pass
      cases pass

/-- A pass goes on to the next position of the file. -/
theorem everyPass_next (enough : content.length < fuel)
    (atByte : state.input = ⟨content, position + 1, false⟩) (count : Nat) :
    ∃ next, next.input = (InFile.mk content (position + 1) false).fgetc.2 ∧
      (EveryPass (zipPass fuel) (Finds content fuel) (count + 1) state ↔
        ¬Repeats content position ∧
        EveryPass (zipPass fuel) (Finds content fuel) count next) := by
  have notEnded : state.input.eof = false := congrArg InFile.eof atByte
  have large : state.input.content.length < fuel := by
    rw [atByte]
    exact enough
  have passes : ∃ next, zipPass fuel state = .ok (.again next) ∧
      next.input = state.input.fgetc.2 := by
    rcases zipPass_spec notEnded large with ⟨startWindow, object, pass⟩
    exact ⟨_, pass, rfl⟩
  rcases passes with ⟨next, pass, moved⟩
  rw [atByte] at moved
  refine ⟨next, moved, ?_⟩
  rw [EveryPass, finds_iff atByte enough]
  apply and_congr_right
  intro _
  constructor
  · exact fun later => later _ pass
  · intro later other again
    rw [pass] at again
    cases again
    exact later

/-- From a position the loop passes every position that comes after it. -/
theorem everyPass_iff (enough : content.length < fuel) (rest : Nat)
    (atByte : state.input = ⟨content, position + 1, false⟩)
    (inside : position + 1 + rest = content.length) (count : Nat) (more : rest < count) :
    EveryPass (zipPass fuel) (Finds content fuel) count state ↔
      ∀ later, position ≤ later → later < content.length → ¬Repeats content later := by
  induction rest generalizing state position count with
  | zero =>
      rcases count with _ | count
      · omega
      rcases everyPass_next enough atByte count with ⟨next, moved, both⟩
      rw [fgetc_outside (List.getElem?_eq_none (by omega))] at moved
      rw [both, and_iff_left (everyPass_ended (congrArg InFile.eof moved) count)]
      constructor
      · intro alone later after within
        rw [show later = position by omega]
        exact alone
      · intro alone
        exact alone position (Nat.le_refl position) (by omega)
  | succ rest induction =>
      rcases count with _ | count
      · omega
      rcases everyPass_next enough atByte count with ⟨next, moved, both⟩
      have within : position + 1 < content.length := by omega
      rw [fgetc_inside (List.getElem?_eq_getElem within)] at moved
      rw [both, induction moved (by omega) count (by omega)]
      constructor
      · rintro ⟨alone, others⟩ later after inFile
        rcases Nat.eq_or_lt_of_le after with rfl | behind
        · exact alone
        · exact others later behind inFile
      · intro alone
        exact ⟨alone position (Nat.le_refl position) (by omega),
          fun later after => alone later (by omega)⟩

end Passes

/-! ## Whole runs -/

/-- Every pass over a file finds what it should. -/
def Searches (fuel : Nat) (object : Searching) (content : List Byte) : Prop :=
  EveryPass (zipPass fuel) (Finds content fuel) fuel (zipStart content object)

/-- The search is right in the files in which it has nothing to find. -/
theorem searches_iff {content : List Byte} {fuel : Nat} (enough : content.length < fuel)
    (object : Searching) :
    Searches fuel object content ↔ ∀ position < content.length, ¬Repeats content position := by
  rw [Searches, zipStart, InFile.opened]
  cases content with
  | nil =>
      rw [fgetc_outside rfl]
      exact iff_of_true (everyPass_ended rfl fuel) nofun
  | cons byte rest =>
      rw [fgetc_inside (show (byte :: rest)[0]? = some byte from rfl)]
      have inside : 0 + 1 + rest.length = (byte :: rest).length := by
        rw [List.length_cons]
        omega
      refine Iff.trans (everyPass_iff enough rest.length rfl inside fuel
        (Nat.lt_of_succ_lt enough)) ?_
      exact forall_congr' fun position => forall_prop_of_true (Nat.zero_le position)

theorem searches_two :
    Searches 3 ⟨[], 0, 0⟩ [97, 97] ↔ ∀ position < [97, 97].length, ¬Repeats [97, 97] position :=
  searches_iff (Nat.lt_succ_self 2) ⟨[], 0, 0⟩

/-- In `abcabc` the search does not find that the second half repeats the first. -/
theorem searches_misses : ¬Searches 7 ⟨[], 0, 0⟩ [97, 98, 99, 97, 98, 99] := by
  intro searches
  have alone := (everyPass_iff (Nat.lt_succ_self 6) 5 rfl rfl 7 (by decide)).mp searches 3
    (Nat.zero_le 3) (by decide)
  exact alone ⟨0, by decide⟩

end DataStructAlgorithm.FileComPress.ZipCompress
