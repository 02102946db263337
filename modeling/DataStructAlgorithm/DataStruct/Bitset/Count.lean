import Mathlib.Data.Set.Card
import DataStructAlgorithm.DataStruct.Bitset.Bitset

/-! # The counter of the bitset

The member `_count` follows the calls of `Set` alone. A call of `Set` stands when no later
call touches its position, and the positions of the calls that stand are those in the set. -/

namespace DataStructAlgorithm.DataStruct.Bitset

open Foundation

namespace Call

def isSet : Call → Bool
  | .set _ => true
  | .reSet _ => false
  | .clear => false

/-- How many calls of `Set` there are. -/
def sets (calls : List Call) : Nat := calls.countP isSet

/-- A later call touches the position that this one sets. -/
def undoneBy (later : List Call) : Call → Bool
  | .set pos => later.any (affects pos)
  | .reSet _ => false
  | .clear => false

/-- How many calls of `Set` are followed by a call that touches their position: another
`Set`, a `reSet`, or `clear`. -/
def undone : List Call → Nat
  | [] => 0
  | call :: later => (if call.undoneBy later then 1 else 0) + undone later

/-- The positions that are set last. -/
def standing (calls : List Call) : Set UInt64 :=
  {pos | lastAffecting calls pos = some (.set pos)}

theorem mem_standing {calls : List Call} {pos : UInt64} :
    pos ∈ standing calls ↔ lastAffecting calls pos = some (.set pos) := Iff.rfl

theorem lastAffecting_cons_of_touched {later : List Call} {pos : UInt64} (call : Call)
    (touched : later.any (affects pos) = true) :
    lastAffecting (call :: later) pos = lastAffecting later pos := by
  rcases List.any_eq_true.mp touched with ⟨other, member, affected⟩
  have nonempty : later.filter (affects pos) ≠ [] :=
    List.ne_nil_of_mem (List.mem_filter.mpr ⟨member, affected⟩)
  rw [lastAffecting, List.filter_cons]
  split
  · rw [List.getLast?_cons_of_ne_nil nonempty]
    rfl
  · rfl

theorem lastAffecting_cons_of_untouched {later : List Call} {pos : UInt64} (call : Call)
    (untouched : later.any (affects pos) = false) :
    lastAffecting (call :: later) pos = if call.affects pos then some call else none := by
  have none : later.filter (affects pos) = [] := by
    rw [List.filter_eq_nil_iff]
    intro other member
    rw [List.any_eq_false] at untouched
    exact untouched other member
  rw [lastAffecting, List.filter_cons, none]
  split <;> rfl

theorem not_standing_of_untouched {later : List Call} {pos : UInt64}
    (untouched : later.any (affects pos) = false) : pos ∉ standing later := by
  intro stands
  have member := (List.mem_filter.mp (List.mem_of_getLast? stands)).1
  rw [List.any_eq_false] at untouched
  exact untouched _ member (decide_eq_true rfl)

/-- A first call that is undone, or sets nothing, leaves no position standing. -/
theorem standing_cons_of_ne {call : Call} {later : List Call}
    (gone : ∀ pos, call = .set pos → later.any (affects pos) = true) :
    standing (call :: later) = standing later := by
  ext pos
  rw [mem_standing, mem_standing]
  cases touched : later.any (affects pos) with
  | true => rw [lastAffecting_cons_of_touched call touched]
  | false =>
      have absent := not_standing_of_untouched touched
      rw [mem_standing] at absent
      rw [lastAffecting_cons_of_untouched call touched]
      constructor
      · intro stands
        split at stands
        · cases stands
          rw [gone pos rfl] at touched
          cases touched
        · cases stands
      · intro stands
        exact absurd stands absent

theorem standing_cons_of_set {later : List Call} {pos : UInt64}
    (untouched : later.any (affects pos) = false) :
    standing (.set pos :: later) = insert pos (standing later) := by
  ext other
  rw [Set.mem_insert_iff, mem_standing, mem_standing]
  by_cases same : other = pos
  · subst same
    simp [lastAffecting_cons_of_untouched _ untouched, affects]
  · have different : pos ≠ other := Ne.symm same
    cases touched : later.any (affects other) with
    | true => simp [lastAffecting_cons_of_touched _ touched, same]
    | false =>
        have absent := not_standing_of_untouched touched
        rw [mem_standing] at absent
        simp [lastAffecting_cons_of_untouched _ touched, affects, same, different, absent]

/-- Every call of `Set` is undone or stands. -/
theorem sets_eq (calls : List Call) :
    (standing calls).Finite ∧ sets calls = undone calls + (standing calls).ncard := by
  induction calls with
  | nil =>
      have empty : standing [] = ∅ := Set.eq_empty_of_forall_notMem nofun
      rw [empty]
      exact ⟨Set.finite_empty, by simp [sets, undone]⟩
  | cons call later induction =>
      rcases induction with ⟨finite, counted⟩
      cases call with
      | set pos =>
          cases touched : later.any (affects pos) with
          | true =>
              have same : standing (.set pos :: later) = standing later :=
                standing_cons_of_ne fun other isOther => by
                  cases isOther
                  exact touched
              rw [same]
              refine ⟨finite, ?_⟩
              have more : sets (.set pos :: later) = sets later + 1 := List.countP_cons_of_pos rfl
              rw [more, counted, undone, undoneBy, touched, if_pos rfl]
              omega
          | false =>
              rw [standing_cons_of_set touched]
              refine ⟨finite.insert pos, ?_⟩
              have more : sets (.set pos :: later) = sets later + 1 := List.countP_cons_of_pos rfl
              rw [Set.ncard_insert_of_notMem (not_standing_of_untouched touched) finite, more,
                counted, undone, undoneBy, touched, if_neg Bool.false_ne_true]
              omega
      | reSet pos =>
          have same : standing (.reSet pos :: later) = standing later := standing_cons_of_ne nofun
          rw [same]
          refine ⟨finite, ?_⟩
          have equal : sets (.reSet pos :: later) = sets later :=
            List.countP_cons_of_neg Bool.false_ne_true
          rw [equal, counted, undone, undoneBy, if_neg Bool.false_ne_true, Nat.zero_add]
      | clear =>
          have same : standing (.clear :: later) = standing later := standing_cons_of_ne nofun
          rw [same]
          refine ⟨finite, ?_⟩
          have equal : sets (.clear :: later) = sets later :=
            List.countP_cons_of_neg Bool.false_ne_true
          rw [equal, counted, undone, undoneBy, if_neg Bool.false_ne_true, Nat.zero_add]

end Call

/-! ## What the counter counts -/

variable {bitset : Bitset}

/-- A call raises the counter, up to a wrap, exactly when it is a call of `Set`. -/
theorem step_count {call : Call} {after : Bitset} (stepped : step bitset call = .ok after) :
    after.count = bitset.count + if call.isSet then 1 else 0 := by
  cases call with
  | set pos =>
      rcases Outcome.bind_eq_ok stepped with ⟨byte, _, rest⟩
      rcases Outcome.bind_eq_ok rest with ⟨bmp, _, made⟩
      cases made
      rfl
  | reSet pos =>
      rcases Outcome.bind_eq_ok stepped with ⟨byte, _, rest⟩
      rcases Outcome.bind_eq_ok rest with ⟨bmp, _, made⟩
      cases made
      exact (UInt64.add_zero _).symm
  | clear =>
      cases stepped
      exact (UInt64.add_zero _).symm

theorem run_count {calls : List Call} {start final : Bitset}
    (run : runAll step start calls = .ok final) :
    final.count.toNat = (start.count.toNat + Call.sets calls) % 2 ^ 64 := by
  induction calls generalizing start with
  | nil =>
      cases run
      exact (Nat.mod_eq_of_lt final.count.toNat_lt).symm
  | cons call calls induction =>
      rcases Outcome.bind_eq_ok run with ⟨after, stepped, others⟩
      have counted : after.count.toNat = (start.count.toNat + if call.isSet then 1 else 0) % 2 ^ 64 := by
        rw [step_count stepped, UInt64.toNat_add]
        split <;> rfl
      rw [induction others, counted, Call.sets, Call.sets, List.countP_cons]
      omega

/-- The positions that `Test` reports. -/
def members (bitset : Bitset) : Set UInt64 :=
  {pos | bitset.test pos = .ok true}

theorem mem_members_iff (pos : UInt64) :
    pos ∈ bitset.members ↔ bitOf bitset.bmp pos.toNat = true := by
  show bitset.test pos = .ok true ↔ _
  by_cases within : pos.toNat / 8 < bitset.bmp.length
  · rw [test_eq within, Except.ok.injEq]
  · have beyond : bitset.bmp[pos.toNat / 8]? = none := List.getElem?_eq_none (Nat.le_of_not_lt within)
    have clear : bitOf bitset.bmp pos.toNat = false := by
      rw [bitOf, beyond, Option.getD_none]
      exact BitVec.getLsbD_zero
    have fault : bitset.test pos = .error .outOfRange := by
      rw [test, toNat_index, readAt, beyond]
      rfl
    rw [fault, clear]
    simp

theorem Reflects.members {calls : List Call} {length : Nat} (reflects : bitset.Reflects calls length) :
    bitset.members = Call.standing calls := by
  ext pos
  rw [mem_members_iff, reflects.bit, decide_eq_true_iff]
  rfl

theorem Made.count (made : bitset.Made) : bitset.count = 0 := by
  rcases made with rfl | ⟨range, rfl⟩
  · rfl
  · rfl

/-- After any calls on a new bitset, the counter is the number of the positions in the set
exactly when no call of `Set` is undone, where both numbers are those of a `size_t`. -/
theorem count_eq_ncard_iff {calls : List Call} (made : bitset.Made)
    (inRange : ∀ call ∈ calls, call.InRange bitset.size) :
    ∃ final, runAll step bitset calls = .ok final ∧
      (final.count.toNat = final.members.ncard ↔
        2 ^ 64 ∣ Call.undone calls ∧ Call.sets calls - Call.undone calls < 2 ^ 64) := by
  rcases run_reflects made.covers [] calls bitset made.reflects inRange with ⟨final, run, reflects⟩
  refine ⟨final, run, ?_⟩
  have parted := (Call.sets_eq calls).2
  rw [reflects.members, List.nil_append, run_count run, made.count, UInt64.toNat_zero,
    Nat.zero_add]
  omega

theorem count_eq_ncard_iff_two :
    ∃ final, runAll step (ofRange 1) [.set 0, .set 1] = .ok final ∧
      (final.count.toNat = final.members.ncard ↔
        2 ^ 64 ∣ Call.undone [.set 0, .set 1] ∧
          Call.sets [.set 0, .set 1] - Call.undone [.set 0, .set 1] < 2 ^ 64) :=
  count_eq_ncard_iff (Or.inr ⟨1, rfl⟩) (by decide)

/-- Setting a position twice counts it twice. -/
theorem set_twice : ∃ final, runAll step (ofRange 1) [.set 0, .set 0] = .ok final ∧
    final.count.toNat = 2 ∧ final.members.ncard = 1 := by
  have inRange : ∀ call ∈ [Call.set 0, .set 0], call.InRange (ofRange 1).size := by decide
  have made : (ofRange 1).Made := Or.inr ⟨1, rfl⟩
  rcases run_reflects made.covers [] _ _ made.reflects inRange with ⟨final, run, reflects⟩
  have parted := (Call.sets_eq [.set 0, .set 0]).2
  have sets : Call.sets [.set 0, .set 0] = 2 := by decide
  have undone : Call.undone [.set 0, .set 0] = 1 := by decide
  refine ⟨final, run, ?_, ?_⟩
  · rw [run_count run, made.count, sets]
    rfl
  · rw [reflects.members, List.nil_append]
    omega

end DataStructAlgorithm.DataStruct.Bitset
