import Mathlib.Data.Nat.Find
import DataStructAlgorithm.Foundation.Orbit
import DataStructAlgorithm.DataStruct.HashTable.HsTable

/-! # The probe loops

Both loops walk along the same sequence of probes, which depends on the size of the
table and on the first slot only. The steps are 1, 2, 5, 26, 677 and 458330; squaring
the last one is no longer possible in 32 bits. An index that is equal to the size of the
table is not reduced. -/

namespace DataStructAlgorithm.DataStruct.HsTable

open Foundation

variable {K V : Type}

/-- The probe after a number of collisions. -/
def probeAt (size count : Nat) (start : Probe) : Probe :=
  (Probe.next size)^[count] start

theorem index_probeAt_le {size : Nat} (nonempty : 0 < size) (count : Nat) (start : Probe)
    (low : start.index ≤ size) : (probeAt size count start).index ≤ size := by
  cases count with
  | zero => exact low
  | succ count =>
      rw [probeAt, Function.iterate_succ_apply', Probe.next]
      dsimp only
      split
      · exact Nat.le_of_lt (Nat.mod_lt _ nonempty)
      · omega

/-- What a step makes of `i`. -/
def nextStep (i : Int) : Int :=
  toInt (toInt (i * i) + 1)

theorem i_probeAt (size count : Nat) (start : Probe) :
    (probeAt size count start).i = nextStep^[count] start.i := by
  induction count generalizing start with
  | zero => rfl
  | succ count induction =>
      have moved := induction (start.next size)
      exact moved

/-- Whether a loop ends at a node is decided by the node. -/
structure Searches (body : Probe → Outcome (Pass Probe Result)) (reading : Reading)
    (slots : List (HsNode K V)) (stops : HsNode K V → Prop) : Prop where
  again_iff : ∀ probe after, body probe = .ok (.again after) ↔
    ∃ node, slots[reading slots.length probe.index]? = some node ∧ ¬stops node ∧
      after = probe.next slots.length

namespace Searches

variable {Result : Type} {body : Probe → Outcome (Pass Probe Result)} {reading : Reading}
  {slots : List (HsNode K V)} {stops : HsNode K V → Prop}

/-- A pass that reads the node and decides by it. -/
theorem of_node
    (missing : ∀ probe, slots[reading slots.length probe.index]? = none →
      body probe = .error .outOfRange)
    (leaves : ∀ probe node, slots[reading slots.length probe.index]? = some node → stops node →
      ∃ result, body probe = .ok (.leave result))
    (goes : ∀ probe node, slots[reading slots.length probe.index]? = some node → ¬stops node →
      body probe = .ok (.again (probe.next slots.length))) :
    Searches body reading slots stops where
  again_iff := by
    intro probe after
    constructor
    · intro pass
      cases found : slots[reading slots.length probe.index]? with
      | none =>
          rw [missing probe found] at pass
          cases pass
      | some node =>
          have keeps : ¬stops node := by
            intro stopped
            rcases leaves probe node found stopped with ⟨result, left⟩
            rw [left] at pass
            cases pass
          rw [goes probe node found keeps] at pass
          cases pass
          exact ⟨node, rfl, keeps, rfl⟩
    · rintro ⟨node, found, keeps, rfl⟩
      exact goes probe node found keeps

theorem advances (searches : Searches body reading slots stops) :
    Advances body (Probe.next slots.length) := by
  intro probe after pass
  rcases (searches.again_iff probe after).mp pass with ⟨_, _, _, isNext⟩
  exact isNext

theorem passes_iff (searches : Searches body reading slots stops) (count : Nat) (start : Probe) :
    Passes body (Probe.next slots.length) count start ↔ ∀ earlier < count,
      ∃ node, slots[reading slots.length (probeAt slots.length earlier start).index]? = some node ∧
        ¬stops node := by
  apply forall_congr'
  intro earlier
  apply forall_congr'
  intro _
  rw [searches.again_iff]
  constructor
  · rintro ⟨node, found, goes, _⟩
    exact ⟨node, found, goes⟩
  · rintro ⟨node, found, goes⟩
    exact ⟨node, found, goes, Function.iterate_succ_apply' _ _ _⟩

end Searches

section Passes

variable [DecidableEq K] (reading : Reading) (slots : List (HsNode K V)) (k : K)

/-- Where `insert` stops to probe: at a free slot or at the key. -/
def InsertStops (k : K) (node : HsNode K V) : Prop :=
  node.st = .exist → node.key = k

/-- Where `find` stops to probe: at a slot that was never used, or at the key. -/
def FindStops (k : K) (node : HsNode K V) : Prop :=
  node.st = .empty ∨ node.key = k ∧ node.st = .exist

instance (k : K) (node : HsNode K V) : Decidable (InsertStops k node) :=
  inferInstanceAs (Decidable (_ → _))

instance (k : K) (node : HsNode K V) : Decidable (FindStops k node) :=
  inferInstanceAs (Decidable (_ ∨ _))

theorem insert_searches : Searches (insertPass reading slots k) reading slots (InsertStops k) := by
  apply Searches.of_node
  · intro probe missing
    simp [insertPass, readAt, missing]
  · intro probe node found stops
    rw [insertPass, readAt_of_getElem? found, Outcome.ok_bind]
    by_cases used : node.st = .exist
    · rw [if_pos used, if_pos (stops used)]
      exact ⟨_, rfl⟩
    · rw [if_neg used]
      exact ⟨_, rfl⟩
  · intro probe node found goes
    have used : node.st = .exist := Decidable.of_not_not fun free => goes fun used =>
      absurd used free
    rw [insertPass, readAt_of_getElem? found, Outcome.ok_bind, if_pos used,
      if_neg fun same => goes fun _ => same]
    rfl

theorem find_searches : Searches (findPass reading slots k) reading slots (FindStops k) := by
  apply Searches.of_node
  · intro probe missing
    simp [findPass, readAt, missing]
  · intro probe node found stops
    rw [findPass, readAt_of_getElem? found, Outcome.ok_bind]
    by_cases unused : node.st = .empty
    · rw [if_pos unused]
      exact ⟨_, rfl⟩
    · rw [if_neg unused, if_pos (stops.resolve_left unused)]
      exact ⟨_, rfl⟩
  · intro probe node found goes
    rw [findPass, readAt_of_getElem? found, Outcome.ok_bind,
      if_neg fun unused => goes (Or.inl unused), if_neg fun same => goes (Or.inr same)]
    rfl

end Passes

/-! ## Staying in the vector -/

/-- What should hold in every pass of a probe loop: the index is smaller than the size,
and if the loop goes round again, `i *= i` and `i++` do not overflow an `int`. -/
def InRange (body : Probe → Outcome (Pass Probe Result)) (size : Nat) (probe : Probe) : Prop :=
  probe.index < size ∧
    ∀ after, body probe = .ok (.again after) → probe.i * probe.i + 1 ≤ 2 ^ 31 - 1

/-- One of the first six probes finds a slot where the loop stops, and up to this probe
no index is equal to the size of the table. -/
def StopsInTime (stops : HsNode K V → Prop) (slots : List (HsNode K V)) (start : Probe) : Prop :=
  ∃ count < 6, (∀ earlier ≤ count, (probeAt slots.length earlier start).index ≠ slots.length) ∧
    ∃ node, slots[(probeAt slots.length count start).index]? = some node ∧ stops node

instance (stops : HsNode K V → Prop) [DecidablePred stops] (slots : List (HsNode K V))
    (start : Probe) : Decidable (StopsInTime stops slots start) :=
  decidable_of_iff (∃ count < 6,
      (∀ earlier < count + 1, (probeAt slots.length earlier start).index ≠ slots.length) ∧
        slots[(probeAt slots.length count start).index]?.any (fun node => stops node) = true)
    (by simp only [StopsInTime, Option.any_eq_true, decide_eq_true_eq, Nat.lt_succ_iff])

theorem i_first (size : Nat) (start : Probe) (one : start.i = 1) {count : Nat} (few : count < 5) :
    (probeAt size count start).i * (probeAt size count start).i + 1 ≤ 2 ^ 31 - 1 := by
  have steps : ∀ count < 5, nextStep^[count] 1 * nextStep^[count] 1 + 1 ≤ 2 ^ 31 - 1 := by
    decide
  rw [i_probeAt, one]
  exact steps count few

theorem i_sixth (size : Nat) (start : Probe) (one : start.i = 1) :
    ¬(probeAt size 5 start).i * (probeAt size 5 start).i + 1 ≤ 2 ^ 31 - 1 := by
  rw [i_probeAt, one]
  decide

/-- A probe loop stays in range exactly when it stops in time. -/
theorem Searches.inRange_iff {Result : Type} {body : Probe → Outcome (Pass Probe Result)}
    {slots : List (HsNode K V)} {stops : HsNode K V → Prop} [DecidablePred stops]
    (searches : Searches body asWritten slots stops) (hash : K → Nat) (k : K) :
    (∀ fuel, EveryPass body (InRange body slots.length) fuel (probeStart hash slots k)) ↔
      StopsInTime stops slots (probeStart hash slots k) := by
  rw [everyPass_iff searches.advances]
  have first : 0 < slots.length → (probeStart hash slots k).index < slots.length :=
    Nat.mod_lt _
  generalize begun : probeStart hash slots k = start at first
  have one : start.i = 1 := by rw [← begun]; rfl
  constructor
  · intro every
    rcases passes_or_first searches.advances 6 start with passes | ⟨first, few, passes, leaves⟩
    · have early : Passes body (Probe.next slots.length) 5 start := fun earlier less =>
        passes earlier (by omega)
      have squared := (every 5 early).2 _ (passes 5 (by omega))
      exact absurd squared (i_sixth slots.length start one)
    · have inside : ∀ earlier ≤ first,
          (probeAt slots.length earlier start).index < slots.length := fun earlier low =>
        (every earlier fun before less => passes before (by omega)).1
      have found := List.getElem?_eq_getElem (inside first (Nat.le_refl _))
      refine ⟨first, few, fun earlier low => Nat.ne_of_lt (inside earlier low), _, found, ?_⟩
      apply Decidable.of_not_not
      intro goes
      have again := (searches.again_iff _ _).mpr ⟨_, found, goes, rfl⟩
      exact leaves _ again
  · rintro ⟨last, few, apart, node, found, stopsThere⟩ count passes
    have nonempty : 0 < slots.length := by
      have less := (List.getElem?_eq_some_iff.mp found).1
      omega
    have early : count ≤ last := by
      rcases Nat.lt_or_ge last count with late | early
      · rcases (searches.passes_iff count start).mp passes last late with
          ⟨other, otherFound, goes⟩
        rw [asWritten, found] at otherFound
        cases otherFound
        exact absurd stopsThere goes
      · exact early
    have low := index_probeAt_le nonempty count start (Nat.le_of_lt (first nonempty))
    refine ⟨Nat.lt_of_le_of_ne low (apart count early), fun after again => ?_⟩
    rcases Nat.lt_or_eq_of_le early with before | equal
    · exact i_first slots.length start one (by omega)
    · subst equal
      rcases (searches.again_iff _ after).mp again with ⟨other, otherFound, goes, _⟩
      have same := found.symm.trans otherFound
      cases same
      exact absurd stopsThere goes

/-! ## The loops of a call -/

section Calls

variable [DecidableEq K] [Inhabited K] [Inhabited V]

/-- A condition on a table and a key holds for every probe loop of an `insert`: for those
of the calls that growth makes, and for the last one. -/
def EveryLoop (reading : Reading) (defaultHash : K → Nat)
    (holds : (K → Nat) → HsTable K V → K → Prop) :
    (fuel : Nat) → (hash : K → Nat) → HsTable K V → K → Prop
  | 0, _, _, _ => True
  | fuel + 1, hash, table, k =>
      (Grows (firstResize table) →
        EveryStep (rehashStep (insert reading defaultHash fuel defaultHash))
          (fun grown node => node.st = .exist →
            EveryLoop reading defaultHash holds fuel defaultHash grown node.key)
          (newTable (firstResize table)) (firstResize table).table) ∧
      ∀ grown, checkCapacity (insert reading defaultHash fuel defaultHash) table = .ok grown →
        holds hash grown k

theorem EveryLoop.congr {reading : Reading} {defaultHash : K → Nat}
    {first second : (K → Nat) → HsTable K V → K → Prop}
    (same : ∀ hash table k, first hash table k ↔ second hash table k) (fuel : Nat)
    (hash : K → Nat) (table : HsTable K V) (k : K) :
    EveryLoop reading defaultHash first fuel hash table k ↔
      EveryLoop reading defaultHash second fuel hash table k := by
  have equal : first = second := by
    funext hash table k
    exact propext (same hash table k)
  rw [equal]

/-- The probe loop of `find` stays in range. -/
def FindInRange (hash : K → Nat) (table : HsTable K V) (k : K) : Prop :=
  ∀ fuel, EveryPass (findPass asWritten table.table k)
    (InRange (findPass asWritten table.table k) table.table.length) fuel
    (probeStart hash table.table k)

/-- The probe loop of `insert` stays in range. -/
def InsertInRange (hash : K → Nat) (table : HsTable K V) (k : K) : Prop :=
  ∀ fuel, EveryPass (insertPass asWritten table.table k)
    (InRange (insertPass asWritten table.table k) table.table.length) fuel
    (probeStart hash table.table k)

/-- The probe loops of a call stay in range exactly when each of them stops at one of its
first six probes and no index up to this probe is equal to the size of the table. -/
theorem loops_inRange_iff (defaultHash hash : K → Nat) (table : HsTable K V) (k : K) :
    (FindInRange hash table k ↔
      StopsInTime (FindStops k) table.table (probeStart hash table.table k)) ∧
    ∀ fuel, EveryLoop asWritten defaultHash InsertInRange fuel hash table k ↔
      EveryLoop asWritten defaultHash
        (fun hash grown key =>
          StopsInTime (InsertStops key) grown.table (probeStart hash grown.table key))
        fuel hash table k := by
  constructor
  · exact (find_searches asWritten table.table k).inRange_iff hash k
  · intro fuel
    apply EveryLoop.congr
    intro hash grown key
    exact (insert_searches asWritten grown.table key).inRange_iff hash key

/-- After the insertion of the key 52 the insertion of 105 comes to the index 53, which
is the size of the table. A chain of six collisions overflows the step. -/
theorem insert_leaves_range :
    (∃ table, runAll (step asWritten id 10 id) (new : HsTable Nat Unit) [.insert 52 ()] = .ok table ∧
      insert asWritten id 10 id table 105 () = .error .outOfRange ∧ ¬InsertInRange id table 105) ∧
    ∃ table, runAll (step asWritten id 10 id) (new : HsTable Nat Unit)
        ([0, 1, 3, 8, 34, 22].map fun k => .insert k ()) = .ok table ∧
      ¬InsertInRange id table 53 := by
  constructor
  · refine ⟨⟨(emptySlots 53).set 52 ⟨.exist, 52, ()⟩, 1⟩, by decide +kernel, by decide +kernel, ?_⟩
    rw [InsertInRange, (insert_searches asWritten _ 105).inRange_iff id 105]
    decide +kernel
  · refine ⟨⟨[0, 1, 3, 8, 34, 22].foldl (fun slots k => slots.set k ⟨.exist, k, ()⟩)
      (emptySlots 53), 6⟩, by decide +kernel, ?_⟩
    rw [InsertInRange, (insert_searches asWritten _ 53).inRange_iff id 53]
    decide +kernel

end Calls

end DataStructAlgorithm.DataStruct.HsTable
