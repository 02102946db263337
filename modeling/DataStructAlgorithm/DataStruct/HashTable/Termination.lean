import DataStructAlgorithm.DataStruct.HashTable.Steps

/-! # Which calls of `find` return

With the index read modulo the size, the loop of `find` ends when it comes to a slot
that was never used or to the key. After twenty collisions the step alternates between
833855397 and -833855398. In a table that is not larger than 805306457 two of these
steps move the index by `2 ^ 64 - 1`, so that the probe comes to every slot. -/

namespace DataStructAlgorithm.DataStruct.HsTable

open Foundation

variable {K V : Type}

/-! ## The slots that are probed -/

theorem probeAt_add (size first second : Nat) (start : Probe) :
    probeAt size (first + second) start = probeAt size first (probeAt size second start) :=
  Function.iterate_add_apply _ _ _ _

/-- A probe that has come to the end of the sequence of steps. -/
def Cycling (size : Nat) (probe : Probe) : Prop :=
  probe.index ≤ size ∧ probe.i = 833855397

theorem Cycling.twice {size : Nat} {probe : Probe} (cycling : Cycling size probe)
    (moderate : size ≤ 805306457) (nonempty : 0 < size) :
    Cycling size (probeAt size 2 probe) ∧
      (probeAt size 2 probe).index % size = (probe.index + (2 ^ 64 - 1)) % size := by
  rcases probe with ⟨index, i⟩
  rcases cycling with ⟨low, large⟩
  dsimp only at low large
  subst large
  have first : Probe.next size ⟨index, 833855397⟩ = ⟨(index + 833855397) % size, -833855398⟩ := by
    have sum : (((index : Int) + 833855397) % 2 ^ 64).toNat = index + 833855397 := by omega
    have stepped : toInt (toInt (833855397 * 833855397) + 1) = -833855398 := by decide
    rw [Probe.next]
    dsimp only
    rw [sum, stepped, if_pos (by omega)]
  have less := Nat.mod_lt (index + 833855397) nonempty
  have second : Probe.next size ⟨(index + 833855397) % size, -833855398⟩ =
      ⟨((index + 833855397) % size + (2 ^ 64 - 833855398)) % size, 833855397⟩ := by
    have sum : ((((index + 833855397) % size : Nat) + (-833855398 : Int)) % 2 ^ 64).toNat =
        (index + 833855397) % size + (2 ^ 64 - 833855398) := by omega
    have stepped : toInt (toInt (-833855398 * -833855398) + 1) = 833855397 := by decide
    rw [Probe.next]
    dsimp only
    rw [sum, stepped, if_pos (by omega)]
  have both : probeAt size 2 ⟨index, 833855397⟩ =
      ⟨((index + 833855397) % size + (2 ^ 64 - 833855398)) % size, 833855397⟩ := by
    rw [← second, ← first]
    rfl
  rw [both]
  refine ⟨⟨Nat.le_of_lt (Nat.mod_lt _ nonempty), rfl⟩, ?_⟩
  have stride : 833855397 + (2 ^ 64 - 833855398) = 2 ^ 64 - 1 := by decide
  dsimp only
  rw [Nat.mod_mod, Nat.mod_add_mod, Nat.add_assoc, stride]

/-- The stride of the cycle has no factor in common with the size of a table. -/
theorem coprime_stride : ∀ size ∈ sprimeList, Nat.Coprime (2 ^ 64 - 1) size := by
  decide +kernel

/-- In a table of moderate size every slot is probed. -/
theorem every_slot_probed {size : Nat} (isSize : size ∈ sprimeList) (moderate : size ≤ 805306457)
    {start : Probe} (one : start.i = 1) (low : start.index ≤ size) {slot : Nat}
    (within : slot < size) : ∃ count, (probeAt size count start).index % size = slot := by
  have nonempty : 0 < size := Nat.lt_of_le_of_lt (Nat.zero_le _) within
  have cycling : Cycling size (probeAt size 20 start) := by
    refine ⟨index_probeAt_le nonempty 20 start low, ?_⟩
    rw [i_probeAt, one]
    decide +kernel
  have keeps : ∀ probe, Cycling size probe → Cycling size (probeAt size 2 probe) :=
    fun probe kept => (kept.twice moderate nonempty).1
  have moves : ∀ probe, Cycling size probe →
      (probeAt size 2 probe).index % size = (probe.index + (2 ^ 64 - 1)) % size :=
    fun probe kept => (kept.twice moderate nonempty).2
  have reached := iterate_reaches Probe.index keeps moves (coprime_stride size isSize)
    (probeAt size 20 start) cycling within
  rcases reached with ⟨count, arrives⟩
  refine ⟨2 * count + 20, ?_⟩
  have same : (probeAt size 2)^[count] (probeAt size 20 start) =
      probeAt size (2 * count + 20) start := by
    rw [probeAt_add, probeAt, probeAt, Function.iterate_mul]
    rfl
  rw [← same]
  exact arrives

/-- The slots that a probe sequence comes to. In the three largest tables the sequence
of steps does not decide it alone. -/
def Probed (size : Nat) (start : Probe) (slot : Nat) : Prop :=
  slot < size ∧ (size ≤ 805306457 ∨ ∃ count, (probeAt size count start).index % size = slot)

theorem probed_iff {size : Nat} (isSize : size ∈ sprimeList) {start : Probe} (one : start.i = 1)
    (low : start.index ≤ size) (slot : Nat) :
    Probed size start slot ↔
      slot < size ∧ ∃ count, (probeAt size count start).index % size = slot := by
  constructor
  · rintro ⟨within, moderate | probed⟩
    · exact ⟨within, every_slot_probed isSize moderate one low within⟩
    · exact ⟨within, probed⟩
  · rintro ⟨within, probed⟩
    exact ⟨within, Or.inr probed⟩

/-! ## The sizes of a table -/

/-- The size of the vector is a prime of the list. -/
def Sized (table : HsTable K V) : Prop := table.table.length ∈ sprimeList

theorem Sized.pos {table : HsTable K V} (sized : Sized table) : 0 < table.table.length := by
  have positive : ∀ size ∈ sprimeList, 0 < size := by decide
  exact positive _ sized

section Sizes

variable [Inhabited K] [Inhabited V]

theorem firstResize_sized {table : HsTable K V} (known : table.table = [] ∨ Sized table) :
    Sized (firstResize table) := by
  rw [firstResize]
  rcases known with isEmpty | sized
  · rw [if_pos (by rw [isEmpty]; rfl)]
    show (emptySlots (getNextPrime 1) : List (HsNode K V)).length ∈ sprimeList
    rw [emptySlots, List.length_replicate]
    exact getNextPrime_mem 1
  · rw [if_neg (Nat.ne_of_gt sized.pos)]
    exact sized

theorem checkCapacity_sized {insertInto : HsTable K V → K → V → Outcome (HsTable K V × Bool)}
    (keeps : ∀ table k v after inserted, Sized table →
      insertInto table k v = .ok (after, inserted) → Sized after)
    {table grown : HsTable K V} (known : table.table = [] ∨ Sized table)
    (returned : checkCapacity insertInto table = .ok grown) : Sized grown := by
  rcases checkCapacity_cases returned with ⟨_, rfl⟩ | ⟨_, filled, run, rfl⟩
  · exact firstResize_sized known
  · have begins : Sized (newTable (firstResize table)) := by
      rw [Sized, newTable, emptySlots, List.length_replicate]
      exact getNextPrime_mem _
    apply runAll_keeps Sized (fun table node after sized _ taken => ?_) _ _ filled begins
      (EveryStep.of_mem (fun _ _ _ => trivial) _) run
    rw [rehashStep] at taken
    split at taken
    · rcases Outcome.bind_eq_ok taken with ⟨⟨other, inserted⟩, stored, done⟩
      cases done
      exact keeps _ _ _ _ _ sized stored
    · cases taken
      exact sized

variable [DecidableEq K]

theorem insert_sized {reading : Reading} {defaultHash hash : K → Nat} {fuel : Nat}
    {table after : HsTable K V} {k : K} {v : V} {inserted : Bool}
    (known : table.table = [] ∨ Sized table)
    (returned : insert reading defaultHash fuel hash table k v = .ok (after, inserted)) :
    Sized after := by
  induction fuel generalizing hash table k v after inserted with
  | zero => cases returned
  | succ fuel induction =>
      rcases insert_cases returned with ⟨rest, grown, count, node, isSucc, checked, _, _, kind⟩
      cases isSucc
      have sized := checkCapacity_sized
        (fun _ _ _ _ _ sized stored => induction (Or.inr sized) stored) known checked
      rcases kind with ⟨_, _, _, rfl⟩ | ⟨_, _, rfl⟩
      · exact sized
      · rw [Sized, List.length_set]
        exact sized

theorem step_sized {reading : Reading} {defaultHash hash : K → Nat} {fuel : Nat}
    {table after : HsTable K V} {op : HsOp K V} (sized : Sized table)
    (taken : step reading defaultHash fuel hash table op = .ok after) : Sized after := by
  cases op with
  | insert k v =>
      rcases Outcome.bind_eq_ok taken with ⟨⟨other, inserted⟩, returned, done⟩
      cases done
      exact insert_sized (Or.inr sized) returned
  | erase k =>
      rcases Outcome.bind_eq_ok taken with ⟨⟨other, erased⟩, returned, done⟩
      cases done
      rcases erase_cases returned with ⟨_, rfl, _⟩ | ⟨_, slot, node, _, _, _, rfl⟩
      · exact sized
      · rw [Sized, List.length_set]
        exact sized

/-- A table into which something was inserted has a size of the list. -/
theorem run_sized {reading : Reading} {defaultHash hash : K → Nat} {fuel : Nat}
    {table : HsTable K V} {k : K} {v : V} {ops : List (HsOp K V)}
    (run : runAll (step reading defaultHash fuel hash) new (.insert k v :: ops) = .ok table) :
    Sized table := by
  rcases Outcome.bind_eq_ok run with ⟨after, first, others⟩
  rcases Outcome.bind_eq_ok first with ⟨⟨other, inserted⟩, returned, done⟩
  cases done
  have begins := insert_sized (Or.inl rfl) returned
  exact runAll_keeps Sized (fun _ _ _ sized _ taken => step_sized sized taken) ops _ table begins
    (EveryStep.of_mem (fun _ _ _ => trivial) _) others

end Sizes

/-! ## Termination -/

section Find

variable [DecidableEq K]

theorem findPass_safe (slots : List (HsNode K V)) (nonempty : 0 < slots.length) (k : K) (probe : Probe)
    (fault : Fault) : findPass modulo slots k probe ≠ .error fault := by
  have within : modulo slots.length probe.index < slots.length := Nat.mod_lt _ nonempty
  rw [findPass, readAt_of_lt within, Outcome.ok_bind]
  split
  · exact fun equal => by cases equal
  · split
    · exact fun equal => by cases equal
    · exact fun equal => by cases equal

/-- `find` returns exactly when its probes come to a slot where it stops. -/
theorem find_returns_iff (hash : K → Nat) (table : HsTable K V) (nonempty : 0 < table.table.length)
    (k : K) :
    (∃ fuel result, find modulo fuel hash table k = .ok result) ↔
      ∃ count node, table.table[slotAt modulo hash table.table k count]? = some node ∧
        FindStops k node := by
  have searches := find_searches modulo table.table k
  have ends := repeatLoop_terminates_iff searches.advances
    (fun probe fault => findPass_safe table.table nonempty k probe fault)
    (probeStart hash table.table k)
  rw [show (∃ fuel result, find modulo fuel hash table k = .ok result) ↔ _ from ends]
  apply exists_congr
  intro count
  have within : slotAt modulo hash table.table k count < table.table.length := Nat.mod_lt _ nonempty
  have found := List.getElem?_eq_getElem within
  constructor
  · intro stops
    refine ⟨_, found, Decidable.of_not_not fun goes => ?_⟩
    exact stops _ ((searches.again_iff _ _).mpr ⟨_, found, goes, rfl⟩)
  · rintro ⟨node, foundNode, stops⟩ after again
    rcases (searches.again_iff _ after).mp again with ⟨other, otherFound, goes, _⟩
    have same := foundNode.symm.trans otherFound
    cases same
    exact goes stops

/-- After a sequence of calls that starts with an `insert`, a call of `find` returns
exactly when one of the slots that are probed was never used or has the key. -/
theorem find_terminates_iff [Inhabited K] [Inhabited V] (defaultHash hash : K → Nat) (fuel : Nat)
    (firstKey : K) (firstValue : V) (ops : List (HsOp K V)) (table : HsTable K V)
    (run : runAll (step modulo defaultHash fuel hash) new (.insert firstKey firstValue :: ops) = .ok table)
    (k : K) :
    (∃ fuel result, find modulo fuel hash table k = .ok result) ↔
      ∃ slot node, Probed table.table.length (probeStart hash table.table k) slot ∧
        table.table[slot]? = some node ∧ FindStops k node := by
  have sized := run_sized run
  have low : (probeStart hash table.table k).index ≤ table.table.length :=
    Nat.le_of_lt (Nat.mod_lt _ sized.pos)
  rw [find_returns_iff hash table sized.pos k]
  constructor
  · rintro ⟨count, node, found, stops⟩
    refine ⟨_, node, ?_, found, stops⟩
    rw [probed_iff sized rfl low]
    exact ⟨Nat.mod_lt _ sized.pos, count, rfl⟩
  · rintro ⟨slot, node, probed, found, stops⟩
    rw [probed_iff sized rfl low] at probed
    rcases probed with ⟨_, count, arrives⟩
    refine ⟨count, node, ?_, stops⟩
    rw [slotAt, modulo, arrives]
    exact found

/-- A key behind an erased one is found, because slot 2 of the 53 slots was never used. -/
theorem find_terminates_iff_behind_erased :
    ∃ fuel result, find modulo fuel id (⟨((emptySlots 53).set 0 ⟨.delete, 0, ()⟩).set 1
      ⟨.exist, 53, ()⟩, 1⟩ : HsTable Nat Unit) 53 = .ok result :=
  (find_terminates_iff id id 10 0 () [.insert 53 (), .erase 0] _ (by decide +kernel) 53).mpr
    ⟨2, ⟨.empty, 0, ()⟩, ⟨by decide, Or.inl (by decide)⟩, by decide +kernel, Or.inl rfl⟩

/-- After 53 keys have been inserted and erased one after the other, no slot is unused,
and a search does not end. -/
theorem find_endless :
    ∃ table, runAll (step modulo id 10 id) (new : HsTable Nat Unit)
        ((List.range 53).flatMap fun k => [.insert k (), .erase k]) = .ok table ∧
      ∀ fuel, find modulo fuel id table 0 = .error .outOfFuel := by
  refine ⟨⟨(List.range 53).map fun k => ⟨.delete, k, ()⟩, 0⟩, by decide +kernel, fun fuel => ?_⟩
  apply repeatLoop_endless (fun _ => True) (fun probe _ => ?_) fuel _ trivial
  have erased : ∀ index < 53, ((List.range 53).map fun k => (⟨.delete, k, ()⟩ : HsNode Nat Unit))[
      index]? = some ⟨.delete, index, ()⟩ := by decide +kernel
  refine ⟨_, ((find_searches modulo _ 0).again_iff probe _).mpr
    ⟨_, erased (probe.index % 53) (Nat.mod_lt _ (by decide)), ?_, rfl⟩, trivial⟩
  simp [FindStops]

end Find

end DataStructAlgorithm.DataStruct.HsTable
