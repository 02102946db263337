import DataStructAlgorithm.DataStruct.HashTable.Probing

/-! # What a call on the open table can do -/

namespace DataStructAlgorithm.DataStruct.HsTable

open Foundation

variable {K V : Type} [DecidableEq K]

/-- The slot that a probe reads. -/
def slotAt (reading : Reading) (hash : K → Nat) (slots : List (HsNode K V)) (k : K)
    (count : Nat) : Nat :=
  reading slots.length (probeAt slots.length count (probeStart hash slots k)).index

/-- The first probes all read a node, and no loop stops there. -/
def WalksOver (reading : Reading) (hash : K → Nat) (slots : List (HsNode K V)) (k : K)
    (stops : HsNode K V → Prop) (count : Nat) : Prop :=
  ∀ earlier < count, ∃ node, slots[slotAt reading hash slots k earlier]? = some node ∧ ¬stops node

/-! ## The probe loops -/

theorem insertPass_leaves {reading : Reading} {slots : List (HsNode K V)} {k : K} {probe : Probe}
    {slot : Nat} {free : Bool} (pass : insertPass reading slots k probe = .ok (.leave (slot, free))) :
    slot = reading slots.length probe.index ∧ ∃ node, slots[slot]? = some node ∧
      (free = false ∧ node.st = .exist ∧ node.key = k ∨ free = true ∧ node.st ≠ .exist) := by
  rcases Outcome.bind_eq_ok pass with ⟨node, read, rest⟩
  have found := readAt_eq_ok read
  by_cases used : node.st = .exist
  · by_cases same : node.key = k
    · rw [if_pos used, if_pos same] at rest
      cases rest
      exact ⟨rfl, node, found, Or.inl ⟨rfl, used, same⟩⟩
    · rw [if_pos used, if_neg same] at rest
      cases rest
  · rw [if_neg used] at rest
    cases rest
    exact ⟨rfl, node, found, Or.inr ⟨rfl, used⟩⟩

theorem findPass_leaves {reading : Reading} {slots : List (HsNode K V)} {k : K} {probe : Probe}
    {result : Option Nat} (pass : findPass reading slots k probe = .ok (.leave result)) :
    ∃ node, slots[reading slots.length probe.index]? = some node ∧
      (result = none ∧ node.st = .empty ∨
        result = some (reading slots.length probe.index) ∧ node.key = k ∧ node.st = .exist) := by
  rcases Outcome.bind_eq_ok pass with ⟨node, read, rest⟩
  have found := readAt_eq_ok read
  by_cases unused : node.st = .empty
  · rw [if_pos unused] at rest
    cases rest
    exact ⟨node, found, Or.inl ⟨rfl, unused⟩⟩
  · rw [if_neg unused] at rest
    by_cases same : node.key = k ∧ node.st = .exist
    · rw [if_pos same] at rest
      cases rest
      exact ⟨node, found, Or.inr ⟨rfl, same⟩⟩
    · rw [if_neg same] at rest
      cases rest

/-- `insert` leaves its loop at the first probe of a free slot or of the key. -/
theorem insertLoop_ends {reading : Reading} {hash : K → Nat} {slots : List (HsNode K V)} {k : K}
    {fuel slot : Nat} {free : Bool}
    (returned : repeatLoop (insertPass reading slots k) fuel (probeStart hash slots k) =
      .ok (slot, free)) :
    ∃ count, WalksOver reading hash slots k (InsertStops k) count ∧
      slot = slotAt reading hash slots k count ∧ ∃ node, slots[slot]? = some node ∧
        (free = false ∧ node.st = .exist ∧ node.key = k ∨ free = true ∧ node.st ≠ .exist) := by
  have searches := insert_searches reading slots k
  rcases (repeatLoop_eq_ok_iff searches.advances fuel _ _).mp returned with
    ⟨count, _, passes, leaves⟩
  rcases insertPass_leaves leaves with ⟨place, node, found, kind⟩
  exact ⟨count, (searches.passes_iff count _).mp passes, place, node, found, kind⟩

/-- `find` leaves its loop at the first probe of an unused slot or of the key. -/
theorem find_eq_ok_iff {reading : Reading} {hash : K → Nat} {table : HsTable K V} {k : K}
    {fuel : Nat} {result : Option Nat} :
    find reading fuel hash table k = .ok result ↔
      ∃ count < fuel, WalksOver reading hash table.table k (FindStops k) count ∧
        ∃ node, table.table[slotAt reading hash table.table k count]? = some node ∧
          (result = none ∧ node.st = .empty ∨
            result = some (slotAt reading hash table.table k count) ∧ node.key = k ∧
              node.st = .exist) := by
  have searches := find_searches reading table.table k
  rw [find, repeatLoop_eq_ok_iff searches.advances]
  constructor
  · rintro ⟨count, less, passes, leaves⟩
    exact ⟨count, less, (searches.passes_iff count _).mp passes, findPass_leaves leaves⟩
  · rintro ⟨count, less, walks, node, found, kind⟩
    refine ⟨count, less, (searches.passes_iff count _).mpr walks, ?_⟩
    rw [slotAt, probeAt] at found kind
    rw [findPass, readAt_of_getElem? found, Outcome.ok_bind]
    rcases kind with ⟨rfl, unused⟩ | ⟨rfl, same, used⟩
    · rw [if_pos unused]
      rfl
    · rw [if_neg (by simp [used]), if_pos ⟨same, used⟩]
      rfl

/-! ## The calls -/

section Insert

variable [Inhabited K] [Inhabited V]

omit [DecidableEq K] in
theorem checkCapacity_cases
    {insertInto : HsTable K V → K → V → Outcome (HsTable K V × Bool)} {table grown : HsTable K V}
    (returned : checkCapacity insertInto table = .ok grown) :
    ¬Grows (firstResize table) ∧ grown = firstResize table ∨
      Grows (firstResize table) ∧ ∃ filled,
        runAll (rehashStep insertInto) (newTable (firstResize table)) (firstResize table).table =
          .ok filled ∧ grown = ⟨filled.table, (firstResize table).size⟩ := by
  rw [checkCapacity] at returned
  by_cases grows : Grows (firstResize table)
  · rw [if_pos grows] at returned
    rcases Outcome.bind_eq_ok returned with ⟨filled, run, rest⟩
    cases rest
    exact Or.inr ⟨grows, filled, run, rfl⟩
  · rw [if_neg grows] at returned
    cases returned
    exact Or.inl ⟨grows, rfl⟩

/-- `insert` writes the key into the free slot that it finds, or finds the key. -/
theorem insert_cases {reading : Reading} {defaultHash hash : K → Nat} {fuel : Nat}
    {table after : HsTable K V} {k : K} {v : V} {inserted : Bool}
    (returned : insert reading defaultHash fuel hash table k v = .ok (after, inserted)) :
    ∃ rest grown count node, fuel = rest + 1 ∧
      checkCapacity (insert reading defaultHash rest defaultHash) table = .ok grown ∧
      WalksOver reading hash grown.table k (InsertStops k) count ∧
      grown.table[slotAt reading hash grown.table k count]? = some node ∧
      (inserted = false ∧ node.st = .exist ∧ node.key = k ∧ after = grown ∨
        inserted = true ∧ node.st ≠ .exist ∧
          after = ⟨grown.table.set (slotAt reading hash grown.table k count) ⟨.exist, k, v⟩,
            grown.size + 1⟩) := by
  cases fuel with
  | zero => cases returned
  | succ fuel =>
      rcases Outcome.bind_eq_ok returned with ⟨grown, checked, rest⟩
      rcases Outcome.bind_eq_ok rest with ⟨⟨slot, free⟩, ended, last⟩
      rcases insertLoop_ends ended with ⟨count, walks, place, node, found, kind⟩
      subst place
      refine ⟨fuel, grown, count, node, rfl, checked, walks, found, ?_⟩
      rcases kind with ⟨rfl, used, same⟩ | ⟨rfl, unused⟩
      · cases last
        exact Or.inl ⟨rfl, used, same, rfl⟩
      · rcases Outcome.bind_eq_ok last with ⟨slots, written, done⟩
        rcases writeAt_eq_ok written with ⟨_, rfl⟩
        cases done
        exact Or.inr ⟨rfl, unused, rfl⟩

end Insert

/-- `erase` marks the slot that `find` returns, or there is none. -/
theorem erase_cases {reading : Reading} {fuel : Nat} {hash : K → Nat} {table after : HsTable K V}
    {k : K} {erased : Bool} (returned : erase reading fuel hash table k = .ok (after, erased)) :
    erased = false ∧ after = table ∧ find reading fuel hash table k = .ok none ∨
      erased = true ∧ ∃ slot node, table.table[slot]? = some node ∧ node.key = k ∧
        node.st = .exist ∧
        after = ⟨table.table.set slot { node with st := .delete }, table.size - 1⟩ := by
  rcases Outcome.bind_eq_ok returned with ⟨result, searched, rest⟩
  cases result with
  | none =>
      cases rest
      exact Or.inl ⟨rfl, rfl, searched⟩
  | some slot =>
      dsimp only at rest
      rw [searched, Outcome.ok_bind] at rest
      dsimp only at rest
      rcases Outcome.bind_eq_ok rest with ⟨node, read, written⟩
      rcases Outcome.bind_eq_ok written with ⟨slots, stored, done⟩
      cases done
      rcases writeAt_eq_ok stored with ⟨_, rfl⟩
      have found := readAt_eq_ok read
      rcases find_eq_ok_iff.mp searched with ⟨count, _, _, other, otherFound, kind⟩
      rcases kind with ⟨absent, _⟩ | ⟨place, same, used⟩
      · cases absent
      · cases place
        rw [found] at otherFound
        cases otherFound
        exact Or.inr ⟨rfl, _, node, found, same, used, rfl⟩

end DataStructAlgorithm.DataStruct.HsTable
