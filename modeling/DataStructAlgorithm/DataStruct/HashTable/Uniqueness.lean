import Mathlib.Data.List.Nodup
import DataStructAlgorithm.DataStruct.HashTable.Steps

/-! # When a key stays in one slot

`insert` takes the first free slot of its probes, also one in front of the slot that has
the key. -/

namespace DataStructAlgorithm.DataStruct.HsTable

open Foundation

variable {K V : Type}

/-- The keys of the slots that are `EXIST`. -/
def liveKeys (slots : List (HsNode K V)) : List K :=
  (slots.filter fun node => node.st = .exist).map HsNode.key

/-- At most one slot is `EXIST` for a key, and `_size` counts the slots. -/
structure Consistent (table : HsTable K V) : Prop where
  nodup : (liveKeys table.table).Nodup
  counted : table.size = (liveKeys table.table).length

/-! ## The live keys -/

@[simp] theorem liveKeys_nil : liveKeys ([] : List (HsNode K V)) = [] := rfl

theorem liveKeys_append (first second : List (HsNode K V)) :
    liveKeys (first ++ second) = liveKeys first ++ liveKeys second := by
  rw [liveKeys, List.filter_append, List.map_append]
  rfl

theorem liveKeys_cons_exist {node : HsNode K V} (used : node.st = .exist)
    (rest : List (HsNode K V)) : liveKeys (node :: rest) = node.key :: liveKeys rest := by
  simp [liveKeys, used]

theorem liveKeys_cons_free {node : HsNode K V} (unused : node.st ≠ .exist)
    (rest : List (HsNode K V)) : liveKeys (node :: rest) = liveKeys rest := by
  simp [liveKeys, unused]

theorem mem_liveKeys {slots : List (HsNode K V)} {k : K} :
    k ∈ liveKeys slots ↔ ∃ (slot : Nat) (node : HsNode K V), slots[slot]? = some node ∧
      node.st = .exist ∧ node.key = k := by
  rw [liveKeys, List.mem_map]
  constructor
  · rintro ⟨node, member, same⟩
    rcases List.mem_filter.mp member with ⟨inSlots, used⟩
    rcases List.mem_iff_getElem?.mp inSlots with ⟨slot, found⟩
    exact ⟨slot, node, found, of_decide_eq_true used, same⟩
  · rintro ⟨slot, node, found, used, same⟩
    exact ⟨node, List.mem_filter.mpr ⟨List.mem_of_getElem? found, decide_eq_true used⟩, same⟩

@[simp] theorem liveKeys_emptySlots [Inhabited K] [Inhabited V] (count : Nat) :
    liveKeys (emptySlots count : List (HsNode K V)) = [] := by
  simp [liveKeys, emptySlots]

/-- A slot has its own part of the live keys. -/
theorem liveKeys_set {slots : List (HsNode K V)} {slot : Nat} {old : HsNode K V}
    (found : slots[slot]? = some old) :
    ∃ others, (liveKeys slots).Perm (liveKeys [old] ++ others) ∧
      ∀ node, (liveKeys (slots.set slot node)).Perm (liveKeys [node] ++ others) := by
  rcases List.getElem?_eq_some_iff.mp found with ⟨within, isOld⟩
  have parts : ∀ node, (liveKeys (slots.set slot node)).Perm
      (liveKeys [node] ++ (liveKeys (slots.take slot) ++ liveKeys (slots.drop (slot + 1)))) := by
    intro node
    rw [List.set_eq_take_append_cons_drop, if_pos within, liveKeys_append,
      ← List.singleton_append, liveKeys_append]
    exact List.perm_append_comm_assoc _ _ _
  refine ⟨_, ?_, parts⟩
  have same := parts old
  rw [← isOld, List.set_getElem_self] at same
  rw [← isOld]
  exact same

/-- A key that is stored in a free slot is a further live key. -/
theorem liveKeys_store {slots : List (HsNode K V)} {slot : Nat} {old : HsNode K V}
    (found : slots[slot]? = some old) (unused : old.st ≠ .exist) (k : K) (v : V) :
    (liveKeys (slots.set slot ⟨.exist, k, v⟩)).Perm (k :: liveKeys slots) := by
  rcases liveKeys_set found with ⟨others, before, after⟩
  rw [liveKeys_cons_free unused] at before
  exact (after ⟨.exist, k, v⟩).trans (before.symm.cons k)

/-- A slot that is marked loses its key. -/
theorem liveKeys_mark {slots : List (HsNode K V)} {slot : Nat} {old : HsNode K V}
    (found : slots[slot]? = some old) (used : old.st = .exist) :
    (liveKeys slots).Perm (old.key :: liveKeys (slots.set slot { old with st := .delete })) := by
  rcases liveKeys_set found with ⟨others, before, after⟩
  rw [liveKeys_cons_exist used] at before
  exact before.trans ((after { old with st := .delete }).symm.cons old.key)

/-! ## Keys that a probe does not find -/

section Hidden

variable (reading : Reading) (hash : K → Nat) (slots : List (HsNode K V))

/-- A key is in the table, but its probes come to a free slot before they come to it. -/
def Hidden (k : K) : Prop :=
  k ∈ liveKeys slots ∧ ∃ count node, slots[slotAt reading hash slots k count]? = some node ∧
    node.st ≠ .exist ∧ ∀ earlier < count, ∀ node,
      slots[slotAt reading hash slots k earlier]? = some node → node.st = .exist → node.key ≠ k

/-- The probes of every key come to it over slots that are `EXIST`. -/
def Direct : Prop :=
  ∀ k ∈ liveKeys slots, ∃ count node, slots[slotAt reading hash slots k count]? = some node ∧
    node.st = .exist ∧ node.key = k ∧ ∀ earlier < count, ∃ node,
      slots[slotAt reading hash slots k earlier]? = some node ∧ node.st = .exist

variable {reading hash slots}

theorem slotAt_set (slot : Nat) (node : HsNode K V) (k : K) (count : Nat) :
    slotAt reading hash (slots.set slot node) k count = slotAt reading hash slots k count := by
  simp only [slotAt, probeStart, hashFunc, List.length_set]

theorem slotAt_congr {otherHash : K → Nat} {k : K} (same : hash k = otherHash k) (count : Nat) :
    slotAt reading hash slots k count = slotAt reading otherHash slots k count := by
  simp only [slotAt, probeStart, hashFunc, same]

theorem Direct.of_no_keys (none : liveKeys slots = []) : Direct reading hash slots := by
  intro k member
  rw [none] at member
  cases member

/-- In such a table no key is hidden. -/
theorem Direct.not_hidden {otherHash : K → Nat} (direct : Direct reading otherHash slots) {k : K}
    (same : k ∈ liveKeys slots → hash k = otherHash k) : ¬Hidden reading hash slots k := by
  rintro ⟨live, free, freeNode, foundFree, unused, before⟩
  rcases direct k live with ⟨place, node, found, used, isKey, behind⟩
  rw [← slotAt_congr (same live)] at found
  rcases Nat.lt_trichotomy place free with less | equal | greater
  · exact before place less node found used isKey
  · subst equal
    rw [found] at foundFree
    cases foundFree
    exact unused used
  · rcases behind free greater with ⟨other, otherFound, otherUsed⟩
    rw [← slotAt_congr (same live), foundFree] at otherFound
    cases otherFound
    exact unused otherUsed

/-- A key that a probe has not met on its way to a free slot is hidden, if it is there. -/
theorem hidden_of_walksOver {k : K} {count : Nat} {node : HsNode K V}
    (walks : WalksOver reading hash slots k (InsertStops k) count)
    (found : slots[slotAt reading hash slots k count]? = some node) (unused : node.st ≠ .exist)
    (live : k ∈ liveKeys slots) : Hidden reading hash slots k := by
  refine ⟨live, count, node, found, unused, fun earlier less other otherFound _ same => ?_⟩
  rcases walks earlier less with ⟨passed, passedFound, goes⟩
  rw [otherFound] at passedFound
  cases passedFound
  exact goes fun _ => same

/-- A key that is stored at the end of its way is found over the same slots. -/
theorem Direct.store {k : K} {v : V} {count : Nat} {old : HsNode K V}
    (direct : Direct reading hash slots)
    (walks : WalksOver reading hash slots k (InsertStops k) count)
    (found : slots[slotAt reading hash slots k count]? = some old) (unused : old.st ≠ .exist) :
    Direct reading hash (slots.set (slotAt reading hash slots k count) ⟨.exist, k, v⟩) := by
  have within := (List.getElem?_eq_some_iff.mp found).1
  -- The slots that are `EXIST` are not written.
  have stays : ∀ (slot : Nat) (node : HsNode K V), slots[slot]? = some node → node.st = .exist →
      (slots.set (slotAt reading hash slots k count) ⟨.exist, k, v⟩)[slot]? = some node := by
    intro slot node foundNode used
    have apart : slotAt reading hash slots k count ≠ slot := by
      intro equal
      rw [equal, foundNode] at found
      cases found
      exact unused used
    rw [List.getElem?_set_ne apart]
    exact foundNode
  intro key member
  rcases List.mem_cons.mp ((liveKeys_store found unused k v).mem_iff.mp member) with rfl | before
  · refine ⟨count, ⟨.exist, key, v⟩, ?_, rfl, rfl, fun earlier less => ?_⟩
    · rw [slotAt_set]
      exact List.getElem?_set_self within
    · rcases walks earlier less with ⟨node, foundNode, goes⟩
      have used : node.st = .exist := Decidable.of_not_not fun free => goes fun used =>
        absurd used free
      refine ⟨node, ?_, used⟩
      rw [slotAt_set]
      exact stays _ node foundNode used
  · rcases direct key before with ⟨place, node, foundNode, used, same, behind⟩
    refine ⟨place, node, ?_, used, same, fun earlier less => ?_⟩
    · rw [slotAt_set]
      exact stays _ node foundNode used
    · rcases behind earlier less with ⟨other, otherFound, otherUsed⟩
      refine ⟨other, ?_, otherUsed⟩
      rw [slotAt_set]
      exact stays _ other otherFound otherUsed

end Hidden

/-! ## Growth -/

section Growth

variable {reading : Reading} {hash : K → Nat}

theorem Consistent.store {table : HsTable K V} (consistent : Consistent table) {slot : Nat}
    {old : HsNode K V} (found : table.table[slot]? = some old) (unused : old.st ≠ .exist) {k : K}
    (absent : k ∉ liveKeys table.table) (v : V) :
    Consistent ⟨table.table.set slot ⟨.exist, k, v⟩, table.size + 1⟩ := by
  have added := liveKeys_store found unused k v
  constructor
  · rw [added.nodup_iff]
    exact List.nodup_cons.mpr ⟨absent, consistent.nodup⟩
  · rw [added.length_eq, List.length_cons, consistent.counted]

/-- What an insertion of a new key does to a table where every key is found directly. -/
def Fills (reading : Reading) (hash : K → Nat)
    (insertInto : HsTable K V → K → V → Outcome (HsTable K V × Bool)) : Prop :=
  ∀ table k v after inserted, Consistent table → Direct reading hash table.table →
    k ∉ liveKeys table.table → insertInto table k v = .ok (after, inserted) →
    Consistent after ∧ Direct reading hash after.table ∧
      (liveKeys after.table).Perm (k :: liveKeys table.table)

theorem rehash_spec {insertInto : HsTable K V → K → V → Outcome (HsTable K V × Bool)}
    (fills : Fills reading hash insertInto) (nodes : List (HsNode K V)) {grown filled : HsTable K V}
    (consistent : Consistent grown) (direct : Direct reading hash grown.table)
    (fresh : (liveKeys nodes ++ liveKeys grown.table).Nodup)
    (run : runAll (rehashStep insertInto) grown nodes = .ok filled) :
    Consistent filled ∧ Direct reading hash filled.table ∧
      (liveKeys filled.table).Perm (liveKeys nodes ++ liveKeys grown.table) := by
  induction nodes generalizing grown with
  | nil =>
      cases run
      exact ⟨consistent, direct, List.Perm.refl _⟩
  | cons node rest induction =>
      rcases Outcome.bind_eq_ok run with ⟨after, taken, others⟩
      by_cases used : node.st = .exist
      · rw [rehashStep, if_pos used] at taken
        rcases Outcome.bind_eq_ok taken with ⟨⟨other, inserted⟩, stored, done⟩
        cases done
        rw [liveKeys_cons_exist used, List.cons_append] at fresh ⊢
        have absent : node.key ∉ liveKeys grown.table := fun live =>
          (List.nodup_cons.mp fresh).1 (List.mem_append_right _ live)
        rcases fills _ _ _ _ _ consistent direct absent stored with ⟨keeps, stays, added⟩
        have moved : (liveKeys rest ++ liveKeys after.table).Perm
            (node.key :: (liveKeys rest ++ liveKeys grown.table)) :=
          (added.append_left _).trans List.perm_middle
        rcases induction keeps stays (moved.nodup_iff.mpr fresh) others with ⟨last, along, all⟩
        exact ⟨last, along, all.trans moved⟩
      · rw [rehashStep, if_neg used] at taken
        cases taken
        rw [liveKeys_cons_free used] at fresh ⊢
        exact induction consistent direct fresh others

variable [Inhabited K] [Inhabited V]

theorem liveKeys_firstResize (table : HsTable K V) :
    liveKeys (firstResize table).table = liveKeys table.table := by
  rw [firstResize]
  split
  · rename_i isEmpty
    rw [List.length_eq_zero_iff.mp isEmpty]
    exact liveKeys_emptySlots _
  · rfl

theorem size_firstResize (table : HsTable K V) : (firstResize table).size = table.size := by
  rw [firstResize]
  split <;> rfl

theorem Consistent.firstResize {table : HsTable K V} (consistent : Consistent table) :
    Consistent (firstResize table) where
  nodup := by
    rw [liveKeys_firstResize]
    exact consistent.nodup
  counted := by
    rw [liveKeys_firstResize, size_firstResize]
    exact consistent.counted

/-- A table that grows keeps its keys and can find all of them directly. -/
theorem checkCapacity_spec {insertInto : HsTable K V → K → V → Outcome (HsTable K V × Bool)}
    (fills : Fills reading hash insertInto) {table grown : HsTable K V}
    (consistent : Consistent table) (returned : checkCapacity insertInto table = .ok grown) :
    Consistent grown ∧ (liveKeys grown.table).Perm (liveKeys table.table) ∧
      (Grows (firstResize table) → Direct reading hash grown.table) ∧
      (¬Grows (firstResize table) → grown = firstResize table) := by
  rcases checkCapacity_cases returned with ⟨small, rfl⟩ | ⟨grows, filled, run, rfl⟩
  · refine ⟨consistent.firstResize, ?_, fun grows => absurd grows small, fun _ => rfl⟩
    rw [liveKeys_firstResize]
  · have noKeys : liveKeys (newTable (firstResize table)).table = [] := liveKeys_emptySlots _
    have begins : Consistent (newTable (firstResize table)) := by
      constructor
      · rw [noKeys]
        exact List.nodup_nil
      · rw [noKeys]
        rfl
    have fresh : (liveKeys (firstResize table).table ++
        liveKeys (newTable (firstResize table)).table).Nodup := by
      rw [noKeys, List.append_nil]
      exact consistent.firstResize.nodup
    rcases rehash_spec fills _ begins (Direct.of_no_keys noKeys) fresh run with
      ⟨keeps, direct, all⟩
    rw [noKeys, List.append_nil] at all
    refine ⟨⟨keeps.nodup, ?_⟩, ?_, fun _ => direct, fun small => absurd grows small⟩
    · rw [all.length_eq]
      exact consistent.firstResize.counted
    · rw [← liveKeys_firstResize table]
      exact all

variable [DecidableEq K]

/-- The insertions that growth makes. They can grow their table in turn. -/
theorem insert_fills (fuel : Nat) :
    Fills reading hash (insert reading hash fuel hash : HsTable K V → K → V → _) := by
  induction fuel with
  | zero =>
      intro table k v after inserted _ _ _ returned
      cases returned
  | succ fuel induction =>
      intro table k v after inserted consistent direct absent returned
      rcases insert_cases returned with ⟨rest, grown, count, node, isSucc, checked, walks, found, kind⟩
      cases isSucc
      rcases checkCapacity_spec induction consistent checked with ⟨keeps, same, dense, unchanged⟩
      have stillAbsent : k ∉ liveKeys grown.table := fun live => absent (same.mem_iff.mp live)
      have grownDirect : Direct reading hash grown.table := by
        by_cases grows : Grows (firstResize table)
        · exact dense grows
        · rw [unchanged grows, firstResize]
          split
          · exact Direct.of_no_keys (liveKeys_emptySlots _)
          · exact direct
      rcases kind with ⟨_, used, isKey, _⟩ | ⟨_, unused, rfl⟩
      · exact absurd (mem_liveKeys.mpr ⟨_, node, found, used, isKey⟩) stillAbsent
      · exact ⟨keeps.store found unused stillAbsent v, grownDirect.store walks found unused,
          (liveKeys_store found unused k v).trans (same.cons k)⟩

end Growth

/-! ## Calls and runs -/

section Runs

variable [DecidableEq K] [Inhabited K] [Inhabited V] {reading : Reading}
  {defaultHash hash : K → Nat} {fuel : Nat}

/-- A key that is inserted again is not hidden. If the table grows, the key is where its
functor looks for it, because the default functor has the same value. -/
def Visible (reading : Reading) (defaultHash hash : K → Nat) (table : HsTable K V) :
    HsOp K V → Prop
  | .insert k _ =>
      (Grows (firstResize table) → k ∈ liveKeys table.table → hash k = defaultHash k) ∧
        (¬Grows (firstResize table) → ¬Hidden reading hash (firstResize table).table k)
  | .erase _ => True

/-- The key of a call. -/
def HsOp.key : HsOp K V → K
  | .insert k _ => k
  | .erase k => k

omit [DecidableEq K] in
theorem Visible.of_fresh {table : HsTable K V} {op : HsOp K V} (small : ¬Grows (firstResize table))
    (fresh : op = .erase op.key ∨ op.key ∉ liveKeys table.table) :
    Visible reading defaultHash hash table op := by
  cases op with
  | insert k v =>
      rcases fresh with isErase | absent
      · cases isErase
      · refine ⟨fun grows => absurd grows small, fun _ hidden => absent ?_⟩
        rw [← liveKeys_firstResize]
        exact hidden.1
  | erase k => trivial

theorem insert_spec {table after : HsTable K V} {k : K} {v : V} {inserted : Bool}
    (consistent : Consistent table)
    (visible : Visible reading defaultHash hash table (.insert k v))
    (returned : insert reading defaultHash fuel hash table k v = .ok (after, inserted)) :
    Consistent after ∧
      (inserted = false ∧ k ∈ liveKeys table.table ∧
          (liveKeys after.table).Perm (liveKeys table.table) ∨
        inserted = true ∧ k ∉ liveKeys table.table ∧
          (liveKeys after.table).Perm (k :: liveKeys table.table)) := by
  rcases insert_cases returned with ⟨rest, grown, count, node, _, checked, walks, found, kind⟩
  rcases checkCapacity_spec (insert_fills rest) consistent checked with
    ⟨keeps, same, dense, unchanged⟩
  have seen : ¬Hidden reading hash grown.table k := by
    by_cases grows : Grows (firstResize table)
    · exact (dense grows).not_hidden fun live => visible.1 grows (same.mem_iff.mp live)
    · rw [unchanged grows]
      exact visible.2 grows
  rcases kind with ⟨isFalse, used, isKey, rfl⟩ | ⟨isTrue, unused, rfl⟩
  · have live := mem_liveKeys.mpr ⟨_, node, found, used, isKey⟩
    exact ⟨keeps, Or.inl ⟨isFalse, same.mem_iff.mp live, same⟩⟩
  · have absent : k ∉ liveKeys grown.table := fun live =>
      seen (hidden_of_walksOver walks found unused live)
    refine ⟨keeps.store found unused absent v, Or.inr ⟨isTrue, ?_, ?_⟩⟩
    · exact fun live => absent (same.mem_iff.mpr live)
    · exact (liveKeys_store found unused k v).trans (same.cons k)

/-- The insertion of a hidden key makes a second slot of the key. -/
theorem insert_hidden {table after : HsTable K V} {k : K} {v : V} {inserted : Bool}
    (small : ¬Grows (firstResize table))
    (hidden : Hidden reading hash (firstResize table).table k)
    (returned : insert reading defaultHash fuel hash table k v = .ok (after, inserted)) :
    inserted = true ∧ ¬(liveKeys after.table).Nodup := by
  rcases insert_cases returned with ⟨rest, grown, count, node, _, checked, walks, found, kind⟩
  rcases checkCapacity_cases checked with ⟨_, rfl⟩ | ⟨grows, _⟩
  · rcases hidden with ⟨live, free, freeNode, foundFree, unused, before⟩
    have early : count ≤ free := by
      rcases Nat.lt_or_ge free count with late | early
      · rcases walks free late with ⟨passed, passedFound, goes⟩
        rw [foundFree] at passedFound
        cases passedFound
        exact absurd (fun used => absurd used unused) goes
      · exact early
    rcases kind with ⟨_, used, isKey, _⟩ | ⟨isTrue, nodeUnused, rfl⟩
    · rcases Nat.lt_or_eq_of_le early with less | equal
      · exact absurd isKey (before count less node found used)
      · subst equal
        rw [found] at foundFree
        cases foundFree
        exact absurd used unused
    · refine ⟨isTrue, fun nodup => ?_⟩
      rw [(liveKeys_store found nodeUnused k v).nodup_iff] at nodup
      exact (List.nodup_cons.mp nodup).1 live
  · exact absurd grows small

omit [Inhabited K] [Inhabited V] in
theorem erase_spec {table after : HsTable K V} {k : K} {erased : Bool}
    (consistent : Consistent table)
    (returned : erase reading fuel hash table k = .ok (after, erased)) :
    Consistent after ∧
      (erased = false ∧ after = table ∨
        erased = true ∧ (liveKeys table.table).Perm (k :: liveKeys after.table)) := by
  rcases erase_cases returned with ⟨isFalse, rfl, _⟩ | ⟨isTrue, slot, node, found, rfl, used, rfl⟩
  · exact ⟨consistent, Or.inl ⟨isFalse, rfl⟩⟩
  · have lost := liveKeys_mark found used
    refine ⟨⟨?_, ?_⟩, Or.inr ⟨isTrue, lost⟩⟩
    · exact (List.nodup_cons.mp (lost.nodup_iff.mp consistent.nodup)).2
    · have counted := consistent.counted
      rw [lost.length_eq, List.length_cons] at counted
      rw [counted]
      exact Nat.add_sub_cancel _ 1

theorem step_consistent {table after : HsTable K V} {op : HsOp K V} (consistent : Consistent table)
    (visible : Visible reading defaultHash hash table op)
    (taken : step reading defaultHash fuel hash table op = .ok after) : Consistent after := by
  cases op with
  | insert k v =>
      rcases Outcome.bind_eq_ok taken with ⟨⟨other, inserted⟩, returned, done⟩
      cases done
      exact (insert_spec consistent visible returned).1
  | erase k =>
      rcases Outcome.bind_eq_ok taken with ⟨⟨other, erased⟩, returned, done⟩
      cases done
      exact (erase_spec consistent returned).1

/-- A key that is absent stays absent until it is inserted. -/
theorem step_absent {table after : HsTable K V} {op : HsOp K V} {k : K}
    (consistent : Consistent table) (absent : k ∉ liveKeys table.table)
    (visible : Visible reading defaultHash hash table op) (other : ∀ v, op ≠ .insert k v)
    (taken : step reading defaultHash fuel hash table op = .ok after) :
    k ∉ liveKeys after.table := by
  intro live
  cases op with
  | insert key v =>
      rcases Outcome.bind_eq_ok taken with ⟨⟨stored, inserted⟩, returned, done⟩
      cases done
      have apart : k ≠ key := fun same => other v (by rw [same])
      rcases (insert_spec consistent visible returned).2 with ⟨_, _, same⟩ | ⟨_, _, added⟩
      · exact absent (same.mem_iff.mp live)
      · rcases List.mem_cons.mp (added.mem_iff.mp live) with equal | before
        · exact apart equal
        · exact absent before
  | erase key =>
      rcases Outcome.bind_eq_ok taken with ⟨⟨marked, erased⟩, returned, done⟩
      cases done
      rcases (erase_spec consistent returned).2 with ⟨_, rfl⟩ | ⟨_, lost⟩
      · exact absent live
      · exact absent (lost.mem_iff.mpr (List.mem_cons_of_mem _ live))

/-- The probes of a key come to a slot that was never used, over slots of the vector. -/
def MeetsUnused (reading : Reading) (hash : K → Nat) (slots : List (HsNode K V)) (k : K) : Prop :=
  ∃ count, (∀ earlier < count, slotAt reading hash slots k earlier < slots.length) ∧
    ∃ node, slots[slotAt reading hash slots k count]? = some node ∧ node.st = .empty

omit [Inhabited K] [Inhabited V] in
/-- `find` does not return a slot for a key that is absent. -/
theorem find_absent {table : HsTable K V} {k : K} (absent : k ∉ liveKeys table.table) :
    (∀ fuel result, find reading fuel hash table k = .ok result → result = none) ∧
      ((∃ fuel, find reading fuel hash table k = .ok none) ↔
        MeetsUnused reading hash table.table k) := by
  have notFound : ∀ fuel result, find reading fuel hash table k = .ok result → result = none := by
    intro fuel result returned
    rcases find_eq_ok_iff.mp returned with ⟨count, _, _, node, found, ⟨none, _⟩ | ⟨_, same, used⟩⟩
    · exact none
    · exact absurd (mem_liveKeys.mpr ⟨_, node, found, used, same⟩) absent
  refine ⟨notFound, ?_⟩
  constructor
  · rintro ⟨fuel, returned⟩
    rcases find_eq_ok_iff.mp returned with ⟨count, _, walks, node, found, ⟨_, unused⟩ | ⟨some, _⟩⟩
    · refine ⟨count, fun earlier less => ?_, node, found, unused⟩
      rcases walks earlier less with ⟨passed, passedFound, _⟩
      exact (List.getElem?_eq_some_iff.mp passedFound).1
    · cases some
  · rintro ⟨count, inside, node, found, unused⟩
    -- The first unused slot ends the search.
    induction count using Nat.strong_induction_on generalizing node with
    | _ count induction =>
        by_cases walks : WalksOver reading hash table.table k (FindStops k) count
        · exact ⟨count + 1, find_eq_ok_iff.mpr
            ⟨count, Nat.lt_succ_self _, walks, node, found, Or.inl ⟨rfl, unused⟩⟩⟩
        · simp only [WalksOver, not_forall] at walks
          rcases walks with ⟨earlier, less, stops⟩
          have foundThere := List.getElem?_eq_getElem (inside earlier less)
          have stopsThere := Decidable.of_not_not fun goes => stops ⟨_, foundThere, goes⟩
          rcases stopsThere with unusedThere | ⟨same, used⟩
          · exact induction earlier less (fun before low => inside before (by omega)) _ foundThere
              unusedThere
          · exact absurd (mem_liveKeys.mpr ⟨_, _, foundThere, used, same⟩) absent

end Runs

end DataStructAlgorithm.DataStruct.HsTable
