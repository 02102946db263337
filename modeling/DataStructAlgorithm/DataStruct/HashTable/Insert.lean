import Mathlib.Data.List.Nodup
import DataStructAlgorithm.DataStruct.HashTable.Rehash

/-! # Insertion

What the table stores in every state, and what one call of `Insert` does to it. -/

namespace DataStructAlgorithm.DataStruct.Buck

open Foundation

variable {K V : Type}

/-- The table stores the entries of `buckets`. -/
structure Stored (hash : K → Nat) (table : HashTable K V) (buckets : List (List (Entry K V))) :
    Prop where
  chains : Buckets table.heap table.tables buckets
  addresses : (buckets.flatten.map Prod.fst).Nodup
  placed : Placed hash buckets
  keys : (buckets.flatten.map fun entry => entry.2.1).Nodup
  size_eq : table.size = buckets.flatten.length
  load : table.tables.length < largestPrime → table.size ≤ table.tables.length

theorem stored_empty (hash : K → Nat) : Stored hash (.empty : HashTable K V) [] where
  chains := Buckets.empty _ 0
  addresses := List.nodup_nil
  placed := placed_empty hash 0
  keys := List.nodup_nil
  size_eq := rfl
  load := fun _ => Nat.le_refl 0

namespace Stored

variable {hash : K → Nat} {table : HashTable K V} {buckets : List (List (Entry K V))}

/-- Two entries with the same key are the same entry. -/
theorem entry_unique (stored : Stored hash table buckets) {first second : Entry K V}
    (firstMem : first ∈ buckets.flatten) (secondMem : second ∈ buckets.flatten)
    (equal : first.2.1 = second.2.1) : first = second :=
  List.inj_on_of_nodup_map stored.keys firstMem secondMem equal

theorem bucket_length_le (stored : Stored hash table buckets) :
    ∀ bucket ∈ buckets, bucket.length ≤ table.size := by
  intro bucket member
  rw [stored.size_eq]
  exact (List.sublist_flatten_of_mem member).length_le

/-! ## Growing -/

/-- A growth step moves the entries and neither loses, duplicates nor changes one. -/
theorem checkCapacity (stored : Stored hash table buckets) (fuel : Nat)
    (enough : table.size < fuel) :
    ∃ grown moved, Buck.checkCapacity fuel hash table = .ok grown ∧ Stored hash grown moved ∧
      moved.flatten.Perm buckets.flatten ∧ grown.size = table.size ∧ 0 < grown.tables.length ∧
      (grown.tables.length < largestPrime → grown.size < grown.tables.length) := by
  have lengthEq := stored.chains.length_eq
  by_cases unused : table.tables.length = 0
  · -- the table has never held anything
    have noBuckets : buckets = [] := List.eq_nil_of_length_eq_zero (by omega)
    subst noBuckets
    have noEntries : table.size = 0 := stored.size_eq
    have positive := getNextPrime_pos 1
    refine ⟨{ table with tables := List.replicate (getNextPrime 1) none },
      List.replicate (getNextPrime 1) [], by rw [Buck.checkCapacity, if_pos unused],
      ⟨Buckets.empty _ _, by simp, placed_empty _ _, by simp, by simpa using noEntries, ?_⟩, by simp,
      rfl, ?_, ?_⟩ <;> simp only [List.length_replicate, noEntries]
    · exact fun _ => Nat.zero_le _
    · exact positive
    · exact fun _ => positive
  · by_cases full : table.size / table.tables.length ≥ 1
    · let start : Rehash K V :=
        ⟨table.heap, table.tables, List.replicate (getNextPrime table.tables.length) none⟩
      have moving : Moving hash start buckets
          (List.replicate (getNextPrime table.tables.length) []) buckets.flatten :=
        ⟨stored.chains, Buckets.empty _ _, by simpa using getNextPrime_pos _, placed_empty _ _,
          by simp, stored.addresses⟩
      have lengths : ∀ bucket ∈ buckets, bucket.length < fuel := fun bucket member =>
        Nat.lt_of_le_of_lt (stored.bucket_length_le bucket member) enough
      rcases moving.all fuel lengths buckets.length (Nat.le_refl _) with
        ⟨after, moved, folded, ended, movedLength⟩
      have same : moved.flatten.Perm buckets.flatten := by simpa using ended.same
      have newLength : after.newTables.length = getNextPrime table.tables.length := by
        rw [ended.newChains.length_eq, movedLength, List.length_replicate]
      have larger : getNextPrime table.tables.length < largestPrime →
          table.size < getNextPrime table.tables.length := by
        intro below
        have grows := lt_getNextPrime below
        have load := stored.load (by omega)
        omega
      refine ⟨⟨after.heap, after.newTables, table.size⟩, moved, ?_,
        ⟨ended.newChains, (same.map Prod.fst).nodup_iff.mpr stored.addresses, ended.placed,
          (same.map _).nodup_iff.mpr stored.keys, stored.size_eq.trans same.length_eq.symm, ?_⟩,
        same, rfl, ?_, ?_⟩
      · rw [Buck.checkCapacity, if_neg unused, if_pos full]
        rw [← lengthEq] at folded
        simp only [start] at folded
        simp only [folded, Outcome.ok_bind, Outcome.pure_eq_ok]
      · rw [newLength]
        exact fun below => Nat.le_of_lt (larger below)
      · rw [newLength]
        exact getNextPrime_pos _
      · rw [newLength]
        exact larger
    · have smaller : table.size < table.tables.length := by
        have zero : table.size / table.tables.length = 0 := by
          rwa [ge_iff_le, Nat.not_le, Nat.lt_one_iff] at full
        rcases Nat.div_eq_zero_iff.mp zero with absent | less
        · omega
        · exact less
      exact ⟨table, buckets, by rw [Buck.checkCapacity, if_neg unused, if_neg full], stored,
        List.Perm.refl _, rfl, by omega, fun _ => smaller⟩

end Stored

/-! ## Insertion -/

/-- The loop of `Insert` finds the node of the key in the chain. -/
theorem findPass_chain [DecidableEq K] {heap : Store (HashNode K V)} (key : K) {cur : Ptr}
    {bucket : List (Entry K V)} (chain : Chain heap cur bucket) (fuel : Nat)
    (enough : bucket.length < fuel) :
    repeatLoop (findPass heap key) fuel cur =
      .ok ((bucket.find? fun entry => entry.2.1 = key).map Prod.fst) := by
  induction bucket generalizing cur fuel with
  | nil =>
      rcases fuel with _ | fuel
      · simp at enough
      · have pass : findPass heap key cur = .ok (.leave none) := by
          rw [show cur = none from chain, findPass]
        exact repeatLoop_leave _ pass
  | cons entry rest induction =>
      rcases fuel with _ | fuel
      · simp at enough
      · rcases chain with ⟨curEq, next, found, tail⟩
        subst curEq
        by_cases equal : entry.2.1 = key
        · have pass : findPass heap key (some entry.1) = .ok (.leave (some entry.1)) := by
            simp [findPass, Store.load_some found, equal]
          rw [repeatLoop_leave _ pass]
          simp [equal]
        · have pass : findPass heap key (some entry.1) = .ok (.again next) := by
            simp [findPass, Store.load_some found, equal]
          rw [repeatLoop_again _ pass, induction tail fuel (by simpa using enough)]
          simp [equal]

/-- What `Insert(kv)` does to the entries, with the address and the flag that it
returns. -/
inductive Inserted (before : List (Entry K V)) (kv : K × V) :
    (address : Nat) → (flag : Bool) → (after : List (Entry K V)) → Prop
  | present {address : Nat} {value : V} {after : List (Entry K V)}
      (member : (address, (kv.1, value)) ∈ before) (same : after.Perm before) :
      Inserted before kv address false after
  | absent {address : Nat} {after : List (Entry K V)}
      (absent : ∀ entry ∈ before, entry.2.1 ≠ kv.1)
      (added : after.Perm ((address, kv) :: before)) : Inserted before kv address true after

theorem Inserted.length_le {before after : List (Entry K V)} {kv : K × V} {address : Nat}
    {flag : Bool} (inserted : Inserted before kv address flag after) :
    after.length ≤ before.length + 1 := by
  cases inserted with
  | present member same => rw [same.length_eq]; exact Nat.le_succ _
  | absent absent added => rw [added.length_eq]; exact Nat.le_refl _

/-- A new node in front of the bucket of its key. -/
theorem Stored.push {hash : K → Nat} {table : HashTable K V} {buckets : List (List (Entry K V))}
    (stored : Stored hash table buckets) (kv : K × V) {index : Nat} {head : Ptr}
    {bucket : List (Entry K V)} (headEq : table.tables[index]? = some head)
    (bucketEq : buckets[index]? = some bucket)
    (named : hashFunc hash kv.1 buckets.length = index)
    (absent : ∀ entry ∈ buckets.flatten, entry.2.1 ≠ kv.1)
    (room : table.tables.length < largestPrime → table.size < table.tables.length) :
    Stored hash ⟨table.heap.alloc ⟨kv, head⟩, table.tables.set index (some table.heap.next),
      table.size + 1⟩ (buckets.set index ((table.heap.next, kv) :: bucket)) ∧
    Inserted buckets.flatten kv table.heap.next true
      (buckets.set index ((table.heap.next, kv) :: bucket)).flatten := by
  have added := flatten_set_cons buckets (table.heap.next, kv) bucketEq
  have freshAddress : table.heap.next ∉ buckets.flatten.map Prod.fst := by
    intro member
    rcases List.mem_map.mp member with ⟨entry, entryMem, equal⟩
    exact Nat.ne_of_lt (stored.chains.lt_next entry entryMem) equal
  have freshKey : kv.1 ∉ buckets.flatten.map fun entry => entry.2.1 := by
    intro member
    rcases List.mem_map.mp member with ⟨entry, entryMem, equal⟩
    exact absent entry entryMem equal
  refine ⟨⟨?_, ?_, stored.placed.push bucketEq named, ?_, ?_, ?_⟩, .absent absent added⟩
  · exact (stored.chains.alloc ⟨kv, head⟩).push headEq bucketEq (Store.cell_alloc_next _ _)
  · exact (added.map Prod.fst).nodup_iff.mpr (List.nodup_cons.mpr ⟨freshAddress, stored.addresses⟩)
  · exact (added.map _).nodup_iff.mpr (List.nodup_cons.mpr ⟨freshKey, stored.keys⟩)
  · rw [added.length_eq, List.length_cons, stored.size_eq]
  · rw [List.length_set]
    exact room

/-- `Insert(kv)` adds the pair unless its key is there, and returns the node of
the key. -/
theorem Stored.insert [DecidableEq K] {hash : K → Nat} {table : HashTable K V}
    {buckets : List (List (Entry K V))} (stored : Stored hash table buckets) (kv : K × V)
    (fuel : Nat) (enough : table.size < fuel) :
    ∃ after address flag larger, Buck.insert fuel hash table kv = .ok (after, some address, flag) ∧
      Stored hash after larger ∧ Inserted buckets.flatten kv address flag larger.flatten := by
  rcases stored.checkCapacity fuel enough with
    ⟨grown, moved, grew, grownStored, same, sizeEq, positive, room⟩
  have lengthEq := grownStored.chains.length_eq
  have headLt : hashFunc hash kv.1 grown.tables.length < grown.tables.length :=
    Nat.mod_lt _ positive
  have bucketLt : hashFunc hash kv.1 grown.tables.length < moved.length := by omega
  have headEq := List.getElem?_eq_getElem headLt
  have bucketEq := List.getElem?_eq_getElem bucketLt
  have named : hashFunc hash kv.1 moved.length = hashFunc hash kv.1 grown.tables.length := by
    rw [lengthEq]
  have chain := grownStored.chains.chain _ _ _ headEq bucketEq
  have short := grownStored.bucket_length_le _ (List.getElem_mem bucketLt)
  have searched := findPass_chain kv.1 chain fuel (by omega)
  cases found : moved[hashFunc hash kv.1 grown.tables.length].find?
      fun entry => entry.2.1 = kv.1 with
  | some entry =>
      have equal : entry.2.1 = kv.1 := by simpa using List.find?_some found
      have member : entry ∈ buckets.flatten := same.mem_iff.mp
        (List.mem_flatten_of_mem (List.getElem_mem bucketLt) (List.mem_of_find?_eq_some found))
      have listed : (entry.1, (kv.1, entry.2.2)) ∈ buckets.flatten := by
        rw [← equal]
        exact member
      refine ⟨grown, entry.1, false, moved, ?_, grownStored, .present listed same⟩
      rw [found] at searched
      simp [Buck.insert, grew, readAt_of_getElem? headEq, searched]
  | none =>
      have absent : ∀ entry ∈ moved.flatten, entry.2.1 ≠ kv.1 := by
        intro entry member equal
        have within := grownStored.placed.mem_bucket member (by rw [equal, named]; exact bucketEq)
        have missed := List.find?_eq_none.mp found entry within
        simp [equal] at missed
      rcases grownStored.push kv headEq bucketEq named absent room with ⟨pushed, inserted⟩
      refine ⟨_, grown.heap.next, true, _, ?_, pushed, ?_⟩
      · rw [found] at searched
        simp [Buck.insert, grew, readAt_of_getElem? headEq, searched, writeAt_of_lt _ headLt]
      · cases inserted with
        | absent absent added =>
            exact .absent (fun entry member => absent entry (same.mem_iff.mpr member))
              (added.trans (same.cons _))

end DataStructAlgorithm.DataStruct.Buck
