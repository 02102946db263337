import DataStructAlgorithm.DataStruct.HashTable.Iterator

/-! # Runs of table operations

After any sequence of calls the table stores a finite map, and the iterator visits
each of its pairs once. -/

namespace DataStructAlgorithm.DataStruct.Buck

open Foundation

variable {K V : Type}

/-! ## The finite map -/

/-- The entries are those of the finite map `meaning`. -/
def Lists (entries : List (Entry K V)) (meaning : K → Option V) : Prop :=
  ∀ key value, (∃ address, (address, (key, value)) ∈ entries) ↔ meaning key = some value

namespace Lists

variable {entries other : List (Entry K V)} {meaning : K → Option V}

theorem perm (lists : Lists entries meaning) (same : other.Perm entries) :
    Lists other meaning := by
  intro key value
  simp only [same.mem_iff]
  exact lists key value

theorem absent_iff (lists : Lists entries meaning) (key : K) :
    meaning key = none ↔ ∀ entry ∈ entries, entry.2.1 ≠ key := by
  constructor
  · intro absent entry member equal
    have known := (lists key entry.2.2).mp ⟨entry.1, by rw [← equal]; exact member⟩
    rw [absent] at known
    cases known
  · intro absent
    cases known : meaning key with
    | none => rfl
    | some value =>
        rcases (lists key value).mpr known with ⟨address, member⟩
        exact absurd rfl (absent _ member)

variable [DecidableEq K]

theorem add (lists : Lists entries meaning) {address : Nat} {kv : K × V}
    (absent : ∀ entry ∈ entries, entry.2.1 ≠ kv.1) :
    Lists ((address, kv) :: entries)
      (fun other => if other = kv.1 then some kv.2 else meaning other) := by
  intro key value
  have unknown := (lists.absent_iff kv.1).mpr absent
  have known := lists key value
  by_cases equal : key = kv.1
  · subst equal
    rw [unknown] at known
    simp only [List.mem_cons, exists_or, known]
    simp [Prod.ext_iff, eq_comm]
  · simp only [List.mem_cons, exists_or, known, if_neg equal]
    simp [Prod.ext_iff, equal]

/-- The finite map after `Insert(kv)`. -/
theorem inserted (lists : Lists entries meaning) {kv : K × V} {address : Nat} {flag : Bool}
    (inserted : Inserted entries kv address flag other) :
    Lists other (fun key => if key = kv.1 then some ((meaning kv.1).getD kv.2)
      else meaning key) ∧
    (flag = true ↔ meaning kv.1 = none) ∧
    (address, (kv.1, (meaning kv.1).getD kv.2)) ∈ other ∧
    (flag = false → other.Perm entries) := by
  cases inserted with
  | @present _ _ member same =>
      have known := (lists _ _).mp ⟨address, member⟩
      have unchanged : (fun key => if key = kv.1 then some ((meaning kv.1).getD kv.2)
          else meaning key) = meaning := by
        funext key
        by_cases equal : key = kv.1 <;> simp [equal, known]
      refine ⟨?_, by simp [known], ?_, fun _ => same⟩
      · rw [unchanged]
        exact lists.perm same
      · rw [known]
        exact same.mem_iff.mpr member
  | absent absent added =>
      have unknown := (lists.absent_iff kv.1).mpr absent
      rw [unknown]
      refine ⟨(lists.add absent).perm added, by simp, ?_, fun equal => nomatch equal⟩
      exact added.mem_iff.mpr (List.mem_cons_self ..)

end Lists

/-! ## Writing through a reference -/

/-- Replace the value of the entry at an address. -/
def overwrite (address : Nat) (value : V) (entry : Entry K V) : Entry K V :=
  (entry.1, if entry.1 = address then (entry.2.1, value) else entry.2)

theorem flatten_overwrite (buckets : List (List (Entry K V))) (address : Nat) (value : V) :
    (buckets.map fun bucket => bucket.map (overwrite address value)).flatten =
      buckets.flatten.map (overwrite address value) := by
  rw [List.map_flatten]

theorem overwrite_key (address : Nat) (value : V) (entry : Entry K V) :
    (overwrite address value entry).2.1 = entry.2.1 := by
  by_cases equal : entry.1 = address <;> simp [overwrite, equal]

theorem Stored.overwritten {hash : K → Nat} {table : HashTable K V}
    {buckets : List (List (Entry K V))} (stored : Stored hash table buckets) (address : Nat)
    (value : V) :
    Stored hash
      { table with heap := table.heap.modify address (.updateData fun kv => (kv.1, value)) }
      (buckets.map fun bucket => bucket.map (overwrite address value)) where
  chains := stored.chains.updateAt address _
  addresses := by
    rw [flatten_overwrite, List.map_map]
    exact stored.addresses
  placed := by
    intro index bucket bucketEq entry member
    rw [List.getElem?_map, Option.map_eq_some_iff] at bucketEq
    rcases bucketEq with ⟨old, oldEq, rfl⟩
    rcases List.mem_map.mp member with ⟨before, beforeMem, rfl⟩
    rw [overwrite_key, List.length_map]
    exact stored.placed index old oldEq before beforeMem
  keys := by
    rw [flatten_overwrite, List.map_map]
    have same : (fun entry : Entry K V => entry.2.1) ∘ overwrite address value =
        fun entry => entry.2.1 := funext fun entry => overwrite_key address value entry
    rw [same]
    exact stored.keys
  size_eq := by
    rw [flatten_overwrite, List.length_map]
    exact stored.size_eq
  load := stored.load

theorem Stored.lists_overwrite [DecidableEq K] {hash : K → Nat} {table : HashTable K V}
    {buckets : List (List (Entry K V))} (stored : Stored hash table buckets)
    {meaning : K → Option V} (lists : Lists buckets.flatten meaning) {address : Nat} {key : K}
    {old : V} (member : (address, (key, old)) ∈ buckets.flatten) (value : V) :
    Lists (buckets.flatten.map (overwrite address value))
      (fun other => if other = key then some value else meaning other) := by
  -- the address and the key name the same entry
  have here : ∀ entry ∈ buckets.flatten, entry.1 = address ↔ entry.2.1 = key := by
    intro entry entryMem
    constructor
    · intro equal
      rw [List.inj_on_of_nodup_map stored.addresses entryMem member equal]
    · intro equal
      rw [stored.entry_unique entryMem member equal]
  intro queried found
  beta_reduce
  constructor
  · intro listed
    rcases listed with ⟨place, listed⟩
    rcases List.mem_map.mp listed with ⟨entry, entryMem, equal⟩
    have iff := here entry entryMem
    by_cases same : entry.1 = address
    · have keyEq := iff.mp same
      simp only [overwrite, same, if_pos, Prod.mk.injEq] at equal
      rw [← equal.2.1, keyEq, if_pos rfl, equal.2.2]
    · have keyNe : entry.2.1 ≠ key := fun equal => same (iff.mpr equal)
      rw [overwrite, if_neg same] at equal
      have keyEq : entry.2 = (queried, found) := congrArg Prod.snd equal
      rw [keyEq] at keyNe
      rw [if_neg keyNe]
      exact (lists _ _).mp ⟨entry.1, by rw [← keyEq]; exact entryMem⟩
  · intro known
    by_cases same : queried = key
    · rw [if_pos same] at known
      cases known
      exact ⟨address, List.mem_map.mpr ⟨_, member, by simp [overwrite, same]⟩⟩
    · rw [if_neg same] at known
      rcases (lists _ _).mpr known with ⟨place, listed⟩
      have other : ¬place = address := fun equal => same ((here _ listed).mp equal)
      exact ⟨place, List.mem_map.mpr ⟨_, listed, by simp [overwrite, other]⟩⟩

/-! ## Calls -/

variable [DecidableEq K]

section Calls

variable [Inhabited V]

/-- What a call means for the finite map. -/
def HashOp.apply (meaning : K → Option V) : HashOp K V → K → Option V
  | .insert kv, key => if key = kv.1 then some ((meaning kv.1).getD kv.2) else meaning key
  | .index queried, key =>
      if key = queried then some ((meaning queried).getD default) else meaning key
  | .assign assigned value, key => if key = assigned then some value else meaning key

def meaningOf (ops : List (HashOp K V)) : K → Option V :=
  ops.foldl HashOp.apply fun _ => none

theorem Stored.step {hash : K → Nat} {table : HashTable K V} {buckets : List (List (Entry K V))}
    (stored : Stored hash table buckets) {meaning : K → Option V}
    (lists : Lists buckets.flatten meaning) (op : HashOp K V) (fuel : Nat)
    (enough : table.size < fuel) :
    ∃ after larger, Buck.step fuel hash table op = .ok after ∧ Stored hash after larger ∧
      Lists larger.flatten (op.apply meaning) ∧ after.size ≤ table.size + 1 := by
  have called : ∀ kv : K × V, ∃ after address flag larger,
      Buck.insert fuel hash table kv = .ok (after, some address, flag) ∧
      Stored hash after larger ∧
      Lists larger.flatten (fun key => if key = kv.1 then some ((meaning kv.1).getD kv.2)
        else meaning key) ∧
      (address, (kv.1, (meaning kv.1).getD kv.2)) ∈ larger.flatten ∧
      after.size ≤ table.size + 1 := by
    intro kv
    rcases stored.insert kv fuel enough with
      ⟨after, address, flag, larger, returned, afterStored, inserted⟩
    rcases lists.inserted inserted with ⟨afterLists, _, member, _⟩
    refine ⟨after, address, flag, larger, returned, afterStored, afterLists, member, ?_⟩
    rw [afterStored.size_eq, stored.size_eq]
    exact inserted.length_le
  cases op with
  | insert kv =>
      rcases called kv with
        ⟨after, address, flag, larger, returned, afterStored, afterLists, _, sizeLe⟩
      exact ⟨after, larger, by simp [Buck.step, returned], afterStored, afterLists, sizeLe⟩
  | index key =>
      rcases called (key, default) with
        ⟨after, address, flag, larger, returned, afterStored, afterLists, _, sizeLe⟩
      exact ⟨after, larger, by simp [Buck.step, index, returned], afterStored, afterLists, sizeLe⟩
  | assign key value =>
      rcases called (key, default) with
        ⟨after, address, flag, larger, returned, afterStored, afterLists, member, sizeLe⟩
      rcases afterStored.chains.found member with ⟨next, found⟩
      refine ⟨_, _, ?_, afterStored.overwritten address value, ?_, sizeLe⟩
      · simp [Buck.step, Buck.assign, index, returned, Store.assign_some _ found]
      · have written := afterStored.lists_overwrite afterLists member value
        rw [flatten_overwrite]
        have same : HashOp.apply meaning (.assign key value) = fun other =>
            if other = key then some value else
              if other = key then some ((meaning key).getD default) else meaning other := by
          funext other
          by_cases equal : other = key <;> simp [HashOp.apply, equal]
        rw [same]
        exact written

theorem Stored.run {hash : K → Nat} {table : HashTable K V} {buckets : List (List (Entry K V))}
    (stored : Stored hash table buckets) {meaning : K → Option V}
    (lists : Lists buckets.flatten meaning) (ops : List (HashOp K V)) (fuel : Nat)
    (enough : table.size + ops.length < fuel) :
    ∃ after larger, Buck.run fuel hash table ops = .ok after ∧ Stored hash after larger ∧
      Lists larger.flatten (ops.foldl HashOp.apply meaning) ∧ after.size < fuel := by
  induction ops generalizing table buckets meaning with
  | nil => exact ⟨table, buckets, rfl, stored, lists, by simpa using enough⟩
  | cons op rest induction =>
      rw [List.length_cons] at enough
      rcases stored.step lists op fuel (by omega) with
        ⟨middle, larger, returned, middleStored, middleLists, sizeLe⟩
      rcases induction middleStored middleLists (by omega) with
        ⟨after, final, finished, finalStored, finalLists, sizeLt⟩
      refine ⟨after, final, ?_, finalStored, finalLists, sizeLt⟩
      rw [Buck.run, returned, Outcome.ok_bind, finished]

/-- Every state that calls reach. -/
theorem run_stored (hash : K → Nat) (ops : List (HashOp K V)) (fuel : Nat)
    (enough : ops.length < fuel) :
    ∃ table buckets, run fuel hash .empty ops = .ok table ∧ Stored hash table buckets ∧
      Lists buckets.flatten (meaningOf ops) ∧ table.size < fuel := by
  have start : Lists (([] : List (List (Entry K V))).flatten) fun _ => none := by
    intro key value
    simp
  exact (stored_empty hash).run start ops fuel (by simpa [HashTable.empty] using enough)

/-- The calls of `Insert` and the growth steps in a state that stores `meaning`. -/
structure Behaves (fuel : Nat) (hash : K → Nat) (table : HashTable K V)
    (buckets : List (List (Entry K V))) (meaning : K → Option V) : Prop where
  inserts : ∀ kv, ∃ after address flag larger,
    insert fuel hash table kv = .ok (after, some address, flag) ∧ Stored hash after larger ∧
    (flag = true ↔ meaning kv.1 = none) ∧
    (address, (kv.1, (meaning kv.1).getD kv.2)) ∈ larger.flatten ∧
    (flag = false → larger.flatten.Perm buckets.flatten)
  grows : ∃ grown moved, checkCapacity fuel hash table = .ok grown ∧ Stored hash grown moved ∧
    moved.flatten.Perm buckets.flatten ∧ grown.size = table.size

/-- Every state that calls reach is well formed and behaves as a finite map. -/
theorem run_behaves (hash : K → Nat) (ops : List (HashOp K V)) (fuel : Nat)
    (enough : ops.length < fuel) :
    ∃ table buckets, run fuel hash .empty ops = .ok table ∧ Stored hash table buckets ∧
      Lists buckets.flatten (meaningOf ops) ∧
      Behaves fuel hash table buckets (meaningOf ops) := by
  rcases run_stored hash ops fuel enough with ⟨table, buckets, returned, stored, lists, sizeLt⟩
  refine ⟨table, buckets, returned, stored, lists, ?_, ?_⟩
  · intro kv
    rcases stored.insert kv fuel sizeLt with
      ⟨after, address, flag, larger, inserting, afterStored, inserted⟩
    rcases lists.inserted inserted with ⟨_, flagEq, member, kept⟩
    exact ⟨after, address, flag, larger, inserting, afterStored, flagEq, member, kept⟩
  · rcases stored.checkCapacity fuel sizeLt with ⟨grown, moved, grew, grownStored, same, sizeEq, _⟩
    exact ⟨grown, moved, grew, grownStored, same, sizeEq⟩

theorem run_behaves_four :
    ∃ table buckets, run 5 (fun key => key) .empty
        [HashOp.insert (1, 3), .assign 54 7, .index 2, .insert (1, 4)] = .ok table ∧
      Stored (fun key => key) table buckets ∧
      Lists buckets.flatten
        (meaningOf [HashOp.insert (1, 3), .assign 54 7, .index 2, .insert (1, 4)]) ∧
      Behaves 5 (fun key => key) table buckets
        (meaningOf [HashOp.insert (1, 3), .assign 54 7, .index 2, .insert (1, 4)]) :=
  run_behaves _ _ 5 (by decide)

/-- In every state that calls reach, the iteration ends and visits each stored
pair once. -/
theorem run_traverse (hash : K → Nat) (ops : List (HashOp K V)) (fuel : Nat)
    (enough : ops.length < fuel) :
    ∃ table buckets, run fuel hash .empty ops = .ok table ∧ Stored hash table buckets ∧
      traverse fuel hash table = .ok (buckets.flatten.map Prod.snd) ∧
      ((buckets.flatten.map Prod.snd).map Prod.fst).Nodup ∧
      ∀ key value, (key, value) ∈ buckets.flatten.map Prod.snd ↔ meaningOf ops key = some value := by
  rcases run_stored hash ops fuel enough with ⟨table, buckets, returned, stored, lists, sizeLt⟩
  refine ⟨table, buckets, returned, stored, stored.traverse fuel sizeLt, ?_, ?_⟩
  · rw [List.map_map]
    exact stored.keys
  · intro key value
    rw [← lists key value, List.mem_map]
    constructor
    · intro member
      rcases member with ⟨entry, member, equal⟩
      exact ⟨entry.1, equal ▸ member⟩
    · intro member
      rcases member with ⟨address, member⟩
      exact ⟨_, member, rfl⟩

theorem run_traverse_three :
    ∃ table buckets, run 4 (fun key => key) .empty
        [HashOp.insert (1, 3), .assign 54 7, .index 2] = .ok table ∧
      Stored (fun key => key) table buckets ∧
      traverse 4 (fun key => key) table = .ok (buckets.flatten.map Prod.snd) ∧
      ((buckets.flatten.map Prod.snd).map Prod.fst).Nodup ∧
      ∀ key value, (key, value) ∈ buckets.flatten.map Prod.snd ↔
        meaningOf [HashOp.insert (1, 3), .assign 54 7, .index 2] key = some value :=
  run_traverse _ _ 4 (by decide)

end Calls

end DataStructAlgorithm.DataStruct.Buck
