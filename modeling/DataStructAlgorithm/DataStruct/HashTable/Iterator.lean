import DataStructAlgorithm.DataStruct.HashTable.Insert

/-! # Iteration over the table

The iterator goes through the chains in the order of the buckets. At the end of a
chain it finds the bucket it is in by the hash of its key. -/

namespace DataStructAlgorithm.DataStruct.Buck

open Foundation

variable {K V : Type}

/-- The iterator is at the first of the remaining entries: they are the rest of
the chain of one bucket, and the buckets after it. -/
def At (table : HashTable K V) (buckets : List (List (Entry K V))) :
    Ptr → List (Entry K V) → Prop
  | it, [] => it = none
  | it, entry :: remaining => ∃ index bucket tail, buckets[index]? = some bucket ∧
      (entry :: tail) <:+ bucket ∧ Chain table.heap it (entry :: tail) ∧
      remaining = tail ++ (buckets.drop (index + 1)).flatten

/-- The first bucket that is not empty. -/
theorem firstHead_chain {heap : Store (HashNode K V)} {heads : List Ptr}
    {buckets : List (List (Entry K V))} (chains : Buckets heap heads buckets) :
    (firstHead heads = none ∧ buckets.flatten = []) ∨
    ∃ index entry tail, buckets[index]? = some (entry :: tail) ∧
      Chain heap (firstHead heads) (entry :: tail) ∧
      buckets.flatten = entry :: (tail ++ (buckets.drop (index + 1)).flatten) := by
  induction heads generalizing buckets with
  | nil =>
      have noBuckets : buckets = [] := List.eq_nil_of_length_eq_zero chains.length_eq.symm
      subst noBuckets
      exact Or.inl ⟨rfl, rfl⟩
  | cons head heads induction =>
      rcases buckets with _ | ⟨bucket, buckets⟩
      · exact absurd chains.length_eq (by simp)
      · rcases chains.of_cons with ⟨chain, others⟩
        cases bucket with
        | nil =>
            rw [show head = none from chain, firstHead]
            rcases induction others with ⟨atEnd, nothing⟩ | ⟨index, entry, tail, first, found, rest⟩
            · exact Or.inl ⟨atEnd, nothing⟩
            · exact Or.inr ⟨index + 1, entry, tail, first, found, rest⟩
        | cons entry tail =>
            rw [chain.1, firstHead]
            exact Or.inr ⟨0, entry, tail, rfl, chain.1 ▸ chain, rfl⟩

namespace Stored

variable {hash : K → Nat} {table : HashTable K V} {buckets : List (List (Entry K V))}

/-- The scan for a bucket that is not empty, from any bucket on. -/
theorem at_firstHead (stored : Stored hash table buckets) (start : Nat) :
    At table buckets (firstHead (table.tables.drop start)) (buckets.drop start).flatten := by
  have chains : Buckets table.heap (table.tables.drop start) (buckets.drop start) := by
    refine ⟨by simp [stored.chains.length_eq], fun index head bucket headEq bucketEq => ?_⟩
    rw [List.getElem?_drop] at headEq bucketEq
    exact stored.chains.chain _ head bucket headEq bucketEq
  rcases firstHead_chain chains with ⟨atEnd, nothing⟩ | ⟨index, entry, tail, first, found, rest⟩
  · rw [nothing]
    exact atEnd
  · rw [List.getElem?_drop] at first
    rw [List.drop_drop] at rest
    rw [rest]
    exact ⟨start + index, _, tail, first, List.suffix_refl _, found, rfl⟩

theorem at_begin (stored : Stored hash table buckets) :
    At table buckets (begin table) buckets.flatten :=
  stored.at_firstHead 0

/-- `operator++` goes on to the next entry. -/
theorem increment (stored : Stored hash table buckets) {it : Ptr} {entry : Entry K V}
    {remaining : List (Entry K V)} (atEntry : At table buckets it (entry :: remaining)) :
    ∃ next, table.heap.load it = .ok ⟨entry.2, next⟩ ∧
      ∃ after, Buck.increment hash table it = .ok after ∧ At table buckets after remaining := by
  rcases atEntry with ⟨index, bucket, tail, bucketEq, ending, ⟨itEq, next, found, chain⟩, rest⟩
  subst itEq
  refine ⟨next, Store.load_some found, ?_⟩
  cases tail with
  | nil =>
      rw [show next = none from chain] at found
      have named : hashFunc hash entry.2.1 table.tables.length = index := by
        rw [stored.chains.length_eq]
        exact stored.placed index bucket bucketEq entry (ending.mem (List.mem_cons_self ..))
      refine ⟨firstHead (table.tables.drop (index + 1)), ?_, ?_⟩
      · simp [Buck.increment, Store.load_some found, named]
      · rw [rest]
        exact stored.at_firstHead (index + 1)
  | cons second tail =>
      have nextEq : next = some second.1 := chain.1
      rw [nextEq] at found
      refine ⟨some second.1, by simp [Buck.increment, Store.load_some found], ?_⟩
      rw [rest, List.cons_append]
      have shorter : (second :: tail) <:+ bucket :=
        (List.suffix_cons entry (second :: tail)).trans ending
      exact ⟨index, bucket, tail, bucketEq, shorter, nextEq ▸ chain, rfl⟩

theorem traverse_from (stored : Stored hash table buckets) {it : Ptr}
    {remaining : List (Entry K V)} (atFirst : At table buckets it remaining)
    (visited : List (K × V)) (fuel : Nat) (enough : remaining.length < fuel) :
    repeatLoop (traversePass hash table) fuel (it, visited) =
      .ok (visited ++ remaining.map Prod.snd) := by
  induction remaining generalizing it visited fuel with
  | nil =>
      rcases fuel with _ | fuel
      · simp at enough
      · rw [show it = none from atFirst]
        exact (repeatLoop_leave _ rfl).trans (by simp)
  | cons entry remaining induction =>
      rcases fuel with _ | fuel
      · simp at enough
      · rcases stored.increment atFirst with ⟨next, loaded, after, incremented, atNext⟩
        have pass : traversePass hash table (it, visited) =
            .ok (.again (after, visited ++ [entry.2])) := by
          rcases atFirst with ⟨_, _, _, _, _, ⟨itEq, _⟩, _⟩
          subst itEq
          simp [traversePass, loaded, incremented]
        rw [repeatLoop_again _ pass, induction atNext _ fuel (by simpa using enough)]
        simp

/-- The iteration visits the entries one after the other. -/
theorem traverse (stored : Stored hash table buckets) (fuel : Nat) (enough : table.size < fuel) :
    Buck.traverse fuel hash table = .ok (buckets.flatten.map Prod.snd) := by
  rw [stored.size_eq] at enough
  exact stored.traverse_from stored.at_begin [] fuel enough

end Stored

end DataStructAlgorithm.DataStruct.Buck
