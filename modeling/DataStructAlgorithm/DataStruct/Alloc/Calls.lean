import DataStructAlgorithm.DataStruct.Alloc.Blocks

/-! # The calls of the allocator

What each function does to the owners of the memory, as long as `ChunkAlloc` does not
come to its second case. -/

namespace DataStructAlgorithm.DataStruct.DefaultAlloc

open Foundation

def pool (alloc : DefaultAlloc) : Area := ⟨alloc.startFree, alloc.endFree - alloc.startFree⟩

theorem pool_grow (alloc : DefaultAlloc) (base bytes : Nat) :
    (alloc.grow base bytes).pool = ⟨base, bytes⟩ := by
  simp [pool, grow]

/-- The pool is an interval of whole blocks. -/
structure PoolFormed (alloc : DefaultAlloc) : Prop where
  ends : alloc.startFree ≤ alloc.endFree
  aligned : align ∣ alloc.endFree - alloc.startFree

theorem roundUp_le {n : Nat} (small : n ≤ maxBytes) : roundUp n ≤ maxBytes := by
  unfold maxBytes at small ⊢
  rw [roundUp_eq (by omega)]
  omega

theorem freeListIndex_lt {n : Nat} (positive : 0 < n) (small : n ≤ maxBytes) :
    freeListIndex n < nFreeLists := by
  unfold maxBytes at small
  rw [freeListIndex_eq positive (by omega)]
  unfold nFreeLists maxBytes align
  omega

theorem freeListIndex_roundUp {n : Nat} (positive : 0 < n) (small : n ≤ maxBytes) :
    freeListIndex (roundUp n) = freeListIndex n := by
  unfold maxBytes at small
  have rounded : roundUp n = (n + 7) / 8 * 8 := roundUp_eq (by omega)
  rw [freeListIndex_eq positive (by omega), freeListIndex_eq (by omega) (by omega), rounded]
  omega

theorem roundUp_of_dvd {bytes : Nat} (aligned : align ∣ bytes) (small : bytes ≤ maxBytes) :
    roundUp bytes = bytes := by
  unfold maxBytes at small
  unfold align at aligned
  rw [roundUp_eq (by omega)]
  omega

/-! ## Free lists -/

section Lists

variable {alloc : DefaultAlloc} {chains : List (List Nat)} {others : List Area}

/-- A block goes to the front of the list for its size. -/
theorem pushBlock_spec {address bytes : Nat} (positive : 0 < bytes) (small : bytes ≤ maxBytes)
    (owned : Owned alloc chains (⟨address, roundUp bytes⟩ :: others)) :
    ∃ links after, alloc.pushBlock address bytes = .ok { alloc with
        freeList := alloc.freeList.set (freeListIndex bytes) (some address), links := links } ∧
      Owned { alloc with
        freeList := alloc.freeList.set (freeListIndex bytes) (some address), links := links }
        after others := by
  have within := freeListIndex_lt positive small
  have sized : roundUp bytes = (freeListIndex bytes + 1) * align :=
    roundUp_eq_index positive (Nat.lt_of_le_of_lt small (by decide))
  rcases owned.chain_at within with ⟨head, chain, headFound, chainFound, threaded⟩
  have fresh : address ∉ chain := by
    apply owned.not_free (List.mem_cons_self ..) _ chainFound
    rw [sized]
    exact Nat.mul_pos (Nat.succ_pos _) (by decide)
  have pushed : Threaded (setLink alloc.links address head) (some address) ([address] ++ chain) :=
    threaded.push fresh
  have same : ∀ other, other ∉ [address] → setLink alloc.links address head other =
      alloc.links other := by
    intro other different
    exact if_neg (fun equal => different (List.mem_singleton.mpr equal))
  rw [sized] at owned
  have installed := Owned.install owned chainFound pushed same
  refine ⟨setLink alloc.links address head, _, ?_, installed⟩
  rw [pushBlock, readAt_of_getElem? headFound, Outcome.ok_bind,
    writeAt_of_lt _ (by rw [owned.listLength]; exact within)]
  rfl

/-- The rest of the pool goes to a list that is in front of the one for the blocks
that did not fit. -/
theorem keepRest_spec {size : Nat} (formed : PoolFormed alloc) (aligned : align ∣ size)
    (small : size ≤ maxBytes) (short : alloc.endFree - alloc.startFree < size)
    (owned : Owned alloc chains (alloc.pool :: others)) :
    ∃ freeList links after, alloc.keepRest = .ok { alloc with
        freeList := freeList, links := links } ∧
      freeList.drop (freeListIndex size) = alloc.freeList.drop (freeListIndex size) ∧
      Owned { alloc with freeList := freeList, links := links } after others := by
  unfold keepRest
  split
  · rename_i positive
    have sameSize := roundUp_of_dvd formed.aligned (by omega)
    have poolOwned : Owned alloc chains
        (⟨alloc.startFree, roundUp (alloc.endFree - alloc.startFree)⟩ :: others) := by
      rw [sameSize]
      exact owned
    rcases pushBlock_spec positive (by omega) poolOwned with ⟨links, after, pushed, afterOwned⟩
    refine ⟨_, links, after, pushed, ?_, afterOwned⟩
    have before : freeListIndex (alloc.endFree - alloc.startFree) < freeListIndex size := by
      have poolAligned := formed.aligned
      unfold maxBytes at small
      unfold align at aligned poolAligned
      rw [freeListIndex_eq positive (by omega), freeListIndex_eq (by omega) (by omega)]
      omega
    rw [List.drop_set, if_pos before]
  · exact ⟨alloc.freeList, alloc.links, chains, rfl, rfl, owned.drop⟩

theorem linkLoop_spec {n : Nat} (positive : 0 < n) (remaining : Nat) (current : Ptr)
    (next : Nat) (links : Nat → Ptr) :
    ∃ last linked, linkLoop n (remaining + 1) current next links = (some last, linked) ∧
      Threaded (setLink linked last none) (some next) (Area.row n (remaining + 1) next) ∧
      ∀ address, address ∉ Area.row n (remaining + 1) next →
        setLink linked last none address = links address := by
  induction remaining generalizing current next links with
  | zero =>
      refine ⟨next, setLink links next (some (next + n)), rfl, ⟨rfl, if_pos rfl⟩, ?_⟩
      intro address outside
      have different : address ≠ next := fun equal => outside (equal ▸ List.mem_cons_self ..)
      simp only [setLink, if_neg different]
  | succ remaining induction =>
      rcases induction (some next) (next + n) (setLink links next (some (next + n))) with
        ⟨last, linked, loopEq, threaded, same⟩
      refine ⟨last, linked, loopEq, ⟨rfl, ?_⟩, ?_⟩
      · have outside : next ∉ Area.row n (remaining + 1) (next + n) := by
          intro member
          have bounds := Area.row_bounds member
          omega
        have linkOfNext : setLink links next (some (next + n)) next = some (next + n) :=
          if_pos rfl
        rw [same next outside, linkOfNext]
        exact threaded
      · intro address outside
        have different : address ≠ next := fun equal => outside (equal ▸ List.mem_cons_self ..)
        have later : address ∉ Area.row n (remaining + 1) (next + n) := fun member =>
          outside (List.mem_cons_of_mem _ member)
        rw [same address later]
        exact if_neg different

/-- Of the 20 blocks of a chunk the first is returned and the next 18 go to the empty
free list for their size. -/
theorem linkBlocks_spec {size chunk : Nat} (positive : 0 < size) (aligned : align ∣ size)
    (small : size ≤ maxBytes) (emptyList : alloc.freeList[freeListIndex size]? = some none)
    (owned : Owned alloc chains
      (((Area.row size 19 chunk).map fun block => ⟨block, size⟩) ++ others)) :
    ∃ freeList links after, alloc.linkBlocks size 20 chunk = .ok { alloc with
        freeList := freeList, links := links } ∧
      Owned { alloc with freeList := freeList, links := links } after
        (⟨chunk, size⟩ :: others) := by
  have within := freeListIndex_lt positive small
  have sized : size = (freeListIndex size + 1) * align := by
    rw [← roundUp_eq_index positive (Nat.lt_of_le_of_lt small (by decide)),
      roundUp_of_dvd aligned small]
  rcases owned.chain_at within with ⟨head, chain, headFound, chainFound, threaded⟩
  rw [emptyList] at headFound
  cases headFound
  have nothing : chain = [] := by
    cases chain with
    | nil => rfl
    | cons block rest => cases threaded.1
  subst nothing
  rcases linkLoop_spec positive 17 none (chunk + size) alloc.links with
    ⟨last, linked, loopEq, linkedThreaded, same⟩
  rw [← List.append_nil (Area.row size (17 + 1) (chunk + size))] at linkedThreaded
  have listed : Owned alloc chains (((Area.row size (17 + 1) (chunk + size)).map fun block =>
      ⟨block, (freeListIndex size + 1) * align⟩) ++ ⟨chunk, size⟩ :: others) := by
    rw [← sized]
    exact owned.perm List.perm_middle.symm
  have installed := Owned.install listed chainFound linkedThreaded same
  refine ⟨_, setLink linked last none, _, ?_, installed⟩
  rw [linkBlocks, writeAt_of_lt _ (by rw [owned.listLength]; exact within), Outcome.ok_bind,
    loopEq]
  rfl

end Lists

/-! ## Chunks -/

/-- `ChunkAlloc` comes to its second case, either at once or after it has made a
larger free block the pool. -/
def TakesSecondCase (alloc : DefaultAlloc) (size : Nat) (answers : List (Option Nat)) : Prop :=
  alloc.endFree - alloc.startFree < size * 20 ∧
    (size ≤ alloc.endFree - alloc.startFree ∨
      (alloc.malloc (alloc.bytesToGet size 20) answers).1 = none ∧
        firstFree (alloc.freeList.drop (freeListIndex size)) (freeListIndex size) ≠ none)

instance (alloc : DefaultAlloc) (size : Nat) (answers : List (Option Nat)) :
    Decidable (TakesSecondCase alloc size answers) :=
  inferInstanceAs (Decidable (_ ∧ _))

/-- What `ChunkAlloc` leaves behind, for a size whose free list is empty. -/
def Supplied (size : Nat) (others : List Area) : Answered (Nat × Nat) → Prop
  | (some (chunk, nobjs), alloc, _) =>
      nobjs = 20 ∧ PoolFormed alloc ∧ alloc.freeList[freeListIndex size]? = some none ∧
        ∃ chains, Owned alloc chains
          (((Area.row size 19 chunk).map fun block => ⟨block, size⟩) ++ alloc.pool :: others)
  | (none, alloc, _) => PoolFormed alloc ∧ ∃ chains, Owned alloc chains (alloc.pool :: others)

section Chunks

variable {alloc : DefaultAlloc} {chains : List (List Nat)} {others : List Area}

/-- The first case. -/
theorem chunkAlloc_enough {size : Nat} (fuel : Nat) (answers : List (Option Nat))
    (formed : PoolFormed alloc) (aligned : align ∣ size)
    (enough : size * 20 ≤ alloc.endFree - alloc.startFree)
    (emptyList : alloc.freeList[freeListIndex size]? = some none)
    (owned : Owned alloc chains (alloc.pool :: others)) :
    ∃ answered, chunkAlloc (fuel + 1) alloc size 20 answers = .ok answered ∧
      Supplied size others answered := by
  have ends := formed.ends
  refine ⟨(some (alloc.startFree, 20),
    { alloc with startFree := alloc.startFree + size * 20 }, answers), ?_, rfl, ⟨?_, ?_⟩,
    emptyList, chains, ?_⟩
  · rw [chunkAlloc]
    exact if_pos enough
  · dsimp only
    omega
  · have poolAligned := formed.aligned
    unfold align at poolAligned aligned ⊢
    dsimp only
    omega
  · let rest : Area :=
      ⟨alloc.startFree + size * 20, alloc.endFree - (alloc.startFree + size * 20)⟩
    have cut : Owned alloc chains ((((Area.row size 19 alloc.startFree).map fun block =>
        (⟨block, size⟩ : Area)) ++ [rest]) ++ others) := by
      apply owned.cut
      · refine List.pairwise_append.mpr
          ⟨Area.row_apart .., List.pairwise_singleton .., ?_⟩
        intro piece member last lastMember
        rcases List.mem_map.mp member with ⟨block, inRow, rfl⟩
        rw [List.mem_singleton] at lastMember
        subst lastMember
        have bounds := Area.row_bounds inRow
        unfold Area.Apart
        dsimp only [rest]
        omega
      · intro piece member
        right
        dsimp only [pool]
        rcases List.mem_append.mp member with inChunk | isRest
        · rcases List.mem_map.mp inChunk with ⟨block, inRow, rfl⟩
          have bounds := Area.row_bounds inRow
          dsimp only
          omega
        · rw [List.mem_singleton] at isRest
          subst isRest
          dsimp only [rest]
          omega
    rw [List.append_assoc] at cut
    exact cut.setPool ..

/-- The pool is a new region. -/
theorem chunkAlloc_grow {size base : Nat} (fuel : Nat) (answers : List (Option Nat))
    (aligned : align ∣ size)
    (fresh : ∀ region ∈ alloc.regions, Area.Apart ⟨base, alloc.bytesToGet size 20⟩ region)
    (emptyList : alloc.freeList[freeListIndex size]? = some none)
    (owned : Owned alloc chains others) :
    ∃ answered, chunkAlloc (fuel + 1)
        (grow { alloc with regions := ⟨base, alloc.bytesToGet size 20⟩ :: alloc.regions } base
          (alloc.bytesToGet size 20)) size 20 answers = .ok answered ∧
      Supplied size others answered := by
  let after : DefaultAlloc :=
    { alloc with regions := ⟨base, alloc.bytesToGet size 20⟩ :: alloc.regions }
  have grown : Owned (after.grow base (alloc.bytesToGet size 20)) chains
      ((after.grow base (alloc.bytesToGet size 20)).pool :: others) := by
    rw [pool_grow]
    exact (owned.addRegion fresh).setPool ..
  have poolSize := congrArg Area.size (pool_grow after base (alloc.bytesToGet size 20))
  dsimp only [pool] at poolSize
  have formed : PoolFormed (after.grow base (alloc.bytesToGet size 20)) := by
    refine ⟨Nat.le_add_right .., ?_⟩
    rw [poolSize]
    have heapPart := dvd_roundUp (alloc.heapSize / 16)
    unfold bytesToGet
    unfold align at aligned heapPart ⊢
    omega
  apply chunkAlloc_enough fuel answers formed aligned _ emptyList grown
  rw [poolSize]
  unfold bytesToGet
  omega

/-- What `malloc` answers. -/
theorem malloc_cases (alloc : DefaultAlloc) (bytes : Nat) (answers : List (Option Nat)) :
    (∃ base rest, (∀ region ∈ alloc.regions, Area.Apart ⟨base, bytes⟩ region) ∧
      alloc.malloc bytes answers =
        (some base, { alloc with regions := ⟨base, bytes⟩ :: alloc.regions }, rest)) ∨
      ∃ rest, alloc.malloc bytes answers = (none, alloc, rest) := by
  cases answers with
  | nil => exact Or.inr ⟨_, rfl⟩
  | cons answer rest =>
      cases answer with
      | none => exact Or.inr ⟨_, rfl⟩
      | some base =>
          rcases Decidable.em (0 < base ∧ ∀ region ∈ alloc.regions,
              Area.Apart ⟨base, bytes⟩ region) with fresh | taken
          · exact Or.inl ⟨base, rest, fresh.2, if_pos fresh⟩
          · exact Or.inr ⟨rest, if_neg taken⟩

/-- Only the regions decide what `malloc` answers. -/
theorem malloc_same {other : DefaultAlloc} (same : other.regions = alloc.regions) (bytes : Nat)
    (answers : List (Option Nat)) :
    (other.malloc bytes answers).1 = (alloc.malloc bytes answers).1 := by
  unfold malloc
  rw [same]
  cases answers with
  | nil => rfl
  | cons answer rest =>
      cases answer with
      | none => rfl
      | some base =>
          dsimp only
          split <;> rfl

theorem chunkAlloc_spec {size : Nat} (answers : List (Option Nat)) (formed : PoolFormed alloc)
    (aligned : align ∣ size) (small : size ≤ maxBytes)
    (emptyList : alloc.freeList[freeListIndex size]? = some none)
    (spared : ¬TakesSecondCase alloc size answers)
    (owned : Owned alloc chains (alloc.pool :: others)) :
    ∃ answered, chunkAlloc 3 alloc size 20 answers = .ok answered ∧
      Supplied size others answered := by
  rcases Nat.lt_or_ge (alloc.endFree - alloc.startFree) (size * 20) with tooLittle | enough
  · have short : alloc.endFree - alloc.startFree < size :=
      Nat.lt_of_not_le fun some => spared ⟨tooLittle, Or.inl some⟩
    rcases keepRest_spec formed aligned small short owned with
      ⟨freeList, links, after, kept, sameLists, keptOwned⟩
    have stillEmpty : freeList[freeListIndex size]? = some none := by
      have atZero := congrArg (·[0]?) sameLists
      simp only [List.getElem?_drop, Nat.add_zero] at atZero
      rw [atZero]
      exact emptyList
    rw [chunkAlloc, if_neg (by omega), if_neg (by omega), kept, Outcome.ok_bind]
    rcases malloc_cases { alloc with freeList := freeList, links := links }
        (alloc.bytesToGet size 20) answers with
      ⟨base, rest, fresh, answer⟩ | ⟨rest, answer⟩
    · rw [answer]
      exact chunkAlloc_grow 1 rest aligned fresh stillEmpty keptOwned
    · have nothing : firstFree (freeList.drop (freeListIndex size)) (freeListIndex size) =
          none := by
        rw [sameLists]
        refine Decidable.byContradiction fun found => spared ⟨tooLittle, Or.inr ⟨?_, found⟩⟩
        have sameAnswer := malloc_same (rfl : { alloc with
          freeList := freeList, links := links }.regions = alloc.regions)
          (alloc.bytesToGet size 20) answers
        rw [← sameAnswer, answer]
      rw [answer]
      dsimp only
      rw [nothing]
      dsimp only
      rcases malloc_cases { alloc with freeList := freeList, links := links }
          (alloc.bytesToGet size 20) rest with
        ⟨base, last, fresh, second⟩ | ⟨last, second⟩
      · rw [second]
        exact chunkAlloc_grow 1 last aligned fresh stillEmpty keptOwned
      · rw [second]
        refine ⟨_, rfl, ⟨Nat.le_refl 0, ⟨0, rfl⟩⟩, after, ?_⟩
        exact (keptOwned.addEmpty 0).setPool 0 0 alloc.heapSize
  · exact chunkAlloc_enough 2 answers formed aligned enough emptyList owned

theorem refill_spec {size : Nat} (answers : List (Option Nat)) (formed : PoolFormed alloc)
    (positive : 0 < size) (aligned : align ∣ size) (small : size ≤ maxBytes)
    (emptyList : alloc.freeList[freeListIndex size]? = some none)
    (spared : ¬TakesSecondCase alloc size answers)
    (owned : Owned alloc chains (alloc.pool :: others)) :
    ∃ result after rest chains, alloc.refill size answers = .ok (result, after, rest) ∧
      PoolFormed after ∧ Owned after chains (after.pool ::
        (result.toList.map fun block => ⟨block, size⟩) ++ others) := by
  rcases chunkAlloc_spec answers formed aligned small emptyList spared owned with
    ⟨answered, chunkEq, supplied⟩
  rw [refill, chunkEq, Outcome.ok_bind]
  match answered, supplied with
  | (none, after, rest), supplied =>
      rcases supplied with ⟨afterFormed, chains, afterOwned⟩
      exact ⟨none, after, rest, chains, rfl, afterFormed, afterOwned⟩
  | (some (chunk, nobjs), after, rest), supplied =>
      rcases supplied with ⟨rfl, afterFormed, stillEmpty, chains, afterOwned⟩
      rcases linkBlocks_spec positive aligned small stillEmpty afterOwned with
        ⟨freeList, links, last, linkEq, linkedOwned⟩
      refine ⟨some chunk, { after with freeList := freeList, links := links }, rest, last, ?_,
        ⟨afterFormed.ends, afterFormed.aligned⟩, ?_⟩
      · dsimp only
        rw [if_neg (by decide), linkEq]
        rfl
      · exact linkedOwned.perm (List.Perm.swap ..)

end Chunks

/-! ## The interface -/

/-- The invariant between calls: the pool, the free blocks and the blocks of the
client, with their sizes rounded up, are apart and in regions from `malloc`. -/
def Separate (alloc : DefaultAlloc) (live : List (Nat × Nat)) : Prop :=
  ∃ chains, Owned alloc chains
    (alloc.pool :: live.map fun block => ⟨block.1, roundUp block.2⟩)

section Interface

variable {alloc : DefaultAlloc} {live : List (Nat × Nat)}

theorem allocate_spec {n : Nat} (answers : List (Option Nat)) (formed : PoolFormed alloc)
    (positive : 0 < n) (small : n ≤ maxBytes)
    (spared : alloc.freeList[freeListIndex n]? = some none →
      ¬TakesSecondCase alloc (roundUp n) answers)
    (separate : Separate alloc live) :
    ∃ result after rest, alloc.allocate n answers = .ok (result, after, rest) ∧
      PoolFormed after ∧
      Separate after ((result.toList.map fun block => (block, n)) ++ live) := by
  rcases separate with ⟨chains, owned⟩
  have within := freeListIndex_lt positive small
  have sized : roundUp n = (freeListIndex n + 1) * align :=
    roundUp_eq_index positive (Nat.lt_of_le_of_lt small (by decide))
  rcases owned.chain_at within with ⟨head, chain, headFound, chainFound, threaded⟩
  rw [allocate, if_neg (Nat.not_lt.mpr small), readAt_of_getElem? headFound, Outcome.ok_bind]
  cases head with
  | none =>
      have sameIndex := freeListIndex_roundUp positive small
      have roundUpPositive : 0 < roundUp n := by
        rw [sized]
        exact Nat.mul_pos (Nat.succ_pos _) (by decide)
      rcases refill_spec answers formed roundUpPositive (dvd_roundUp n) (roundUp_le small)
          (by rw [sameIndex]; exact headFound) (spared headFound) owned with
        ⟨result, after, rest, last, refillEq, afterFormed, afterOwned⟩
      refine ⟨result, after, rest, refillEq, afterFormed, last, ?_⟩
      rw [List.map_append, List.map_map]
      exact afterOwned
  | some block =>
      rcases owned.take headFound with ⟨rest, _, taken⟩
      refine ⟨some block, { alloc with
        freeList := alloc.freeList.set (freeListIndex n) (alloc.links block) }, answers, ?_,
        ⟨formed.ends, formed.aligned⟩, chains.set (freeListIndex n) rest, ?_⟩
      · dsimp only
        rw [writeAt_of_lt _ (by rw [owned.listLength]; exact within)]
        rfl
      · rw [← sized] at taken
        exact taken.perm (List.Perm.swap ..)

theorem deallocate_spec {address n : Nat} (formed : PoolFormed alloc) (positive : 0 < n)
    (small : n ≤ maxBytes) (member : (address, n) ∈ live) (separate : Separate alloc live) :
    ∃ after, alloc.deallocate address n = .ok after ∧ PoolFormed after ∧
      Separate after (live.erase (address, n)) := by
  rcases separate with ⟨chains, owned⟩
  have listed := ((List.perm_cons_erase member).map fun block : Nat × Nat =>
    (⟨block.1, roundUp block.2⟩ : Area)).cons alloc.pool
  rcases pushBlock_spec positive small (owned.perm (listed.trans (List.Perm.swap ..))) with
    ⟨links, after, pushed, afterOwned⟩
  refine ⟨{ alloc with
    freeList := alloc.freeList.set (freeListIndex n) (some address), links := links }, ?_,
    ⟨formed.ends, formed.aligned⟩, after, afterOwned⟩
  rw [deallocate, if_neg (Nat.not_lt.mpr small)]
  exact pushed

end Interface

end DataStructAlgorithm.DataStruct.DefaultAlloc
