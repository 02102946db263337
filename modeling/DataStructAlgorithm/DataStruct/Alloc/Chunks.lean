import DataStructAlgorithm.DataStruct.Alloc.Calls

/-! # The counts of `ChunkAlloc`

The function calls itself once at most: it only does so after it has made a large enough
region or block the pool. The count it returns is the one of the second case, which is
converted to an `int`. -/

namespace DataStructAlgorithm.DataStruct.DefaultAlloc

open Foundation

/-- All free lists are there, and the pool is an interval of whole blocks. -/
structure Formed (alloc : DefaultAlloc) : Prop where
  lists : alloc.freeList.length = nFreeLists
  pool : PoolFormed alloc

/-- The size of the blocks of a free list. -/
structure BlockSize (size : Nat) : Prop where
  positive : 0 < size
  aligned : align ∣ size
  small : size ≤ maxBytes

/-- The number of blocks that the second case finds is not changed by the conversion. -/
def CountFits (alloc : DefaultAlloc) (size nobjs : Nat) : Prop :=
  let count := (alloc.endFree - alloc.startFree) / size
  alloc.endFree - alloc.startFree < size * nobjs → size ≤ alloc.endFree - alloc.startFree →
    0 < count % 2 ^ 32 ∧ count % 2 ^ 32 < 2 ^ 31

instance (alloc : DefaultAlloc) (size nobjs : Nat) : Decidable (CountFits alloc size nobjs) :=
  inferInstanceAs (Decidable (_ → _ → _))

/-- The count is one that was asked for, and the pool is formed, also if there is no chunk. -/
def Counted (nobjs : Nat) : Answered (Nat × Nat) → Prop
  | (some (_, count), alloc, _) => (1 ≤ count ∧ count ≤ nobjs) ∧ PoolFormed alloc
  | (none, alloc, _) => PoolFormed alloc

theorem countFits_of_lt {alloc : DefaultAlloc} {size : Nat} (positive : 0 < size) (nobjs : Nat)
    (small : alloc.endFree - alloc.startFree < size * 2 ^ 31) : CountFits alloc size nobjs := by
  intro _ enough
  have one : 0 < (alloc.endFree - alloc.startFree) / size := Nat.div_pos enough positive
  have few : (alloc.endFree - alloc.startFree) / size < 2 ^ 31 := Nat.div_lt_of_lt_mul small
  rw [Nat.mod_eq_of_lt (by omega)]
  exact ⟨one, few⟩

section Chunks

variable {alloc : DefaultAlloc} {size nobjs : Nat}

/-! ## The first two cases -/

theorem counted_first (fuel : Nat) (answers : List (Option Nat)) (pool : PoolFormed alloc)
    (blocks : BlockSize size) (positive : 1 ≤ nobjs)
    (enough : size * nobjs ≤ alloc.endFree - alloc.startFree) :
    ∃ after, chunkAlloc (fuel + 1) alloc size nobjs answers =
        .ok (some (alloc.startFree, nobjs), after, answers) ∧
      Counted nobjs (some (alloc.startFree, nobjs), after, answers) ∧
      after.freeList = alloc.freeList := by
  refine ⟨{ alloc with startFree := alloc.startFree + size * nobjs }, ?_,
    ⟨⟨positive, Nat.le_refl nobjs⟩, ?_, ?_⟩, rfl⟩
  · rw [chunkAlloc]
    exact if_pos enough
  · have ends := pool.ends
    dsimp only
    omega
  · have whole := Nat.dvd_sub pool.aligned (Nat.dvd_mul_right_of_dvd blocks.aligned nobjs)
    rw [Nat.sub_sub] at whole
    exact whole

/-- The second case hands out what its count says, and this need not be what it found. -/
theorem counted_second (fuel : Nat) (answers : List (Option Nat)) (pool : PoolFormed alloc)
    (blocks : BlockSize size) (fits : size * nobjs < 2 ^ 64)
    (short : alloc.endFree - alloc.startFree < size * nobjs)
    (available : size ≤ alloc.endFree - alloc.startFree) :
    ∃ answered, chunkAlloc (fuel + 1) alloc size nobjs answers = .ok answered ∧
      (Counted nobjs answered ↔ CountFits alloc size nobjs) ∧
      answered.2.1.freeList = alloc.freeList := by
  have second : chunkAlloc (fuel + 1) alloc size nobjs answers = .ok _ :=
    (if_neg (Nat.not_le.mpr short)).trans (if_pos available)
  refine ⟨_, second, ?_, rfl⟩
  have fewer : (alloc.endFree - alloc.startFree) / size < nobjs := Nat.div_lt_of_lt_mul short
  constructor
  · rintro ⟨⟨one, most⟩, _⟩ _ _
    have eight : align ≤ size := Nat.le_of_dvd blocks.positive blocks.aligned
    have times : align * nobjs ≤ size * nobjs := Nat.mul_le_mul_right nobjs eight
    rw [align] at times
    dsimp only [throughInt] at one most
    split at one
    next low =>
      exact ⟨one, low⟩
    next high =>
      rw [if_neg high] at most
      omega
  · intro counts
    rcases counts short available with ⟨one, few⟩
    have same : throughInt ((alloc.endFree - alloc.startFree) / size) =
        (alloc.endFree - alloc.startFree) / size % 2 ^ 32 := if_pos few
    have atMost := Nat.mod_le ((alloc.endFree - alloc.startFree) / size) (2 ^ 32)
    rw [← same] at one atMost
    have within : throughInt ((alloc.endFree - alloc.startFree) / size) * size ≤
        alloc.endFree - alloc.startFree :=
      Nat.le_trans (Nat.mul_le_mul_right size atMost) (Nat.div_mul_le_self _ size)
    have total : sizeT (throughInt ((alloc.endFree - alloc.startFree) / size) * size) =
        throughInt ((alloc.endFree - alloc.startFree) / size) * size := sizeT_of_lt (by omega)
    have ends := pool.ends
    refine ⟨⟨one, by omega⟩, ?_, ?_⟩
    · dsimp only
      rw [total]
      omega
    · have whole := Nat.dvd_sub pool.aligned (Nat.dvd_mul_left_of_dvd blocks.aligned
        (throughInt ((alloc.endFree - alloc.startFree) / size)))
      rw [Nat.sub_sub, ← total] at whole
      exact whole

/-- What a call does that finds a block in the pool. -/
theorem counted_of_le (fuel : Nat) (answers : List (Option Nat)) (pool : PoolFormed alloc)
    (blocks : BlockSize size) (positive : 1 ≤ nobjs) (fits : size * nobjs < 2 ^ 64)
    (available : size ≤ alloc.endFree - alloc.startFree) :
    ∃ answered, chunkAlloc (fuel + 1) alloc size nobjs answers = .ok answered ∧
      (Counted nobjs answered ↔ CountFits alloc size nobjs) ∧
      answered.2.1.freeList = alloc.freeList := by
  rcases Nat.lt_or_ge (alloc.endFree - alloc.startFree) (size * nobjs) with short | enough
  · exact counted_second fuel answers pool blocks fits short available
  · rcases counted_first fuel answers pool blocks positive enough with
      ⟨after, ran, counted, same⟩
    refine ⟨_, ran, ⟨fun _ short _ => ?_, fun _ => counted⟩, same⟩
    omega

/-! ## The third case -/

theorem pushBlock_eq (address : Nat) {bytes : Nat}
    (within : freeListIndex bytes < alloc.freeList.length) :
    ∃ links, alloc.pushBlock address bytes = .ok { alloc with
      freeList := alloc.freeList.set (freeListIndex bytes) (some address), links := links } := by
  refine ⟨setLink alloc.links address alloc.freeList[freeListIndex bytes], ?_⟩
  rw [pushBlock, readAt_of_lt within, Outcome.ok_bind, writeAt_of_lt _ within, Outcome.ok_bind]
  rfl

theorem keepRest_eq (lists : alloc.freeList.length = nFreeLists)
    (small : alloc.endFree - alloc.startFree ≤ maxBytes) :
    ∃ freeList links, alloc.keepRest = .ok { alloc with freeList := freeList, links := links } ∧
      freeList.length = nFreeLists := by
  rw [keepRest]
  by_cases positive : 0 < alloc.endFree - alloc.startFree
  · have within := freeListIndex_lt positive small
    rw [← lists] at within
    rcases pushBlock_eq alloc.startFree within with ⟨links, pushed⟩
    refine ⟨_, links, by rw [if_pos positive, pushed], ?_⟩
    rw [List.length_set, lists]
  · exact ⟨alloc.freeList, alloc.links, if_neg positive, lists⟩

theorem firstFree_bounds {lists : List Ptr} {index i block : Nat}
    (found : firstFree lists index = some (i, block)) :
    index ≤ i ∧ i < index + lists.length := by
  induction lists generalizing index with
  | nil => cases found
  | cons first rest induction =>
      cases first with
      | none =>
          have later := induction found
          rw [List.length_cons]
          omega
      | some other =>
          cases found
          rw [List.length_cons]
          omega

/-- The region that `malloc` returns is large enough for the whole chunk. -/
theorem counted_grow (fuel base : Nat) (answers : List (Option Nat))
    (lists : alloc.freeList.length = nFreeLists) (blocks : BlockSize size)
    (positive : 1 ≤ nobjs) {bytes : Nat} (total : size * nobjs ≤ bytes)
    (aligned : align ∣ bytes) :
    ∃ answered, chunkAlloc (fuel + 1) (alloc.grow base bytes) size nobjs answers = .ok answered ∧
      Counted nobjs answered ∧ answered.2.1.freeList.length = nFreeLists := by
  have bytesLeft : (alloc.grow base bytes).endFree - (alloc.grow base bytes).startFree = bytes :=
    Nat.add_sub_cancel_left base bytes
  have pool : PoolFormed (alloc.grow base bytes) := by
    refine ⟨Nat.le_add_right base bytes, ?_⟩
    rw [bytesLeft]
    exact aligned
  rcases counted_first fuel answers pool blocks positive (by rw [bytesLeft]; exact total) with
    ⟨after, ran, counted, same⟩
  exact ⟨_, ran, counted, (congrArg List.length same).trans lists⟩

/-- A block of a list that is searched is large enough for one block. -/
theorem counted_borrow (fuel block i : Nat) (answers : List (Option Nat))
    (lists : alloc.freeList.length = nFreeLists) (blocks : BlockSize size)
    (positive : 1 ≤ nobjs) (fits : size * nobjs < 2 ^ 64) (large : freeListIndex size ≤ i)
    (within : i < nFreeLists) :
    ∃ answered, chunkAlloc (fuel + 1)
        { alloc with startFree := block, endFree := block + (i + 1) * align }
        size nobjs answers = .ok answered ∧
      Counted nobjs answered ∧ answered.2.1.freeList.length = nFreeLists := by
  let borrowed : DefaultAlloc :=
    { alloc with startFree := block, endFree := block + (i + 1) * align }
  have bytesLeft : borrowed.endFree - borrowed.startFree = (i + 1) * align :=
    Nat.add_sub_cancel_left block ((i + 1) * align)
  have pool : PoolFormed borrowed := by
    refine ⟨Nat.le_add_right block ((i + 1) * align), ?_⟩
    rw [bytesLeft]
    exact Nat.dvd_mul_left align (i + 1)
  have sized : size = (freeListIndex size + 1) * align := by
    rw [← roundUp_eq_index blocks.positive (Nat.lt_of_le_of_lt blocks.small (by decide)),
      roundUp_of_dvd blocks.aligned blocks.small]
  have available : size ≤ borrowed.endFree - borrowed.startFree := by
    rw [bytesLeft, sized]
    exact Nat.mul_le_mul_right align (Nat.succ_le_succ large)
  have few : CountFits borrowed size nobjs := by
    apply countFits_of_lt blocks.positive
    have one := blocks.positive
    rw [bytesLeft]
    rw [nFreeLists, maxBytes, align] at within
    rw [align]
    omega
  rcases counted_of_le fuel answers pool blocks positive fits available with
    ⟨answered, ran, counted, same⟩
  exact ⟨answered, ran, counted.mpr few, (congrArg List.length same).trans lists⟩

/-- A call that finds no block in the pool calls itself once, or throws. -/
theorem counted_third (fuel : Nat) (answers : List (Option Nat)) (formed : Formed alloc)
    (blocks : BlockSize size) (positive : 1 ≤ nobjs) (fits : size * nobjs < 2 ^ 64)
    (short : alloc.endFree - alloc.startFree < size) :
    ∃ answered, chunkAlloc (fuel + 2) alloc size nobjs answers = .ok answered ∧
      Counted nobjs answered ∧ answered.2.1.freeList.length = nFreeLists := by
  have shortTotal : ¬size * nobjs ≤ alloc.endFree - alloc.startFree := by
    have times := Nat.le_mul_of_pos_right size positive
    omega
  have total : size * nobjs ≤ alloc.bytesToGet size nobjs := by
    rw [bytesToGet]
    omega
  have whole : align ∣ alloc.bytesToGet size nobjs := Nat.dvd_add
    (Nat.dvd_mul_left_of_dvd (Nat.dvd_mul_right_of_dvd blocks.aligned nobjs) 2)
    (dvd_roundUp (alloc.heapSize / 16))
  have leftSmall := blocks.small
  rcases keepRest_eq formed.lists (show alloc.endFree - alloc.startFree ≤ maxBytes by omega) with
    ⟨freeList, links, kept, lists⟩
  rw [chunkAlloc, if_neg shortTotal, if_neg (Nat.not_le.mpr short), kept, Outcome.ok_bind]
  rcases malloc_cases { alloc with freeList := freeList, links := links }
      (alloc.bytesToGet size nobjs) answers with ⟨base, rest, _, answer⟩ | ⟨rest, answer⟩
  · rw [answer]
    exact counted_grow fuel base rest lists blocks positive total whole
  · rw [answer]
    dsimp only
    cases found : firstFree (freeList.drop (freeListIndex size)) (freeListIndex size) with
    | some free =>
        rcases free with ⟨i, block⟩
        have bounds := firstFree_bounds found
        rw [List.length_drop, lists] at bounds
        have within : i < nFreeLists := by
          have indexSmall := freeListIndex_lt blocks.positive blocks.small
          omega
        have written := writeAt_of_lt (links block) (lists.symm ▸ within : i < freeList.length)
        have borrowed : ({ alloc with freeList := freeList.set i (links block), links := links } :
            DefaultAlloc).freeList.length = nFreeLists := List.length_set.trans lists
        dsimp only
        rw [written, Outcome.ok_bind]
        exact counted_borrow fuel block i rest borrowed blocks positive fits bounds.1 within
    | none =>
        dsimp only
        rcases malloc_cases { alloc with freeList := freeList, links := links }
            (alloc.bytesToGet size nobjs) rest with ⟨base, last, _, second⟩ | ⟨last, second⟩
        · rw [second]
          exact counted_grow fuel base last lists blocks positive total whole
        · rw [second]
          exact ⟨_, rfl, ⟨Nat.le_refl 0, ⟨0, rfl⟩⟩, lists⟩

/-- The state and the count that a call leaves. -/
theorem counted_spec (fuel : Nat) (answers : List (Option Nat)) (formed : Formed alloc)
    (blocks : BlockSize size) (positive : 1 ≤ nobjs) (fits : size * nobjs < 2 ^ 64) :
    ∃ answered, chunkAlloc (fuel + 2) alloc size nobjs answers = .ok answered ∧
      (Counted nobjs answered ↔ CountFits alloc size nobjs) ∧
      answered.2.1.freeList.length = nFreeLists := by
  rcases Nat.lt_or_ge (alloc.endFree - alloc.startFree) size with short | available
  · rcases counted_third fuel answers formed blocks positive fits short with
      ⟨answered, ran, counted, lists⟩
    refine ⟨answered, ran, ⟨fun _ _ enough => ?_, fun _ => counted⟩, lists⟩
    omega
  · rcases counted_of_le (fuel + 1) answers formed.pool blocks positive fits available with
      ⟨answered, ran, counted, same⟩
    exact ⟨answered, ran, counted, (congrArg List.length same).trans formed.lists⟩

/-- `ChunkAlloc` makes one nested call at most. It leaves a count that was asked for and a pool
of whole blocks unless the conversion changes the number of blocks that it finds. -/
theorem chunkAlloc_count_iff (formed : Formed alloc) (blocks : BlockSize size)
    (positive : 1 ≤ nobjs) (fits : alloc.bytesToGet size nobjs < 2 ^ 64)
    (answers : List (Option Nat)) :
    ∃ answered, chunkAlloc 2 alloc size nobjs answers = .ok answered ∧
      (Counted nobjs answered ↔ CountFits alloc size nobjs) := by
  rw [bytesToGet] at fits
  rcases counted_spec 0 answers formed blocks positive (by omega) with
    ⟨answered, ran, counted, _⟩
  exact ⟨answered, ran, counted⟩

end Chunks

theorem chunkAlloc_count_initial :
    ∃ answered, chunkAlloc 2 initial 8 20 [some 1000] = .ok answered ∧
      (Counted 20 answered ↔ CountFits initial 8 20) :=
  chunkAlloc_count_iff ⟨rfl, Nat.le_refl 0, ⟨0, rfl⟩⟩ ⟨by decide, by decide, by decide⟩ (by decide)
    (by decide) [some 1000]

/-- A pool of 32 gigabytes holds `2 ^ 32` blocks of 8 bytes, and none is counted. -/
theorem chunkAlloc_counts_none :
    ∃ after, chunkAlloc 2 { initial with startFree := 4096, endFree := 4096 + 2 ^ 35 } 8
        (2 ^ 32 + 1) [] = .ok (some (4096, 0), after, []) ∧
      ¬Counted (2 ^ 32 + 1) (some (4096, 0), after, []) := by
  refine ⟨{ initial with startFree := 4096, endFree := 4096 + 2 ^ 35 }, ?_, ?_⟩
  · rw [chunkAlloc, if_neg (by decide), if_pos (by decide)]
    rfl
  · rintro ⟨⟨one, _⟩, _⟩
    exact absurd one (by decide)

end DataStructAlgorithm.DataStruct.DefaultAlloc
