import DataStructAlgorithm.DataStruct.Alloc.Chunks

/-! # The blocks that `Refill` puts on a list

The loop ends before the last block has been entered, and the link behind the loop cuts it
off. With two blocks the loop is not run, and there is no block whose link could be set. -/

namespace DataStructAlgorithm.DataStruct.DefaultAlloc

open Foundation

/-- A pointer leads to one list of blocks. -/
theorem Threaded.unique {links : Nat → Ptr} {pointer : Ptr} {blocks others : List Nat}
    (threaded : Threaded links pointer blocks) (otherThreaded : Threaded links pointer others) :
    blocks = others := by
  induction blocks generalizing pointer others with
  | nil =>
      cases others with
      | nil => rfl
      | cons other rest => cases threaded.symm.trans otherThreaded.1
  | cons block rest induction =>
      cases others with
      | nil => cases otherThreaded.symm.trans threaded.1
      | cons other otherRest =>
          cases threaded.1.symm.trans otherThreaded.1
          rw [induction threaded.2 otherThreaded.2]

theorem length_row (size count base : Nat) : (Area.row size count base).length = count := by
  induction count generalizing base with
  | zero => rfl
  | succ count induction => rw [Area.row, List.length_cons, induction]

section Refills

variable {alloc supplied : DefaultAlloc} {n nobjs chunk : Nat} {rest : List (Option Nat)}

/-- The free list for the size leads to just these blocks, one after the other. -/
def Lists (alloc : DefaultAlloc) (n : Nat) (blocks : List Nat) : Prop :=
  ∃ head, alloc.freeList[freeListIndex n]? = some head ∧ Threaded alloc.links head blocks

theorem linkBlocks_two (lists : supplied.freeList.length = nFreeLists) (blocks : BlockSize n) :
    supplied.linkBlocks n 2 chunk = .error .nullPointer := by
  have within := freeListIndex_lt blocks.positive blocks.small
  rw [linkBlocks, writeAt_of_lt _ (by rw [lists]; exact within), Outcome.ok_bind]
  rfl

/-- All blocks but the first and the last are listed. -/
theorem linkBlocks_more (chunk : Nat) (lists : supplied.freeList.length = nFreeLists)
    (blocks : BlockSize n) (several : 3 ≤ nobjs) :
    ∃ after, supplied.linkBlocks n nobjs chunk = .ok after ∧
      after.Lists n (Area.row n (nobjs - 2) (chunk + n)) ∧ after.freeList.length = nFreeLists ∧
      (PoolFormed supplied → PoolFormed after) := by
  have within : freeListIndex n < supplied.freeList.length := by
    rw [lists]
    exact freeListIndex_lt blocks.positive blocks.small
  have counted : nobjs - 2 = nobjs - 3 + 1 := by omega
  rcases linkLoop_spec blocks.positive (nobjs - 3) none (chunk + n) supplied.links with
    ⟨last, linked, looped, threaded, _⟩
  rw [← counted] at looped threaded
  refine ⟨{ supplied with
    freeList := supplied.freeList.set (freeListIndex n) (some (chunk + n)),
    links := setLink linked last none }, ?_, ⟨some (chunk + n), ?_, threaded⟩, ?_,
    fun pool => ⟨pool.ends, pool.aligned⟩⟩
  · rw [linkBlocks, writeAt_of_lt _ within, Outcome.ok_bind, looped]
    rfl
  · exact List.getElem?_set_self within
  · exact List.length_set.trans lists

theorem refill_eq {answers : List (Option Nat)}
    (supply : chunkAlloc 3 alloc n 20 answers = .ok (some (chunk, nobjs), supplied, rest))
    (several : 2 ≤ nobjs) :
    alloc.refill n answers = (supplied.linkBlocks n nobjs chunk).map
      fun after => (some chunk, after, rest) := by
  rw [refill, supply, Outcome.ok_bind]
  dsimp only
  rw [if_neg (by omega)]
  cases supplied.linkBlocks n nobjs chunk with
  | error fault => rfl
  | ok after => rfl

/-- `Refill` loses the last block of three or more, and follows a null pointer if there are
two. In no case does the list get all the blocks but the first. -/
theorem refill_loses_block (formed : Formed alloc) (blocks : BlockSize n)
    (answers : List (Option Nat))
    (supply : chunkAlloc 3 alloc n 20 answers = .ok (some (chunk, nobjs), supplied, rest))
    (several : 2 ≤ nobjs) :
    (¬∃ after, alloc.refill n answers = .ok (some chunk, after, rest) ∧
      after.Lists n (Area.row n (nobjs - 1) (chunk + n))) ∧
    (nobjs = 2 → alloc.refill n answers = .error .nullPointer) ∧
    (3 ≤ nobjs → ∃ after, alloc.refill n answers = .ok (some chunk, after, rest) ∧
      after.Lists n (Area.row n (nobjs - 2) (chunk + n))) := by
  have small := blocks.small
  rw [maxBytes] at small
  rcases counted_spec 1 answers formed blocks (show 1 ≤ 20 by decide) (by omega) with
    ⟨answered, ran, _, lists⟩
  rw [supply] at ran
  cases ran
  have linked := refill_eq supply several
  rcases Nat.eq_or_lt_of_le several with rfl | more
  · have fault : alloc.refill n answers = .error .nullPointer := by
      rw [linked, linkBlocks_two lists blocks]
      rfl
    refine ⟨?_, fun _ => fault, fun three => ?_⟩
    · rintro ⟨after, returned, _⟩
      rw [fault] at returned
      cases returned
    · omega
  · rcases linkBlocks_more chunk lists blocks more with ⟨after, made, listed, _⟩
    have returned : alloc.refill n answers = .ok (some chunk, after, rest) := by
      rw [linked, made]
      rfl
    refine ⟨?_, fun two => ?_, fun _ => ⟨after, returned, listed⟩⟩
    · rintro ⟨other, otherReturned, otherHead, otherFound, otherThreaded⟩
      rw [returned] at otherReturned
      cases otherReturned
      rcases listed with ⟨head, found, threaded⟩
      rw [found] at otherFound
      cases otherFound
      have lengths := congrArg List.length (threaded.unique otherThreaded)
      rw [length_row, length_row] at lengths
      omega
    · omega

theorem refill_loses_initial :
    (¬∃ after, initial.refill 8 [some 1000] = .ok (some 1000, after, []) ∧
      after.Lists 8 (Area.row 8 (20 - 1) (1000 + 8))) ∧
    (20 = 2 → initial.refill 8 [some 1000] = .error .nullPointer) ∧
    (3 ≤ 20 → ∃ after, initial.refill 8 [some 1000] = .ok (some 1000, after, []) ∧
      after.Lists 8 (Area.row 8 (20 - 2) (1000 + 8))) :=
  refill_loses_block ⟨rfl, Nat.le_refl 0, ⟨0, rfl⟩⟩ ⟨by decide, by decide, by decide⟩
    [some 1000] rfl (by decide)

/-- The pool that a first request for 8 bytes leaves has room for two blocks of 80 bytes. -/
theorem refill_two_faults :
    (do
      let (_, alloc, _) ← initial.allocate 8 [some 1000]
      alloc.refill 80 []) = .error .nullPointer := by
  decide

end Refills

end DataStructAlgorithm.DataStruct.DefaultAlloc
