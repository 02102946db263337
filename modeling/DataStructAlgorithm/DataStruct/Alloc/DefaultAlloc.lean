import Mathlib.Algebra.Group.Nat.Defs
import DataStructAlgorithm.Foundation.Areas
import DataStructAlgorithm.Foundation.Slots
import DataStructAlgorithm.Foundation.Store

/-! # The allocators of `Alloc.h/alloc.hpp`

Addresses are numbers, and the null pointer of the pool is 0. The link that a free
block holds is found in `links` at the address of the block. -/

namespace DataStructAlgorithm.DataStruct

open Foundation

/-- The static members of `__DefaultAllocTemplate`, the memory that the links of free
blocks are in, and the regions that `malloc` has returned. -/
structure DefaultAlloc where
  freeList : List Ptr
  startFree : Nat
  endFree : Nat
  heapSize : Nat
  links : Nat → Ptr
  regions : List Area

namespace DefaultAlloc

def align : Nat := 8

def maxBytes : Nat := 128

def nFreeLists : Nat := maxBytes / align

def initial : DefaultAlloc where
  freeList := List.replicate nFreeLists none
  startFree := 0
  endFree := 0
  heapSize := 0
  links := fun _ => none
  regions := []

/-- A number in a `size_t`. -/
def sizeT (value : Nat) : Nat := value % 2 ^ 64

/-- `RroundUp` -/
def roundUp (bytes : Nat) : Nat := sizeT (bytes + align - 1) / align * align

/-- A difference in a `size_t`, which wraps around. -/
def sizeSub (first second : Nat) : Nat :=
  if second ≤ first then first - second else 2 ^ 64 - (second - first)

/-- A `size_t` that is converted to `int`, and this number to `size_t`. -/
def throughInt (value : Nat) : Nat :=
  let low := value % 2 ^ 32
  if low < 2 ^ 31 then low else 2 ^ 64 - 2 ^ 32 + low

/-- `FreeListIndex` -/
def freeListIndex (bytes : Nat) : Nat := sizeSub (sizeT (bytes + align - 1) / align) 1

/-- `malloc`: the address it would like to return is taken if the region there is
apart from all earlier ones; otherwise it returns a null pointer. -/
def malloc (alloc : DefaultAlloc) (bytes : Nat) (answers : List (Option Nat)) :
    Option Nat × DefaultAlloc × List (Option Nat) :=
  match answers with
  | some base :: answers =>
      if 0 < base ∧ ∀ region ∈ alloc.regions, Area.Apart ⟨base, bytes⟩ region then
        (some base, { alloc with regions := ⟨base, bytes⟩ :: alloc.regions }, answers)
      else (none, alloc, answers)
  | none :: answers => (none, alloc, answers)
  | [] => (none, alloc, [])

/-- `free` -/
def free (alloc : DefaultAlloc) (address : Nat) : DefaultAlloc :=
  { alloc with regions := alloc.regions.filter fun region => region.base ≠ address }

/-- `p->_free_list_link = link` -/
def setLink (links : Nat → Ptr) (address : Nat) (link : Ptr) : Nat → Ptr :=
  fun other => if other = address then link else links other

/-- Put a block at the front of the free list for its size. -/
def pushBlock (alloc : DefaultAlloc) (address bytes : Nat) : Outcome DefaultAlloc := do
  let head ← readAt alloc.freeList (freeListIndex bytes)
  let freeList ← writeAt alloc.freeList (freeListIndex bytes) (some address)
  pure { alloc with freeList := freeList, links := setLink alloc.links address head }

/-- `if (left_bytes > 0)`: the rest of the pool goes to a free list. -/
def keepRest (alloc : DefaultAlloc) : Outcome DefaultAlloc :=
  if 0 < alloc.endFree - alloc.startFree then
    alloc.pushBlock alloc.startFree (alloc.endFree - alloc.startFree)
  else .ok alloc

/-- The first list, from an index on, that is not empty, and its first block. -/
def firstFree : List Ptr → Nat → Option (Nat × Nat)
  | [], _ => none
  | some block :: _, index => some (index, block)
  | none :: rest, index => firstFree rest (index + 1)

def bytesToGet (alloc : DefaultAlloc) (size nobjs : Nat) : Nat :=
  2 * (size * nobjs) + roundUp (alloc.heapSize / 16)

/-- The pool is the region that `malloc` has returned. -/
def grow (alloc : DefaultAlloc) (base bytes : Nat) : DefaultAlloc :=
  { alloc with
    startFree := base, endFree := base + bytes, heapSize := alloc.heapSize + bytes }

/-- What a call of an allocator yields: no result if `bad_alloc` is thrown, which
is what `OOM_Malloc` does as long as no handler is set. -/
abbrev Answered (Result : Type) := Option Result × DefaultAlloc × List (Option Nat)

/-- `ChunkAlloc`; the result is the chunk and the new value of `nobjs`. -/
def chunkAlloc : Nat → DefaultAlloc → Nat → Nat → List (Option Nat) →
    Outcome (Answered (Nat × Nat))
  | 0, _, _, _, _ => .error .outOfFuel
  | fuel + 1, alloc, size, nobjs, answers =>
      let totalBytes := size * nobjs
      let leftBytes := alloc.endFree - alloc.startFree
      if totalBytes ≤ leftBytes then
        .ok (some (alloc.startFree, nobjs),
          { alloc with startFree := alloc.startFree + totalBytes }, answers)
      else if size ≤ leftBytes then
        let nobjs := throughInt (leftBytes / size)
        let totalBytes := sizeT (nobjs * size)
        .ok (some (alloc.startFree + totalBytes, nobjs),
          { alloc with startFree := alloc.startFree + totalBytes }, answers)
      else do
        let bytes := alloc.bytesToGet size nobjs
        let alloc ← alloc.keepRest
        match alloc.malloc bytes answers with
        | (some base, alloc, answers) => chunkAlloc fuel (alloc.grow base bytes) size nobjs answers
        | (none, alloc, answers) =>
            match firstFree (alloc.freeList.drop (freeListIndex size)) (freeListIndex size) with
            | some (i, block) => do
                let freeList ← writeAt alloc.freeList i (alloc.links block)
                chunkAlloc fuel
                  { alloc with
                    freeList := freeList, startFree := block,
                    endFree := block + (i + 1) * align } size nobjs answers
            | none =>
                match alloc.malloc bytes answers with
                | (some base, alloc, answers) =>
                    chunkAlloc fuel (alloc.grow base bytes) size nobjs answers
                | (none, alloc, answers) =>
                    .ok (none, { alloc with startFree := 0, endFree := 0 }, answers)

/-- The loop of `Refill`, with the number of passes that are left. -/
def linkLoop (n : Nat) : Nat → Ptr → Nat → (Nat → Ptr) → Ptr × (Nat → Ptr)
  | 0, currentObj, _, links => (currentObj, links)
  | remaining + 1, _, nextObj, links =>
      linkLoop n remaining (some nextObj) (nextObj + n)
        (setLink links nextObj (some (nextObj + n)))

/-- Put the blocks of a chunk but the first one on their free list. -/
def linkBlocks (alloc : DefaultAlloc) (n nobjs chunk : Nat) : Outcome DefaultAlloc := do
  let freeList ← writeAt alloc.freeList (freeListIndex n) (some (chunk + n))
  match linkLoop n (nobjs - 2) none (chunk + n) alloc.links with
  | (none, _) => .error .nullPointer
  | (some currentObj, links) =>
      pure { alloc with freeList := freeList, links := setLink links currentObj none }

/-- `Refill` -/
def refill (alloc : DefaultAlloc) (n : Nat) (answers : List (Option Nat)) :
    Outcome (Answered Nat) := do
  match ← chunkAlloc 3 alloc n 20 answers with
  | (none, alloc, answers) => pure (none, alloc, answers)
  | (some (chunk, nobjs), alloc, answers) =>
      if nobjs = 1 then pure (some chunk, alloc, answers)
      else do
        let alloc ← alloc.linkBlocks n nobjs chunk
        pure (some chunk, alloc, answers)

/-- `__MallocAllocTemplate::Allocate` as long as no handler is set. -/
def firstLevelAllocate (alloc : DefaultAlloc) (n : Nat) (answers : List (Option Nat)) :
    Answered Nat :=
  alloc.malloc n answers

/-- `__DefaultAllocTemplate::Allocate` -/
def allocate (alloc : DefaultAlloc) (n : Nat) (answers : List (Option Nat)) :
    Outcome (Answered Nat) :=
  if maxBytes < n then .ok (alloc.firstLevelAllocate n answers)
  else do
    match ← readAt alloc.freeList (freeListIndex n) with
    | none => alloc.refill (roundUp n) answers
    | some result => do
        let freeList ← writeAt alloc.freeList (freeListIndex n) (alloc.links result)
        pure (some result, { alloc with freeList := freeList }, answers)

/-- `__DefaultAllocTemplate::Deallocate`, which goes on with a block that it has just
returned to the first level. -/
def deallocate (alloc : DefaultAlloc) (address n : Nat) : Outcome DefaultAlloc :=
  let alloc := if maxBytes < n then alloc.free address else alloc
  alloc.pushBlock address n

end DefaultAlloc

end DataStructAlgorithm.DataStruct
