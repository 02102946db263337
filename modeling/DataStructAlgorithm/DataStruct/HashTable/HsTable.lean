import Mathlib.Algebra.Group.Int.Defs
import Mathlib.Data.List.Basic
import DataStructAlgorithm.Foundation.Slots
import DataStructAlgorithm.Foundation.Text
import DataStructAlgorithm.Foundation.Transition

/-! # The bucket counts of `HashTable/hash_table.h` -/

namespace DataStructAlgorithm.DataStruct

/-- `sprime_list` -/
def sprimeList : List Nat :=
  [53, 97, 193, 389, 769,
    1543, 3079, 6151, 12289, 24593,
    49157, 98317, 196613, 393241, 786433,
    1572869, 3145739, 6291469, 12582917, 25165843,
    50331653, 100663319, 201326611, 402653189, 805306457,
    1610612741, 3221225473, 4294967291]

def largestPrime : Nat := 4294967291

/-- `_get_next_prime`. The loop does not return the entry with index 27; the last
statement does. -/
def getNextPrime (n : Nat) : Nat :=
  ((sprimeList.take 27).find? fun prime => n < prime).getD largestPrime

theorem getNextPrime_pos (n : Nat) : 0 < getNextPrime n := by
  rw [getNextPrime]
  cases found : (sprimeList.take 27).find? fun prime => n < prime with
  | none => decide
  | some prime =>
      have larger := List.find?_some found
      simp only [decide_eq_true_eq] at larger
      exact Nat.lt_of_le_of_lt (Nat.zero_le n) larger

theorem getNextPrime_mem (n : Nat) : getNextPrime n ∈ sprimeList := by
  rw [getNextPrime]
  cases found : (sprimeList.take 27).find? fun prime => n < prime with
  | none => decide
  | some prime => exact List.mem_of_mem_take (List.mem_of_find?_eq_some found)

/-- The bucket count grows until it has reached the largest prime. -/
theorem lt_getNextPrime {n : Nat} (below : getNextPrime n < largestPrime) : n < getNextPrime n := by
  rw [getNextPrime] at below ⊢
  cases found : (sprimeList.take 27).find? fun prime => n < prime with
  | none =>
      rw [found] at below
      exact absurd below (Nat.lt_irrefl _)
  | some prime => simpa using List.find?_some found

end DataStructAlgorithm.DataStruct

/-! ## The open table of `HashTable/hash_table.h`

The table of the namespace `OPEN`. The functor `Hash_func` is an argument, and so is its
default `__HashFunc<K>`, because a table that grows fills an `Hs_table<K, V>`. The step
of a probe is an `int` that wraps around, and the index is a 64-bit number. -/

namespace DataStructAlgorithm.DataStruct

open Foundation

namespace HsTable

inductive State
  | exist
  | delete
  | empty
  deriving DecidableEq, Repr

structure HsNode (K V : Type) where
  st : State
  key : K
  value : V
  deriving DecidableEq, Repr

end HsTable

/-- The class `Hs_table`. -/
structure HsTable (K V : Type) where
  table : List (HsTable.HsNode K V)
  size : Nat
  deriving DecidableEq, Repr

namespace HsTable

variable {K V : Type}

/-- `Hs_table()` -/
def new : HsTable K V := ⟨[], 0⟩

/-- How `_table[index]` is read, given the size of the table and the index. -/
abbrev Reading := (size index : Nat) → Nat

/-- As it is written: an index that is not smaller than the size is out of range. -/
def asWritten : Reading := fun _ index => index

/-- Modulo the size. -/
def modulo : Reading := fun size index => index % size

/-! ## Probing -/

/-- The variables `index` and `i` of the two probe loops. -/
structure Probe where
  index : Nat
  i : Int
  deriving DecidableEq, Repr

/-- `index += i; i *= i; if (index > _table.size()) index %= _table.size(); i++;` -/
def Probe.next (size : Nat) (probe : Probe) : Probe :=
  let index := ((probe.index + probe.i) % 2 ^ 64).toNat
  let i := toInt (probe.i * probe.i)
  ⟨if index > size then index % size else index, toInt (i + 1)⟩

/-- `hash_func` -/
def hashFunc (hash : K → Nat) (slots : List (HsNode K V)) (key : K) : Nat :=
  hash key % slots.length

/-- The variables of a probe loop at its start. -/
def probeStart (hash : K → Nat) (slots : List (HsNode K V)) (key : K) : Probe :=
  ⟨hashFunc hash slots key, 1⟩

variable [DecidableEq K]

/-- One pass of the loop of `insert`. It leaves at a free slot or at the key. -/
def insertPass (reading : Reading) (slots : List (HsNode K V)) (k : K) (probe : Probe) :
    Outcome (Pass Probe (Nat × Bool)) := do
  let node ← readAt slots (reading slots.length probe.index)
  if node.st = .exist then
    if node.key = k then pure (.leave (reading slots.length probe.index, false))
    else pure (.again (probe.next slots.length))
  else pure (.leave (reading slots.length probe.index, true))

/-- One pass of the loop of `find`. -/
def findPass (reading : Reading) (slots : List (HsNode K V)) (k : K) (probe : Probe) :
    Outcome (Pass Probe (Option Nat)) := do
  let node ← readAt slots (reading slots.length probe.index)
  if node.st = .empty then pure (.leave none)
  else if node.key = k ∧ node.st = .exist then
    pure (.leave (some (reading slots.length probe.index)))
  else pure (.again (probe.next slots.length))

/-- `find`; the result is the slot whose address it returns. -/
def find (reading : Reading) (fuel : Nat) (hash : K → Nat) (table : HsTable K V) (k : K) :
    Outcome (Option Nat) :=
  repeatLoop (findPass reading table.table k) fuel (probeStart hash table.table k)

/-! ## Insertion -/

section Insert

variable [Inhabited K] [Inhabited V]

/-- `_table.resize(count)` of an empty vector. -/
def emptySlots (count : Nat) : List (HsNode K V) :=
  List.replicate count ⟨.empty, default, default⟩

/-- The first statement of `_checkCapacity`. -/
def firstResize (table : HsTable K V) : HsTable K V :=
  if table.table.length = 0 then { table with table := emptySlots (getNextPrime 1) } else table

/-- The load factor is reached. -/
def Grows (table : HsTable K V) : Prop :=
  table.size * 10 / table.table.length ≥ 7

instance (table : HsTable K V) : Decidable (Grows table) :=
  inferInstanceAs (Decidable (_ ≥ _))

/-- The table that the growth loop starts with. -/
def newTable (table : HsTable K V) : HsTable K V :=
  ⟨emptySlots (getNextPrime table.table.length), 0⟩

/-- One pass of the growth loop, over the next slot of the old table. -/
def rehashStep (insertInto : HsTable K V → K → V → Outcome (HsTable K V × Bool))
    (grown : HsTable K V) (node : HsNode K V) : Outcome (HsTable K V) :=
  if node.st = .exist then do
    let (grown, _) ← insertInto grown node.key node.value
    pure grown
  else .ok grown

/-- `_checkCapacity`, given the function `insert` that it calls on the new table. -/
def checkCapacity (insertInto : HsTable K V → K → V → Outcome (HsTable K V × Bool))
    (table : HsTable K V) : Outcome (HsTable K V) :=
  let table := firstResize table
  if Grows table then do
    let grown ← runAll (rehashStep insertInto) (newTable table) table.table
    pure ⟨grown.table, table.size⟩
  else .ok table

/-- `insert`. The growth of a table calls it again on another table, which hashes with
the default functor. -/
def insert (reading : Reading) (defaultHash : K → Nat) : (fuel : Nat) → (hash : K → Nat) →
    HsTable K V → K → V → Outcome (HsTable K V × Bool)
  | 0, _, _, _, _ => .error .outOfFuel
  | fuel + 1, hash, table, k, v => do
      let table ← checkCapacity (insert reading defaultHash fuel defaultHash) table
      let (slot, free) ← repeatLoop (insertPass reading table.table k) fuel
        (probeStart hash table.table k)
      if free then do
        let slots ← writeAt table.table slot ⟨.exist, k, v⟩
        pure (⟨slots, table.size + 1⟩, true)
      else pure (table, false)

end Insert

/-! ## Erasure -/

/-- `erase` -/
def erase (reading : Reading) (fuel : Nat) (hash : K → Nat) (table : HsTable K V) (k : K) :
    Outcome (HsTable K V × Bool) := do
  match ← find reading fuel hash table k with
  | none => pure (table, false)
  | some _ => do
      match ← find reading fuel hash table k with
      | none => .error .nullPointer
      | some tamp => do
          let node ← readAt table.table tamp
          let slots ← writeAt table.table tamp { node with st := .delete }
          pure (⟨slots, table.size - 1⟩, true)

inductive HsOp (K V : Type)
  | insert (k : K) (v : V)
  | erase (k : K)
  deriving DecidableEq, Repr

/-- One call of `insert` or `erase`. -/
def step [Inhabited K] [Inhabited V] (reading : Reading) (defaultHash : K → Nat) (fuel : Nat)
    (hash : K → Nat) (table : HsTable K V) : HsOp K V → Outcome (HsTable K V)
  | .insert k v => do
      let (table, _) ← insert reading defaultHash fuel hash table k v
      pure table
  | .erase k => do
      let (table, _) ← erase reading fuel hash table k
      pure table

end HsTable

end DataStructAlgorithm.DataStruct
