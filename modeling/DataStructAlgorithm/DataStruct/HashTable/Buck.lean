import DataStructAlgorithm.Foundation.Chain
import DataStructAlgorithm.Foundation.Slots
import DataStructAlgorithm.DataStruct.HashTable.HsTable

/-! # The hash table with chains of `HashTable/hash_table.h`

The table of the namespace `BUCK`. The functor `HashFunc` is an argument. -/

namespace DataStructAlgorithm.DataStruct.Buck

open Foundation

variable {K V : Type}

/-- `hash_node` -/
abbrev HashNode (K V : Type) := ListNode (K × V)

/-- The class `hash_table` together with the memory its nodes live in. -/
structure HashTable (K V : Type) where
  heap : Store (HashNode K V)
  tables : List Ptr
  size : Nat

def HashTable.empty : HashTable K V := ⟨.empty, [], 0⟩

/-- `_hash_func` -/
def hashFunc (hash : K → Nat) (key : K) (size : Nat) : Nat :=
  hash key % size

/-! ## Growing -/

/-- The variables of the loops of `_checkCapacity`. -/
structure Rehash (K V : Type) where
  heap : Store (HashNode K V)
  tables : List Ptr
  newTables : List Ptr

/-- One pass of `while (_tables[i])`. -/
def movePass (hash : K → Nat) (i : Nat) (state : Rehash K V) :
    Outcome (Pass (Rehash K V) (Rehash K V)) := do
  match ← readAt state.tables i with
  | none => pure (.leave state)
  | some cur => do
      let node ← state.heap.load (some cur)
      let next := node.next
      let index := hashFunc hash node.data.1 state.newTables.length
      let head ← readAt state.newTables index
      let newTables ← writeAt state.newTables index (some cur)
      let heap ← state.heap.assign (some cur) (.setNext head)
      let tables ← writeAt state.tables i next
      pure (.again ⟨heap, tables, newTables⟩)

/-- `_checkCapacity` -/
def checkCapacity (fuel : Nat) (hash : K → Nat) (table : HashTable K V) :
    Outcome (HashTable K V) :=
  if table.tables.length = 0 then
    .ok { table with tables := List.replicate (getNextPrime 1) none }
  else if table.size / table.tables.length ≥ 1 then do
    let newTables := List.replicate (getNextPrime table.tables.length) none
    let state ← (List.range table.tables.length).foldlM
      (fun state i => repeatLoop (movePass hash i) fuel state)
      ⟨table.heap, table.tables, newTables⟩
    pure ⟨state.heap, state.newTables, table.size⟩
  else .ok table

/-! ## Insertion and access -/

section Insert

variable [DecidableEq K]

/-- One pass of `while (cur)` in `Insert`. -/
def findPass (heap : Store (HashNode K V)) (key : K) (cur : Ptr) : Outcome (Pass Ptr Ptr) :=
  match cur with
  | none => .ok (.leave none)
  | some _ => do
      let node ← heap.load cur
      if node.data.1 = key then pure (.leave cur) else pure (.again node.next)

/-- `Insert(kv)`, with the node of the iterator that it returns. -/
def insert (fuel : Nat) (hash : K → Nat) (table : HashTable K V) (kv : K × V) :
    Outcome (HashTable K V × Ptr × Bool) := do
  let table ← checkCapacity fuel hash table
  let index := hashFunc hash kv.1 table.tables.length
  let head ← readAt table.tables index
  match ← repeatLoop (findPass table.heap kv.1) fuel head with
  | some cur => pure (table, some cur, false)
  | none => do
      let tamp : Ptr := some table.heap.next
      let tables ← writeAt table.tables index tamp
      pure (⟨table.heap.alloc ⟨kv, head⟩, tables, table.size + 1⟩, tamp, true)

variable [Inhabited V]

/-- `operator[]`; the result is the node whose `second` is referred to. -/
def index (fuel : Nat) (hash : K → Nat) (table : HashTable K V) (key : K) :
    Outcome (HashTable K V × Ptr) := do
  let (table, it, _) ← insert fuel hash table (key, default)
  pure (table, it)

/-- A write through the reference that `operator[]` returns. -/
def assign (fuel : Nat) (hash : K → Nat) (table : HashTable K V) (key : K) (value : V) :
    Outcome (HashTable K V) := do
  let (table, it) ← index fuel hash table key
  let heap ← table.heap.assign it (.updateData fun kv => (kv.1, value))
  pure { table with heap := heap }

inductive HashOp (K V : Type)
  | insert (kv : K × V)
  | index (key : K)
  | assign (key : K) (value : V)

def step (fuel : Nat) (hash : K → Nat) (table : HashTable K V) :
    HashOp K V → Outcome (HashTable K V)
  | .insert kv => do
      let (table, _, _) ← insert fuel hash table kv
      pure table
  | .index key => do
      let (table, _) ← index fuel hash table key
      pure table
  | .assign key value => assign fuel hash table key value

def run (fuel : Nat) (hash : K → Nat) : HashTable K V → List (HashOp K V) →
    Outcome (HashTable K V)
  | table, [] => .ok table
  | table, op :: rest => do
      let table ← step fuel hash table op
      run fuel hash table rest

end Insert

/-! ## Iteration -/

/-- The first slot that is not null. -/
def firstHead : List Ptr → Ptr
  | [] => none
  | none :: rest => firstHead rest
  | some head :: _ => some head

/-- `Begin` -/
def begin (table : HashTable K V) : Ptr :=
  firstHead table.tables

/-- `operator++`, on the node of the iterator. -/
def increment (hash : K → Nat) (table : HashTable K V) (it : Ptr) : Outcome Ptr := do
  let node ← table.heap.load it
  match node.next with
  | some next => pure (some next)
  | none =>
      let index := hashFunc hash node.data.1 table.tables.length
      pure (firstHead (table.tables.drop (index + 1)))

/-- One pass of `while (it != End())` that collects what it visits. -/
def traversePass (hash : K → Nat) (table : HashTable K V) (state : Ptr × List (K × V)) :
    Outcome (Pass (Ptr × List (K × V)) (List (K × V))) :=
  match state with
  | (none, visited) => .ok (.leave visited)
  | (some it, visited) => do
      let node ← table.heap.load (some it)
      let next ← increment hash table (some it)
      pure (.again (next, visited ++ [node.data]))

def traverse (fuel : Nat) (hash : K → Nat) (table : HashTable K V) : Outcome (List (K × V)) :=
  repeatLoop (traversePass hash table) fuel (begin table, [])

end DataStructAlgorithm.DataStruct.Buck
