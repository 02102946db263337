import Mathlib.Data.Prod.Lex
import DataStructAlgorithm.DataStruct.RBTree.Insert
import DataStructAlgorithm.DataStruct.RBTree.Iterator

/-! # The map of `MyMap/my_map.h`

A red-black tree of pairs. The functor `MapKeyOfValue` is handed to the tree as
its comparison, but the tree compares with `<` and `>` throughout, hence whole
pairs, lexicographically. -/

namespace DataStructAlgorithm.DataStruct

open Foundation RBTree

/-- The class `my_map`, with `std::pair<Key, Value>` as a lexicographic product. -/
structure MyMap (Key Value : Type) where
  t : RbTree (Key ×ₗ Value)

namespace MyMap

variable {Key Value : Type}

def empty : MyMap Key Value := ⟨.empty⟩

/-- `ret.first->second = value`, through the reference that `operator[]` returns. -/
def setSecond (value : Value) (data : RbData (Key ×ₗ Value)) : RbData (Key ×ₗ Value) :=
  { data with value := toLex ((ofLex data.value).1, value) }

/-- Iteration from `Begin` to `End`. -/
def iterate (fuel : Nat) (map : MyMap Key Value) : Outcome (List (Key × Value)) := do
  let visited ← traverse fuel map.t.heap map.t.root
  pure (visited.map fun data => ofLex data.value)

variable [LinearOrder Key] [LinearOrder Value]

/-- `my_map::insert`, which returns an iterator and a flag. -/
def insert (fuel : Nat) (map : MyMap Key Value) (key : Key) (value : Value) :
    Outcome (MyMap Key Value × Ptr × Bool) := do
  let (t, it, inserted) ← insertCur fuel map.t (toLex (key, value))
  pure (⟨t⟩, it, inserted)

variable [Inhabited Value]

/-- `my_map::operator[]`; the result is the node whose `second` is referred to. -/
def index (fuel : Nat) (map : MyMap Key Value) (key : Key) :
    Outcome (MyMap Key Value × Ptr) := do
  let (map, it, _) ← insert fuel map key default
  pure (map, it)

/-- `m[key] = value` -/
def assign (fuel : Nat) (map : MyMap Key Value) (key : Key) (value : Value) :
    Outcome (MyMap Key Value) := do
  let (map, it) ← index fuel map key
  let heap ← map.t.heap.assign it (.updateData (setSecond value))
  pure ⟨⟨heap, map.t.root⟩⟩

/-- The value that `m[key]` refers to. -/
def lookup (fuel : Nat) (map : MyMap Key Value) (key : Key) :
    Outcome (MyMap Key Value × Value) := do
  let (map, it) ← index fuel map key
  let node ← map.t.heap.load it
  pure (map, (ofLex node.data.value).2)

/-! ## Sequences of calls -/

inductive MapOp (Key Value : Type)
  | insert (key : Key) (value : Value)
  | assign (key : Key) (value : Value)
  | lookup (key : Key)
  deriving DecidableEq, Repr

def step (fuel : Nat) (map : MyMap Key Value) : MapOp Key Value → Outcome (MyMap Key Value)
  | .insert key value => do
      let (map, _, _) ← insert fuel map key value
      pure map
  | .assign key value => assign fuel map key value
  | .lookup key => do
      let (map, _) ← lookup fuel map key
      pure map

def run (fuel : Nat) : MyMap Key Value → List (MapOp Key Value) → Outcome (MyMap Key Value)
  | map, [] => .ok map
  | map, op :: rest => do
      let map ← step fuel map op
      run fuel map rest

/-- What a call is to do to a finite map. -/
def MapOp.apply (meaning : Key → Option Value) : MapOp Key Value → Key → Option Value
  | .insert key value => fun other =>
      if other = key then some ((meaning key).getD value) else meaning other
  | .assign key value => fun other => if other = key then some value else meaning other
  | .lookup key => fun other =>
      if other = key then some ((meaning key).getD default) else meaning other

/-- The finite map that a sequence of calls is to build. -/
def meaningOf (ops : List (MapOp Key Value)) : Key → Option Value :=
  ops.foldl MapOp.apply fun _ => none

end MyMap

end DataStructAlgorithm.DataStruct
