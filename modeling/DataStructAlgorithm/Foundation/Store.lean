import DataStructAlgorithm.Foundation.Outcome

/-! # Linked storage

Memory that holds the nodes of a linked data structure. Pointers are optional
addresses, `none` being the null pointer. -/

namespace DataStructAlgorithm.Foundation

abbrev Ptr := Option Nat

/-- A store of nodes. Addresses from `next` on have never been allocated. -/
structure Store (Node : Type u) where
  cell : Nat → Option Node
  next : Nat
  fresh : ∀ address, next ≤ address → cell address = none

namespace Store

variable {Node : Type u}

def empty : Store Node where
  cell := fun _ => none
  next := 0
  fresh := fun _ _ => rfl

/-- Change the node at an address. Addresses that hold no node stay empty. -/
def modify (store : Store Node) (address : Nat) (change : Node → Node) : Store Node where
  cell := fun other =>
    if other = address then (store.cell other).map change else store.cell other
  next := store.next
  fresh := by
    intro other beyond
    simp [store.fresh other beyond]

/-- Allocate a node at the next free address. -/
def alloc (store : Store Node) (node : Node) : Store Node where
  cell := fun other => if other = store.next then some node else store.cell other
  next := store.next + 1
  fresh := by
    intro other beyond
    rw [if_neg (by omega)]
    exact store.fresh other (by omega)

/-- Read the node a pointer designates. -/
def load (store : Store Node) (pointer : Ptr) : Outcome Node :=
  match pointer with
  | none => .error .nullPointer
  | some address =>
      match store.cell address with
      | none => .error .danglingPointer
      | some node => .ok node

/-- Write through a pointer. -/
def assign (store : Store Node) (pointer : Ptr) (change : Node → Node) :
    Outcome (Store Node) :=
  match pointer with
  | none => .error .nullPointer
  | some address =>
      match store.cell address with
      | none => .error .danglingPointer
      | some _ => .ok (store.modify address change)

/-- Take the node at an address out of the store. -/
def free (store : Store Node) (address : Nat) : Store Node where
  cell := fun other => if other = address then none else store.cell other
  next := store.next
  fresh := by
    intro other beyond
    simp [store.fresh other beyond]

/-- `delete`, which does nothing to a null pointer. -/
def release (store : Store Node) (pointer : Ptr) : Outcome (Store Node) :=
  match pointer with
  | none => .ok store
  | some address =>
      match store.cell address with
      | none => .error .danglingPointer
      | some _ => .ok (store.free address)

@[simp] theorem load_some {store : Store Node} {address : Nat} {node : Node}
    (found : store.cell address = some node) :
    store.load (some address) = .ok node := by
  simp [load, found]

@[simp] theorem assign_some {store : Store Node} {address : Nat} {node : Node}
    (change : Node → Node) (found : store.cell address = some node) :
    store.assign (some address) change = .ok (store.modify address change) := by
  simp [assign, found]

@[simp] theorem release_some {store : Store Node} {address : Nat} {node : Node}
    (found : store.cell address = some node) :
    store.release (some address) = .ok (store.free address) := by
  simp [release, found]

@[simp] theorem cell_free_of_ne (store : Store Node) {address other : Nat}
    (different : other ≠ address) : (store.free address).cell other = store.cell other := by
  simp [free, different]

@[simp] theorem next_modify (store : Store Node) (address : Nat) (change : Node → Node) :
    (store.modify address change).next = store.next := rfl

@[simp] theorem next_alloc (store : Store Node) (node : Node) :
    (store.alloc node).next = store.next + 1 := rfl

theorem cell_modify (store : Store Node) (address other : Nat) (change : Node → Node) :
    (store.modify address change).cell other =
      if other = address then (store.cell other).map change else store.cell other := rfl

@[simp] theorem cell_modify_same (store : Store Node) (address : Nat)
    (change : Node → Node) :
    (store.modify address change).cell address = (store.cell address).map change := by
  simp [cell_modify]

@[simp] theorem cell_modify_of_ne (store : Store Node) {address other : Nat}
    (change : Node → Node) (different : other ≠ address) :
    (store.modify address change).cell other = store.cell other := by
  simp [cell_modify, different]

theorem cell_modify_of_not_mem (store : Store Node) {addresses : List Nat} {address : Nat}
    (change : Node → Node) (outside : address ∉ addresses) :
    ∀ other ∈ addresses, (store.modify address change).cell other = store.cell other := by
  intro other member
  exact cell_modify_of_ne store change fun equal => outside (equal ▸ member)

theorem cell_free_of_not_mem (store : Store Node) {addresses : List Nat} {address : Nat}
    (outside : address ∉ addresses) :
    ∀ other ∈ addresses, (store.free address).cell other = store.cell other := by
  intro other member
  exact cell_free_of_ne store fun equal => outside (equal ▸ member)

/-- A write that does not change the node changes nothing. -/
theorem modify_eq_self {store : Store Node} {address : Nat} {node : Node}
    {change : Node → Node} (found : store.cell address = some node)
    (same : change node = node) : store.modify address change = store := by
  have cells : (store.modify address change).cell = store.cell := by
    funext other
    by_cases here : other = address
    · rw [here, cell_modify_same, found, Option.map_some, same]
    · exact cell_modify_of_ne store change here
  rcases store with ⟨cell, next, fresh⟩
  simp only [modify, mk.injEq, and_true] at cells ⊢
  exact cells

@[simp] theorem cell_alloc_next (store : Store Node) (node : Node) :
    (store.alloc node).cell store.next = some node := by
  simp [alloc]

theorem lt_next {store : Store Node} {address : Nat} {node : Node}
    (found : store.cell address = some node) : address < store.next := by
  rcases Nat.lt_or_ge address store.next with within | beyond
  · exact within
  · rw [store.fresh address beyond] at found
    cases found

@[simp] theorem cell_alloc_of_lt (store : Store Node) {address : Nat} (node : Node)
    (allocated : address < store.next) :
    (store.alloc node).cell address = store.cell address := by
  simp [alloc, Nat.ne_of_lt allocated]

end Store

end DataStructAlgorithm.Foundation
