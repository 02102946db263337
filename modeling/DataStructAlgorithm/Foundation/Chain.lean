import Mathlib.Data.List.Perm.Basic
import DataStructAlgorithm.Foundation.Store

/-! # Chains linked in a store

Singly linked lists of nodes, and arrays whose slots are the heads of such lists.
A chain is described by its entries, each the address of a node and its payload. -/

namespace DataStructAlgorithm.Foundation

variable {Data : Type u}

structure ListNode (Data : Type u) where
  data : Data
  next : Ptr
  deriving Repr

def ListNode.setNext (pointer : Ptr) (node : ListNode Data) : ListNode Data :=
  { node with next := pointer }

def ListNode.updateData (change : Data → Data) (node : ListNode Data) : ListNode Data :=
  { node with data := change node.data }

/-- The store holds the chain of `entries` that begins at the pointer. -/
def Chain (store : Store (ListNode Data)) : Ptr → List (Nat × Data) → Prop
  | pointer, [] => pointer = none
  | pointer, (address, data) :: rest =>
      pointer = some address ∧
        ∃ next, store.cell address = some ⟨data, next⟩ ∧ Chain store next rest

namespace Chain

variable {store other : Store (ListNode Data)} {pointer : Ptr} {entries : List (Nat × Data)}

/-- A chain stays linked when its own cells are unchanged. -/
theorem congr (chain : Chain store pointer entries)
    (same : ∀ entry ∈ entries, other.cell entry.1 = store.cell entry.1) :
    Chain other pointer entries := by
  induction entries generalizing pointer with
  | nil => exact chain
  | cons entry rest induction =>
      rcases chain with ⟨pointerEq, next, found, tail⟩
      refine ⟨pointerEq, next, ?_, induction tail fun other member => same other (by simp [member])⟩
      rw [same entry (by simp), found]

theorem found (chain : Chain store pointer entries) {entry : Nat × Data}
    (member : entry ∈ entries) : ∃ next, store.cell entry.1 = some ⟨entry.2, next⟩ := by
  induction entries generalizing pointer with
  | nil => cases member
  | cons first rest induction =>
      rcases chain with ⟨_, next, foundFirst, tail⟩
      rcases List.mem_cons.mp member with equal | member
      · rw [equal]
        exact ⟨next, foundFirst⟩
      · exact induction tail member

/-- The store determines the entries of a chain. -/
theorem unique (chain : Chain store pointer entries) {others : List (Nat × Data)}
    (again : Chain store pointer others) : entries = others := by
  induction entries generalizing pointer others with
  | nil =>
      cases others with
      | nil => rfl
      | cons other others =>
          have atEnd : pointer = none := chain
          rw [again.1] at atEnd
          cases atEnd
  | cons entry rest induction =>
      rcases chain with ⟨pointerEq, next, foundEntry, tail⟩
      cases others with
      | nil =>
          have atEnd : pointer = none := again
          rw [pointerEq] at atEnd
          cases atEnd
      | cons other others =>
          rcases again with ⟨otherEq, otherNext, foundOther, otherTail⟩
          have sameAddress : entry.1 = other.1 := Option.some.inj (pointerEq.symm.trans otherEq)
          rw [← sameAddress, foundEntry] at foundOther
          have nodeEq := Option.some.inj foundOther
          have sameNext : next = otherNext := congrArg ListNode.next nodeEq
          rw [← sameNext] at otherTail
          rw [induction tail otherTail, Prod.ext sameAddress (congrArg ListNode.data nodeEq)]

/-- Writing the payload of one node, given only its address. -/
theorem updateAt (chain : Chain store pointer entries) (address : Nat) (change : Data → Data) :
    Chain (store.modify address (.updateData change)) pointer
      (entries.map fun entry => (entry.1, if entry.1 = address then change entry.2 else entry.2)) := by
  induction entries generalizing pointer with
  | nil => exact chain
  | cons entry rest induction =>
      rcases chain with ⟨pointerEq, next, foundEntry, tail⟩
      refine ⟨pointerEq, next, ?_, induction tail⟩
      rw [Store.cell_modify, foundEntry]
      by_cases equal : entry.1 = address <;> simp [equal, ListNode.updateData]

end Chain

/-! ## Arrays of chains -/

/-- Each slot of the array is the head of the chain of one bucket. -/
structure Buckets (store : Store (ListNode Data)) (heads : List Ptr)
    (buckets : List (List (Nat × Data))) : Prop where
  length_eq : heads.length = buckets.length
  chain : ∀ (index : Nat) (head : Ptr) (bucket : List (Nat × Data)), heads[index]? = some head →
    buckets[index]? = some bucket → Chain store head bucket

namespace Buckets

variable {store other : Store (ListNode Data)} {heads : List Ptr}
  {buckets : List (List (Nat × Data))}

/-- The first slot and the others. -/
theorem of_cons {head : Ptr} {bucket : List (Nat × Data)}
    (chains : Buckets store (head :: heads) (bucket :: buckets)) :
    Chain store head bucket ∧ Buckets store heads buckets := by
  refine ⟨chains.chain 0 head bucket rfl rfl, by simpa using chains.length_eq, ?_⟩
  intro index other stored otherEq storedEq
  exact chains.chain (index + 1) other stored otherEq storedEq

theorem unique (chains : Buckets store heads buckets) {others : List (List (Nat × Data))}
    (again : Buckets store heads others) : buckets = others := by
  induction heads generalizing buckets others with
  | nil =>
      rw [List.eq_nil_of_length_eq_zero chains.length_eq.symm,
        List.eq_nil_of_length_eq_zero again.length_eq.symm]
  | cons head heads induction =>
      rcases buckets with _ | ⟨bucket, buckets⟩
      · exact absurd chains.length_eq (by simp)
      · rcases others with _ | ⟨other, others⟩
        · exact absurd again.length_eq (by simp)
        · rw [chains.of_cons.1.unique again.of_cons.1,
            induction chains.of_cons.2 again.of_cons.2]

theorem congr (chains : Buckets store heads buckets)
    (same : ∀ entry ∈ buckets.flatten, other.cell entry.1 = store.cell entry.1) :
    Buckets other heads buckets := by
  refine ⟨chains.length_eq, fun index head bucket headEq bucketEq => ?_⟩
  apply (chains.chain index head bucket headEq bucketEq).congr
  intro entry member
  exact same entry (List.mem_flatten_of_mem (List.mem_of_getElem? bucketEq) member)

theorem modify_of_not_mem (chains : Buckets store heads buckets) {address : Nat}
    (change : ListNode Data → ListNode Data) (outside : ∀ entry ∈ buckets.flatten,
      entry.1 ≠ address) : Buckets (store.modify address change) heads buckets :=
  chains.congr fun entry member => Store.cell_modify_of_ne _ _ (outside entry member)

theorem found (chains : Buckets store heads buckets) {entry : Nat × Data}
    (member : entry ∈ buckets.flatten) :
    ∃ next, store.cell entry.1 = some ⟨entry.2, next⟩ := by
  rcases List.mem_flatten.mp member with ⟨bucket, bucketMem, member⟩
  rcases List.getElem?_of_mem bucketMem with ⟨index, bucketEq⟩
  have within : index < heads.length := by
    rw [chains.length_eq]
    exact (List.getElem?_eq_some_iff.mp bucketEq).1
  exact (chains.chain index _ bucket (List.getElem?_eq_getElem within) bucketEq).found member

theorem lt_next (chains : Buckets store heads buckets) :
    ∀ entry ∈ buckets.flatten, entry.1 < store.next := by
  intro entry member
  rcases chains.found member with ⟨next, found⟩
  exact Store.lt_next found

theorem alloc (chains : Buckets store heads buckets) (node : ListNode Data) :
    Buckets (store.alloc node) heads buckets :=
  chains.congr fun entry member => Store.cell_alloc_of_lt _ node (chains.lt_next entry member)

/-- Replacing one slot and its bucket. -/
theorem set (chains : Buckets store heads buckets) (index : Nat) {head : Ptr}
    {bucket : List (Nat × Data)} (chain : Chain store head bucket) :
    Buckets store (heads.set index head) (buckets.set index bucket) := by
  refine ⟨by simp [chains.length_eq], fun queried found stored foundEq storedEq => ?_⟩
  rw [List.getElem?_set] at foundEq storedEq
  by_cases same : index = queried
  · rw [if_pos same] at foundEq storedEq
    split at foundEq
    · split at storedEq
      · cases foundEq
        cases storedEq
        exact chain
      · cases storedEq
    · cases foundEq
  · rw [if_neg same] at foundEq storedEq
    exact chains.chain queried found stored foundEq storedEq

/-- A new node at the head of one chain. -/
theorem push (chains : Buckets store heads buckets) {index address : Nat} {head : Ptr}
    {bucket : List (Nat × Data)} {data : Data} (headEq : heads[index]? = some head)
    (bucketEq : buckets[index]? = some bucket)
    (foundNode : store.cell address = some ⟨data, head⟩) :
    Buckets store (heads.set index (some address))
      (buckets.set index ((address, data) :: bucket)) :=
  chains.set index ⟨rfl, head, foundNode, chains.chain index head bucket headEq bucketEq⟩

theorem updateAt (chains : Buckets store heads buckets) (address : Nat) (change : Data → Data) :
    Buckets (store.modify address (.updateData change)) heads
      (buckets.map fun bucket => bucket.map fun entry =>
        (entry.1, if entry.1 = address then change entry.2 else entry.2)) := by
  refine ⟨by simp [chains.length_eq], fun index head bucket headEq bucketEq => ?_⟩
  rw [List.getElem?_map, Option.map_eq_some_iff] at bucketEq
  rcases bucketEq with ⟨old, oldEq, rfl⟩
  exact (chains.chain index head old headEq oldEq).updateAt address change

/-- An array of null pointers has empty buckets. -/
theorem empty (store : Store (ListNode Data)) (count : Nat) :
    Buckets store (List.replicate count none) (List.replicate count []) := by
  refine ⟨by simp, fun index head bucket headEq bucketEq => ?_⟩
  rw [List.getElem?_replicate] at headEq bucketEq
  split at headEq
  · rw [if_pos (by assumption)] at bucketEq
    cases headEq
    cases bucketEq
    rfl
  · cases headEq

end Buckets

/-- Putting an entry into one bucket puts it among all. -/
theorem flatten_set_cons {Entry : Type u} (buckets : List (List Entry)) {index : Nat}
    {bucket : List Entry} (entry : Entry) (bucketEq : buckets[index]? = some bucket) :
    (buckets.set index (entry :: bucket)).flatten.Perm (entry :: buckets.flatten) := by
  induction buckets generalizing index with
  | nil => cases bucketEq
  | cons first rest induction =>
      cases index with
      | zero =>
          cases bucketEq
          exact List.Perm.refl _
      | succ index =>
          rw [List.set_cons_succ, List.flatten_cons, List.flatten_cons]
          exact ((induction bucketEq).append_left first).trans List.perm_middle

/-- Taking the first entry out of one bucket takes it out of all. -/
theorem flatten_set_tail {Entry : Type u} (buckets : List (List Entry)) {index : Nat}
    {bucket : List Entry} {entry : Entry} (bucketEq : buckets[index]? = some (entry :: bucket)) :
    (entry :: (buckets.set index bucket).flatten).Perm buckets.flatten := by
  induction buckets generalizing index with
  | nil => cases bucketEq
  | cons first rest induction =>
      cases index with
      | zero =>
          cases bucketEq
          exact List.Perm.refl _
      | succ index =>
          rw [List.set_cons_succ, List.flatten_cons, List.flatten_cons]
          exact List.perm_middle.symm.trans ((induction bucketEq).append_left first)

end DataStructAlgorithm.Foundation
