import DataStructAlgorithm.Foundation.ForkTree
import DataStructAlgorithm.Foundation.Preorder

/-! # Building a linked binary tree from an array

`_CreatTree` of `BTree/BinaryTree.hpp` and `__CreatTree` of the threaded trees are the
same function over different nodes. `build` is what the constructor of a node makes of
a label, apart from the two links, which it sets to null. -/

namespace DataStructAlgorithm.DataStruct

open Foundation

variable {Label Data : Type} [DecidableEq Label]

/-- The recursion, from an index on. It returns the root of the subtree and the index
that it leaves in the variable shared by all calls. -/
def creatTree (build : Label → Data) (array : List Label) (invalid : Label) :
    (fuel : Nat) → Store (ForkNode Data) → (index : Nat) →
      Outcome (Ptr × Nat × Store (ForkNode Data))
  | 0, _, _ => .error .outOfFuel
  | fuel + 1, heap, index =>
      if array = [] then .error .assertion
      else
        match array[index]? with
        | none => .ok (none, index, heap)
        | some label =>
            if label ≠ invalid then do
              let root : Ptr := some heap.next
              let heap := heap.alloc ⟨build label, none, none⟩
              let (left, index, heap) ← creatTree build array invalid fuel heap (index + 1)
              let heap ← heap.assign root (.setChild .left left)
              let (right, index, heap) ← creatTree build array invalid fuel heap (index + 1)
              let heap ← heap.assign root (.setChild .right right)
              pure (root, index, heap)
            else .ok (none, index, heap)

/-- A constructor that calls the recursion from index 0. -/
def construct (build : Label → Data) (fuel : Nat) (array : List Label) (invalid : Label) :
    Outcome (ForkTree Data) := do
  let (root, _, heap) ← creatTree build array invalid fuel .empty 0
  pure ⟨heap, root⟩

/-- The shape of a tree in memory. -/
def shape : AddrTree Data → BinaryTree Data
  | .nil => .nil
  | .node left _ data right => .node data (shape left) (shape right)

/-- One store has the nodes of another one, and perhaps more. -/
def Extends (store other : Store (ForkNode Data)) : Prop :=
  store.next ≤ other.next ∧ ∀ address < store.next, other.cell address = store.cell address

theorem Extends.refl (store : Store (ForkNode Data)) : Extends store store :=
  ⟨Nat.le_refl _, fun _ _ => rfl⟩

theorem Extends.trans {first second third : Store (ForkNode Data)}
    (left : Extends first second) (right : Extends second third) : Extends first third := by
  refine ⟨left.1.trans right.1, fun address allocated => ?_⟩
  rw [right.2 address (Nat.lt_of_lt_of_le allocated left.1), left.2 address allocated]

theorem Extends.alloc (store : Store (ForkNode Data)) (node : ForkNode Data) :
    Extends store (store.alloc node) :=
  ⟨Nat.le_succ _, fun _ allocated => Store.cell_alloc_of_lt _ _ allocated⟩

/-- A write to a node that the first store does not have. -/
theorem Extends.modify {store other : Store (ForkNode Data)} (extends_ : Extends store other)
    {address : Nat} (new : store.next ≤ address) (change : ForkNode Data → ForkNode Data) :
    Extends store (other.modify address change) := by
  refine ⟨extends_.1, fun queried allocated => ?_⟩
  rw [Store.cell_modify_of_ne _ _ (by omega), extends_.2 queried allocated]

/-- A tree with new nodes only. -/
structure Built (before after : Store (ForkNode Data)) (tree : AddrTree Data) : Prop where
  extends_ : Extends before after
  held : Held after tree
  nodup : tree.addresses.Nodup
  new : ∀ address ∈ tree.addresses, before.next ≤ address

theorem built_nil (store : Store (ForkNode Data)) : Built store store .nil :=
  ⟨.refl store, trivial, List.nodup_nil, nofun⟩

/-- A tree stays in memory when the store is extended. -/
theorem Built.extended {before after more : Store (ForkNode Data)} {tree : AddrTree Data}
    (built : Built before after tree) (extends_ : Extends after more) : Held more tree :=
  built.held.congr fun address member =>
    extends_.2 address (built.held.mem_lt_next address member)

/-- A node whose subtrees have been built one after the other. -/
theorem Built.node {before left right : Store (ForkNode Data)} {data : Data}
    {leftTree rightTree : AddrTree Data}
    (leftBuilt : Built (before.alloc ⟨data, none, none⟩) left leftTree)
    (rightBuilt : Built (left.modify before.next (.setChild .left leftTree.pointer)) right
      rightTree) :
    Built before (right.modify before.next (.setChild .right rightTree.pointer))
      (.node leftTree before.next data rightTree) := by
  have leftNew : ∀ address ∈ leftTree.addresses, before.next < address := leftBuilt.new
  have rootLeft : left.cell before.next = some ⟨data, none, none⟩ := by
    rw [leftBuilt.extends_.2 before.next (Nat.lt_succ_self _), Store.cell_alloc_next]
  have leftMore : Extends before left := (Extends.alloc before _).trans leftBuilt.extends_
  have rightNew : ∀ address ∈ rightTree.addresses, left.next ≤ address := rightBuilt.new
  have rootLt : before.next < left.next := Store.lt_next rootLeft
  have rootRight : right.cell before.next = some ⟨data, leftTree.pointer, none⟩ := by
    rw [rightBuilt.extends_.2 before.next rootLt, Store.cell_modify_same, rootLeft]
    rfl
  have leftOutside : before.next ∉ leftTree.addresses := fun member =>
    Nat.lt_irrefl _ (leftNew _ member)
  have rightOutside : before.next ∉ rightTree.addresses := fun member =>
    Nat.lt_irrefl _ (Nat.lt_of_lt_of_le rootLt (rightNew _ member))
  have leftHeld : Held right leftTree := by
    apply (leftBuilt.held.modify_of_not_mem _ leftOutside).congr
    intro address member
    exact rightBuilt.extends_.2 address (leftBuilt.held.mem_lt_next address member)
  refine ⟨?_, ⟨?_, ?_, ?_⟩, ?_, ?_⟩
  · exact ((leftMore.modify (Nat.le_refl _) _).trans rightBuilt.extends_).modify
      (Nat.le_refl _) _
  · rw [Store.cell_modify_same, rootRight]
    rfl
  · exact leftHeld.modify_of_not_mem _ leftOutside
  · exact rightBuilt.held.modify_of_not_mem _ rightOutside
  · simp only [AddrTree.addresses, List.nodup_append, List.nodup_cons, List.mem_cons]
    refine ⟨leftBuilt.nodup, ⟨rightOutside, rightBuilt.nodup⟩, ?_⟩
    intro address member other otherMember equal
    subst equal
    rcases otherMember with isRoot | inside
    · exact leftOutside (isRoot ▸ member)
    · have early := leftBuilt.held.mem_lt_next address member
      have late := rightNew address inside
      omega
  · intro address member
    simp only [AddrTree.addresses, List.mem_append, List.mem_cons] at member
    rcases member with member | isRoot | member
    · exact Nat.le_of_lt (leftNew address member)
    · exact Nat.le_of_eq isRoot.symm
    · exact Nat.le_of_lt (Nat.lt_of_lt_of_le rootLt (rightNew address member))

section Spec

variable (build : Label → Data) {array : List Label} (invalid : Label)

/-- The recursion builds the tree that reading the array gives. -/
theorem creatTree_spec (nonempty : array ≠ []) (fuel : Nat) (heap : Store (ForkNode Data))
    (index : Nat) (enough : array.length - index < fuel) :
    ∃ (whole : AddrTree Label) (last : Nat) (after : Store (ForkNode Data)),
      creatTree build array invalid fuel heap index = .ok (whole.pointer, last, after) ∧
      Built heap after (whole.map build) ∧ Parses invalid array index (shape whole) last ∧
      index ≤ last := by
  induction fuel generalizing heap index with
  | zero => omega
  | succ fuel induction =>
      cases inside : array[index]? with
      | none =>
          refine ⟨.nil, index, heap, ?_, built_nil heap, .nil ?_, Nat.le_refl _⟩
          · simp [creatTree, nonempty, inside]
          · rw [padded, inside, Option.getD_none]
      | some label =>
          by_cases proper : label ≠ invalid
          · have within := (List.getElem?_eq_some_iff.mp inside).1
            rcases induction (heap.alloc ⟨build label, none, none⟩) (index + 1) (by omega) with
              ⟨leftTree, middle, left, leftMade, leftBuilt, leftParses, leftLe⟩
            have rootLeft : left.cell heap.next = some ⟨build label, none, none⟩ := by
              rw [leftBuilt.extends_.2 heap.next (Nat.lt_succ_self _), Store.cell_alloc_next]
            have rootLt : heap.next < left.next := Store.lt_next rootLeft
            rcases induction (left.modify heap.next (.setChild .left leftTree.pointer))
              (middle + 1) (by omega) with
              ⟨rightTree, last, right, rightMade, rightBuilt, rightParses, rightLe⟩
            have rootRight : right.cell heap.next =
                some ⟨build label, leftTree.pointer, none⟩ := by
              rw [rightBuilt.extends_.2 heap.next rootLt, Store.cell_modify_same, rootLeft]
              rfl
            rw [← AddrTree.pointer_map build leftTree] at rightBuilt
            refine ⟨.node leftTree heap.next label rightTree, last, _, ?_,
              leftBuilt.node rightBuilt, ?_, by omega⟩
            · simp only [creatTree, if_neg nonempty, inside, if_pos proper, leftMade,
                Outcome.ok_bind, Store.assign_some _ rootLeft, rightMade,
                Store.assign_some _ rootRight, AddrTree.pointer_map]
              rfl
            · exact .node (padded_of_getElem? inside) proper leftParses rightParses
          · have equal : label = invalid := Decidable.not_not.mp proper
            refine ⟨.nil, index, heap, ?_, built_nil heap, .nil ?_, Nat.le_refl _⟩
            · simp [creatTree, nonempty, inside, equal]
            · rw [padded, inside, Option.getD_some, equal]

theorem construct_spec (nonempty : array ≠ []) (fuel : Nat) (enough : array.length < fuel) :
    ∃ (built : ForkTree Data) (whole : AddrTree Label) (last : Nat),
      construct build fuel array invalid = .ok built ∧ built.Shows (whole.map build) ∧
      Parses invalid array 0 (shape whole) last := by
  rcases creatTree_spec build invalid nonempty fuel .empty 0 enough with
    ⟨whole, last, after, made, built, parses, _⟩
  refine ⟨⟨after, whole.pointer⟩, whole, last, ?_, ⟨?_, built.held, built.nodup⟩, parses⟩
  · rw [construct, made]
    rfl
  · rw [AddrTree.pointer_map]

end Spec

end DataStructAlgorithm.DataStruct
