import DataStructAlgorithm.DataStruct.BinaryTree.CreatTree
import DataStructAlgorithm.Foundation.LevelOrder

/-! # The array constructor of `BTree/BinaryTree.hpp`

The array says in pre-order which tree to build, with an invalid entry for every
missing child. -/

namespace DataStructAlgorithm.DataStruct.BinaryTree

open Foundation

variable {T : Type} [DecidableEq T]

/-- `BinaryNode`, whose constructor sets both links to null. -/
abbrev Node (T : Type) := ForkNode T

/-- `_CreatTree` -/
def creatTree (fuel : Nat) (a : List T) (invalid : T) (heap : Store (Node T)) (index : Nat) :
    Outcome (Ptr × Nat × Store (Node T)) :=
  DataStruct.creatTree id a invalid fuel heap index

/-- The constructor `BinaryTree(a, n, invalid)`, where `n` is the length of `a`. -/
def ofArray (fuel : Nat) (a : List T) (invalid : T) : Outcome (ForkTree T) := do
  let (root, _, heap) ← creatTree fuel a invalid .empty 0
  pure ⟨heap, root⟩

/-- The tree in memory has a given shape, stored without sharing. -/
def Stores (built : ForkTree T) (tree : BinaryTree T) : Prop :=
  ∃ whole, built.Shows whole ∧ shape whole = tree

/-- The constructor builds the tree that reading the array gives. -/
theorem ofArray_parses (a : List T) (invalid : T) (nonempty : a ≠ []) (fuel : Nat)
    (enough : a.length < fuel) :
    ∃ built tree last, ofArray fuel a invalid = .ok built ∧ Stores built tree ∧
      Parses invalid a 0 tree last := by
  rcases construct_spec id invalid nonempty fuel enough with
    ⟨built, whole, last, made, shows, parses⟩
  rw [AddrTree.map_id] at shows
  exact ⟨built, shape whole, last, made, ⟨whole, shows, rfl⟩, parses⟩

/-- The pre-order array is a faithful encoding: a tree is built from what it is written
as, also when invalid entries at the end are dropped, and what a built tree is written
as agrees with its array and has invalid entries only behind it. -/
theorem ofArray_faithful (invalid : T) :
    (∀ (tree : BinaryTree T) (a dropped : List T) (fuel : Nat), Unmarked invalid tree → a ≠ [] →
      serialize invalid tree = a ++ dropped → (∀ entry ∈ dropped, entry = invalid) →
      a.length < fuel → ∃ built, ofArray fuel a invalid = .ok built ∧ Stores built tree) ∧
    ∀ (a : List T) (fuel : Nat), a ≠ [] → a.length < fuel →
      ∃ built tree, ofArray fuel a invalid = .ok built ∧ Stores built tree ∧
        (∀ index, index < a.length → index < (serialize invalid tree).length →
          (serialize invalid tree)[index]? = a[index]?) ∧
        ∀ index, a.length ≤ index → ∀ entry, (serialize invalid tree)[index]? = some entry →
          entry = invalid := by
  constructor
  · intro tree a dropped fuel unmarked nonempty split gaps enough
    rcases ofArray_parses a invalid nonempty fuel enough with
      ⟨built, other, last, made, stores, parses⟩
    rcases Parses.of_window unmarked 0 (window_of_dropped split gaps) with ⟨_, readBack⟩
    rw [(parses.unique readBack).1] at stores
    exact ⟨built, made, stores⟩
  · intro a fuel nonempty enough
    rcases ofArray_parses a invalid nonempty fuel enough with
      ⟨built, tree, last, made, stores, parses⟩
    have written := parses.serialize_eq.2
    have entryAt : ∀ index, index < (serialize invalid tree).length →
        (serialize invalid tree)[index]? = some (padded invalid a index) := by
      intro index within
      rw [written, getElem?_window within, Nat.zero_add]
    refine ⟨built, tree, made, stores, ?_, ?_⟩
    · intro index early within
      rw [entryAt index within, padded, List.getElem?_eq_getElem early, Option.getD_some]
    · intro index late entry found
      rw [entryAt index (List.getElem?_eq_some_iff.mp found).1, padded_of_le late] at found
      exact (Option.some.inj found).symm

/-- A tree with a left child only, written without the gaps at the end, and an array
that is longer than the tree that it describes. -/
theorem ofArray_faithful_small :
    (∃ built, ofArray 3 [1, 2] (35 : Int) = .ok built ∧
      Stores built (.node 1 (.node 2 .nil .nil) .nil)) ∧
    ∃ built tree, ofArray 5 [1, 35, 35, 7] (35 : Int) = .ok built ∧ Stores built tree ∧
      (∀ index, index < [1, 35, 35, (7 : Int)].length → index < (serialize 35 tree).length →
        (serialize 35 tree)[index]? = [1, 35, 35, 7][index]?) ∧
      ∀ index, [1, 35, 35, (7 : Int)].length ≤ index → ∀ entry,
        (serialize 35 tree)[index]? = some entry → entry = 35 := by
  have faithful := ofArray_faithful (35 : Int)
  constructor
  · exact faithful.1 (.node 1 (.node 2 .nil .nil) .nil) [1, 2] [35, 35, 35] 3 (by decide)
      (by decide) rfl (by decide) (by decide)
  · exact faithful.2 [1, 35, 35, 7] 5 (by decide) (by decide)

end DataStructAlgorithm.DataStruct.BinaryTree

/-! ## The traversals of `BTree/BinaryTree.hpp`

What a traversal prints is the list of the labels. -/

namespace DataStructAlgorithm.DataStruct.BinaryTree

open Foundation

variable {T : Type}

/-- What the traversals read of a node. -/
def reader : NodeView (Node T) T := ⟨ForkNode.left, ForkNode.right, ForkNode.data⟩

/-! ## Recursive traversals -/

/-- `_PreOder` -/
def preOder (heap : Store (Node T)) (fuel : Nat) (root : Ptr) : Outcome (List T) :=
  recursion [] (fun data left right => data :: (left ++ right)) heap fuel root

/-- `_InOder` -/
def inOder (heap : Store (Node T)) (fuel : Nat) (root : Ptr) : Outcome (List T) :=
  recursion [] (fun data left right => left ++ data :: right) heap fuel root

/-- `_PostOder` -/
def postOder (heap : Store (Node T)) (fuel : Nat) (root : Ptr) : Outcome (List T) :=
  recursion [] (fun data left right => left ++ (right ++ [data])) heap fuel root

/-! ## Traversals with a stack or a queue -/

/-- `PreOderNoR` -/
def preOderNoR (fuel : Nat) (tree : ForkTree T) : Outcome (List T) :=
  preOrderWalk reader fuel tree.heap tree.root

/-- `InOderNoR` -/
def inOderNoR (fuel : Nat) (tree : ForkTree T) : Outcome (List T) :=
  inOrder reader fuel tree.heap tree.root

/-- `PostOderNoR` -/
def postOderNoR (fuel : Nat) (tree : ForkTree T) : Outcome (List T) :=
  postOrderWalk reader fuel tree.heap tree.root none

/-- `LevelOder` -/
def levelOder (fuel : Nat) (tree : ForkTree T) : Outcome (List T) :=
  levelWalk reader fuel tree.heap tree.root

/-! ## What they print -/

section Recursive

variable {heap : Store (Node T)} {whole : AddrTree T}

theorem preOder_spec (held : Held heap whole) (fuel : Nat) (enough : whole.height < fuel) :
    preOder heap fuel whole.pointer = .ok whole.preOrder := by
  rw [preOder, recursion_spec held fuel enough, AddrTree.fold_preOrder]

theorem inOder_spec (held : Held heap whole) (fuel : Nat) (enough : whole.height < fuel) :
    inOder heap fuel whole.pointer = .ok whole.toList := by
  rw [inOder, recursion_spec held fuel enough, AddrTree.fold_toList]

theorem postOder_spec (held : Held heap whole) (fuel : Nat) (enough : whole.height < fuel) :
    postOder heap fuel whole.pointer = .ok whole.postOrder := by
  rw [postOder, recursion_spec held fuel enough, AddrTree.fold_postOrder]

end Recursive

section Iterative

variable {tree : ForkTree T} {whole : AddrTree T}

theorem seen_of_shows (shows : tree.Shows whole) : Seen reader tree.heap whole := by
  have seen := shows.held.seen (id : T → T)
  rw [AddrTree.map_id] at seen
  exact seen

theorem preOderNoR_spec (shows : tree.Shows whole) (fuel : Nat) (enough : whole.size < fuel) :
    preOderNoR fuel tree = .ok whole.preOrder := by
  rw [preOderNoR, shows.root_eq]
  exact preOrderWalk_spec (seen_of_shows shows) fuel enough

theorem inOderNoR_spec (shows : tree.Shows whole) (fuel : Nat) (enough : whole.size < fuel) :
    inOderNoR fuel tree = .ok whole.toList := by
  rw [inOderNoR, shows.root_eq]
  exact inOrder_spec (seen_of_shows shows) fuel (by rw [AddrTree.length_toList]; exact enough)

theorem postOderNoR_spec (shows : tree.Shows whole) (fuel : Nat) (enough : 2 * whole.size < fuel) :
    postOderNoR fuel tree = .ok whole.postOrder := by
  rw [postOderNoR, shows.root_eq]
  exact postOrderWalk_spec (seen_of_shows shows) shows.nodup none (Or.inl rfl) fuel enough

theorem levelOder_spec (shows : tree.Shows whole) :
    ∃ enough, ∀ fuel, enough ≤ fuel → levelOder fuel tree = .ok whole.levelOrder := by
  simp only [levelOder, shows.root_eq]
  exact levelWalk_spec (seen_of_shows shows)

end Iterative

end DataStructAlgorithm.DataStruct.BinaryTree
