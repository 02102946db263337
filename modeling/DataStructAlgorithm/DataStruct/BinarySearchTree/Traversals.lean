import DataStructAlgorithm.DataStruct.BinarySearchTree.BinarySearchTree
import DataStructAlgorithm.DataStruct.BinaryTree.BinaryTree

/-! # Two traversals of `BinarySearchTree/BinarySearchTree.h`

They are compared with those of `BTree/BinaryTree.hpp` on a tree of the same shape and labels.
`postOder` starts with `prev` at the root. `levelOder` keeps the nodes on a stack. -/

namespace DataStructAlgorithm.DataStruct.BinarySearchTree

open Foundation

variable {T V : Type}

/-- What the traversals read of a node. -/
def reader : NodeView (Node T V) T := ⟨ForkNode.left, ForkNode.right, fun node => node.data.data⟩

/-- `postOder` -/
def postOder (fuel : Nat) (tree : BinarySearchTree T V) : Outcome (List T) :=
  postOrderWalk reader fuel tree.heap tree.root tree.root

/-- `levelOder` -/
def levelOder (fuel : Nat) (tree : BinarySearchTree T V) : Outcome (List T) :=
  stackWalk reader fuel tree.heap tree.root

/-- A search tree and a binary tree have the same shape and labels. -/
def SameLabels (search : AddrTree (Pair T V)) (whole : AddrTree T) : Prop :=
  shape (search.map Pair.data) = shape whole

theorem postOrder_of_shape {Data : Type} {tree other : AddrTree Data}
    (same : shape tree = shape other) : tree.postOrder = other.postOrder := by
  induction tree generalizing other with
  | nil =>
      cases other with
      | nil => rfl
      | node => cases same
  | node left address data right leftInduction rightInduction =>
      cases other with
      | nil => cases same
      | node otherLeft otherAddress otherData otherRight =>
          injection same with sameData sameLeft sameRight
          rw [AddrTree.postOrder, AddrTree.postOrder, leftInduction sameLeft,
            rightInduction sameRight, sameData]

section Search

variable {search : BinarySearchTree T V} {searchWhole : AddrTree (Pair T V)}

theorem seen_of_shows (shows : search.Shows searchWhole) :
    Seen reader search.heap (searchWhole.map Pair.data) :=
  shows.held.seen Pair.data

theorem postOder_spec (shows : search.Shows searchWhole) (fuel : Nat)
    (enough : 2 * (searchWhole.map Pair.data).size < fuel) :
    postOder fuel search = .ok (searchWhole.map Pair.data).postOrder := by
  have root := searchWhole.pointer_map Pair.data
  rw [postOder, shows.root_eq, ← root]
  exact postOrderWalk_spec (seen_of_shows shows) (by simpa using shows.nodup) _ (Or.inr rfl) fuel
    enough

theorem levelOder_spec (shows : search.Shows searchWhole) (fuel : Nat)
    (enough : (searchWhole.map Pair.data).size < fuel) :
    levelOder fuel search = .ok (searchWhole.map Pair.data).postOrder.reverse := by
  have root := searchWhole.pointer_map Pair.data
  rw [levelOder, shows.root_eq, ← root]
  exact stackWalk_spec (seen_of_shows shows) fuel enough

end Search

/-! ## The comparison -/

section Comparison

variable {tree : ForkTree T} {whole : AddrTree T} {search : BinarySearchTree T V}
  {searchWhole : AddrTree (Pair T V)}

/-- The traversals with a stack print what the recursive ones do. -/
theorem traversals_agree (shows : tree.Shows whole) (searchShows : search.Shows searchWhole)
    (same : SameLabels searchWhole whole) :
    ∃ enough, ∀ fuel, enough ≤ fuel → ∃ pre mid post,
      BinaryTree.preOder tree.heap fuel tree.root = .ok pre ∧
      BinaryTree.preOderNoR fuel tree = .ok pre ∧
      BinaryTree.inOder tree.heap fuel tree.root = .ok mid ∧
      BinaryTree.inOderNoR fuel tree = .ok mid ∧
      BinaryTree.postOder tree.heap fuel tree.root = .ok post ∧
      BinaryTree.postOderNoR fuel tree = .ok post ∧
      postOder fuel search = .ok post := by
  have low := whole.height_le_size
  refine ⟨2 * whole.size + 2 * (searchWhole.map Pair.data).size + 1, fun fuel enough =>
    ⟨_, _, _, ?_, BinaryTree.preOderNoR_spec shows fuel (by omega), ?_,
      BinaryTree.inOderNoR_spec shows fuel (by omega), ?_,
      BinaryTree.postOderNoR_spec shows fuel (by omega), ?_⟩⟩
  · rw [shows.root_eq]
    exact BinaryTree.preOder_spec shows.held fuel (by omega)
  · rw [shows.root_eq]
    exact BinaryTree.inOder_spec shows.held fuel (by omega)
  · rw [shows.root_eq]
    exact BinaryTree.postOder_spec shows.held fuel (by omega)
  · rw [postOder_spec searchShows fuel (by omega), postOrder_of_shape same]

/-- `levelOder` of the search tree prints the labels in level order exactly if they read the same
below the topmost node with two children. Where all labels are different there must be no such
node. -/
theorem levelOder_agrees_iff (shows : tree.Shows whole) (searchShows : search.Shows searchWhole)
    (same : SameLabels searchWhole whole) :
    ((∃ enough, ∀ fuel, enough ≤ fuel → ∃ labels, BinaryTree.levelOder fuel tree = .ok labels ∧
        levelOder fuel search = .ok labels ∧ labels = whole.levelOrder) ↔
      ∀ left right, whole.topFork = some (left, right) →
        right.postOrder.reverse ++ left.postOrder.reverse = AddrTree.levelOrderOf left right) ∧
    (whole.toList.Nodup →
      ((∀ left right, whole.topFork = some (left, right) →
          right.postOrder.reverse ++ left.postOrder.reverse = AddrTree.levelOrderOf left right) ↔
        AddrTree.Unforked whole)) := by
  rcases BinaryTree.levelOder_spec shows with ⟨bound, byLevel⟩
  constructor
  · rw [← AddrTree.reverse_postOrder_eq_iff]
    constructor
    · rintro ⟨enough, agree⟩
      rcases agree (enough + (searchWhole.map Pair.data).size + 1) (by omega) with
        ⟨labels, _, returned, rfl⟩
      rw [levelOder_spec searchShows _ (by omega), postOrder_of_shape same] at returned
      exact Except.ok.inj returned
    · intro equal
      refine ⟨bound + (searchWhole.map Pair.data).size + 1, fun fuel enough =>
        ⟨_, byLevel fuel (by omega), ?_, rfl⟩⟩
      rw [levelOder_spec searchShows fuel (by omega), postOrder_of_shape same, equal]
  · intro distinct
    rw [← AddrTree.topFork_eq_none_iff]
    constructor
    · intro coincide
      by_contra forked
      rcases Option.ne_none_iff_exists'.mp forked with ⟨⟨left, right⟩, found⟩
      exact AddrTree.topFork_differs found distinct (coincide left right found)
    · intro unforked left right found
      cases unforked.symm.trans found

end Comparison

/-! ## Small trees -/

/-- A root with two children. -/
def threeNodes : ForkTree Nat where
  heap := ((Store.empty.alloc ⟨2, some 1, some 2⟩).alloc ⟨1, none, none⟩).alloc ⟨3, none, none⟩
  root := some 0

def threePairs : BinarySearchTree Nat Nat where
  heap := ((Store.empty.alloc ⟨⟨2, 0⟩, some 1, some 2⟩).alloc ⟨⟨1, 0⟩, none, none⟩).alloc
    ⟨⟨3, 0⟩, none, none⟩
  root := some 0

theorem threeNodes_shows :
    threeNodes.Shows (.node (.node .nil 1 1 .nil) 0 2 (.node .nil 2 3 .nil)) :=
  ⟨rfl, ⟨rfl, ⟨rfl, trivial, trivial⟩, ⟨rfl, trivial, trivial⟩⟩, by decide⟩

theorem threePairs_shows :
    threePairs.Shows (.node (.node .nil 1 ⟨1, 0⟩ .nil) 0 ⟨2, 0⟩ (.node .nil 2 ⟨3, 0⟩ .nil)) :=
  ⟨rfl, ⟨rfl, ⟨rfl, trivial, trivial⟩, ⟨rfl, trivial, trivial⟩⟩, by decide⟩

theorem traversals_agree_three :
    ∃ enough, ∀ fuel, enough ≤ fuel → ∃ pre mid post,
      BinaryTree.preOder threeNodes.heap fuel threeNodes.root = .ok pre ∧
      BinaryTree.preOderNoR fuel threeNodes = .ok pre ∧
      BinaryTree.inOder threeNodes.heap fuel threeNodes.root = .ok mid ∧
      BinaryTree.inOderNoR fuel threeNodes = .ok mid ∧
      BinaryTree.postOder threeNodes.heap fuel threeNodes.root = .ok post ∧
      BinaryTree.postOderNoR fuel threeNodes = .ok post ∧
      postOder fuel threePairs = .ok post :=
  traversals_agree threeNodes_shows threePairs_shows rfl

theorem levelOder_agrees_iff_three :
    ¬∃ enough, ∀ fuel, enough ≤ fuel → ∃ labels,
      BinaryTree.levelOder fuel threeNodes = .ok labels ∧ levelOder fuel threePairs = .ok labels ∧
        labels = (AddrTree.node (.node .nil 1 1 .nil) 0 2 (.node .nil 2 3 .nil)).levelOrder := by
  rw [(levelOder_agrees_iff threeNodes_shows threePairs_shows rfl).1]
  intro coincide
  exact absurd (coincide _ _ rfl) (by decide)

/-- The right child comes before the left one. -/
theorem levelOder_swaps_children :
    BinaryTree.levelOder 5 threeNodes = .ok [2, 1, 3] ∧ levelOder 5 threePairs = .ok [2, 3, 1] :=
  ⟨rfl, rfl⟩

end DataStructAlgorithm.DataStruct.BinarySearchTree
