import DataStructAlgorithm.Foundation.Store

/-! # Binary trees linked in a store

Nodes have pointers to their children and to their parent. `AddrTree` is the
shape such nodes take in a store, a `Context` is the path from a subtree up to
the root, and `Represents` ties the two to the pointers that are stored. -/

namespace DataStructAlgorithm.Foundation

inductive Side
  | left
  | right
  deriving DecidableEq, Repr

def Side.other : Side → Side
  | .left => .right
  | .right => .left

@[simp] theorem Side.other_other (side : Side) : side.other.other = side := by
  cases side <;> rfl

@[simp] theorem Side.other_ne (side : Side) : side.other ≠ side := by
  cases side <;> decide

theorem Side.eq_other_of_ne {side given : Side} (different : side ≠ given) :
    side = given.other := by
  cases side <;> cases given <;> first | rfl | exact absurd rfl different

/-- A stored tree node: its payload and its three links. -/
structure TreeNode (Data : Type u) where
  data : Data
  left : Ptr
  right : Ptr
  parent : Ptr
  deriving Repr

namespace TreeNode

def child (node : TreeNode Data) : Side → Ptr
  | .left => node.left
  | .right => node.right

def setChild (side : Side) (pointer : Ptr) (node : TreeNode Data) : TreeNode Data :=
  match side with
  | .left => { node with left := pointer }
  | .right => { node with right := pointer }

def setParent (pointer : Ptr) (node : TreeNode Data) : TreeNode Data :=
  { node with parent := pointer }

def updateData (change : Data → Data) (node : TreeNode Data) : TreeNode Data :=
  { node with data := change node.data }

/-- The node whose child on `side` is `near` and whose other child is `far`. -/
def oriented (side : Side) (data : Data) (near far parent : Ptr) : TreeNode Data :=
  match side with
  | .left => ⟨data, near, far, parent⟩
  | .right => ⟨data, far, near, parent⟩

section Oriented

variable (side : Side) (data : Data) (near far parent pointer : Ptr)

@[simp] theorem oriented_data : (oriented side data near far parent).data = data := by
  cases side <;> rfl

@[simp] theorem oriented_parent : (oriented side data near far parent).parent = parent := by
  cases side <;> rfl

@[simp] theorem oriented_child_same :
    (oriented side data near far parent).child side = near := by
  cases side <;> rfl

@[simp] theorem oriented_child_other :
    (oriented side data near far parent).child side.other = far := by
  cases side <;> rfl

@[simp] theorem setParent_oriented :
    (oriented side data near far parent).setParent pointer =
      oriented side data near far pointer := by
  cases side <;> rfl

@[simp] theorem setChild_oriented_same :
    (oriented side data near far parent).setChild side pointer =
      oriented side data pointer far parent := by
  cases side <;> rfl

@[simp] theorem setChild_oriented_other :
    (oriented side data near far parent).setChild side.other pointer =
      oriented side data near pointer parent := by
  cases side <;> rfl

@[simp] theorem updateData_oriented (change : Data → Data) :
    (oriented side data near far parent).updateData change =
      oriented side (change data) near far parent := by
  cases side <;> rfl

theorem oriented_other :
    oriented side.other data near far parent = oriented side data far near parent := by
  cases side <;> rfl

end Oriented

end TreeNode

/-! ## Shapes and contexts -/

/-- A binary tree whose nodes carry the address they are stored at. -/
inductive AddrTree (Data : Type u)
  | nil
  | node (left : AddrTree Data) (address : Nat) (data : Data) (right : AddrTree Data)

namespace AddrTree

def pointer : AddrTree Data → Ptr
  | .nil => none
  | .node _ address _ _ => some address

def addresses : AddrTree Data → List Nat
  | .nil => []
  | .node left address _ right => left.addresses ++ address :: right.addresses

/-- The nodes in order, each as its address and its payload. -/
def entries : AddrTree Data → List (Nat × Data)
  | .nil => []
  | .node left address data right => left.entries ++ (address, data) :: right.entries

/-- The payloads in order. -/
def toList (tree : AddrTree Data) : List Data :=
  tree.entries.map Prod.snd

def height : AddrTree Data → Nat
  | .nil => 0
  | .node left _ _ right => max left.height right.height + 1

/-- Change every payload. -/
def map (change : Data → Other) : AddrTree Data → AddrTree Other
  | .nil => .nil
  | .node left address data right =>
      .node (left.map change) address (change data) (right.map change)

/-- Change the payload of the node stored at an address. -/
def updateAt (address : Nat) (change : Data → Data) : AddrTree Data → AddrTree Data
  | .nil => .nil
  | .node left here data right =>
      .node (left.updateAt address change) here
        (if here = address then change data else data) (right.updateAt address change)

/-- The node whose subtree on `side` is `near` and whose other subtree is `far`. -/
def oriented (side : Side) (near : AddrTree Data) (address : Nat) (data : Data)
    (far : AddrTree Data) : AddrTree Data :=
  match side with
  | .left => .node near address data far
  | .right => .node far address data near

@[simp] theorem pointer_nil : (.nil : AddrTree Data).pointer = none := rfl

@[simp] theorem pointer_node (left : AddrTree Data) (address : Nat) (data : Data)
    (right : AddrTree Data) : (node left address data right).pointer = some address := rfl

theorem eq_nil_of_pointer {tree : AddrTree Data} (none : tree.pointer = none) : tree = .nil := by
  cases tree with
  | nil => rfl
  | node left address data right => cases none

@[simp] theorem pointer_oriented (side : Side) (near : AddrTree Data) (address : Nat)
    (data : Data) (far : AddrTree Data) :
    (oriented side near address data far).pointer = some address := by
  cases side <;> rfl

theorem oriented_ne_nil (side : Side) (near : AddrTree Data) (address : Nat) (data : Data)
    (far : AddrTree Data) : oriented side near address data far ≠ .nil := by
  cases side <;> simp [oriented]

theorem mem_addresses_of_pointer {tree : AddrTree Data} {address : Nat}
    (equal : tree.pointer = some address) : address ∈ tree.addresses := by
  cases tree with
  | nil => cases equal
  | node left other data right =>
      cases equal
      simp [addresses]

theorem oriented_other (side : Side) (near : AddrTree Data) (address : Nat)
    (data : Data) (far : AddrTree Data) :
    oriented side.other near address data far = oriented side far address data near := by
  cases side <;> rfl

@[simp] theorem pointer_updateAt (address : Nat) (change : Data → Data)
    (tree : AddrTree Data) : (tree.updateAt address change).pointer = tree.pointer := by
  cases tree <;> rfl

@[simp] theorem addresses_updateAt (address : Nat) (change : Data → Data)
    (tree : AddrTree Data) : (tree.updateAt address change).addresses = tree.addresses := by
  induction tree with
  | nil => rfl
  | node left here data right leftEqual rightEqual =>
      simp [updateAt, addresses, leftEqual, rightEqual]

theorem entries_updateAt (address : Nat) (change : Data → Data) (tree : AddrTree Data) :
    (tree.updateAt address change).entries = tree.entries.map fun entry =>
      (entry.1, if entry.1 = address then change entry.2 else entry.2) := by
  induction tree with
  | nil => rfl
  | node left here data right leftEqual rightEqual =>
      simp [updateAt, entries, leftEqual, rightEqual]

theorem mem_oriented (side : Side) (near : AddrTree Data) (address : Nat) (data : Data)
    (far : AddrTree Data) (queried : Nat) :
    queried ∈ (oriented side near address data far).addresses ↔
      queried = address ∨ queried ∈ near.addresses ∨ queried ∈ far.addresses := by
  cases side <;> simp [oriented, addresses] <;> grind

theorem nodup_oriented (side : Side) (near : AddrTree Data) (address : Nat) (data : Data)
    (far : AddrTree Data) :
    (oriented side near address data far).addresses.Nodup ↔
      address ∉ near.addresses ∧ address ∉ far.addresses ∧ near.addresses.Nodup ∧
        far.addresses.Nodup ∧ ∀ queried ∈ near.addresses, queried ∉ far.addresses := by
  cases side <;> simp [oriented, addresses, List.nodup_append] <;> grind

section Parts

variable {left right : AddrTree Data} {address : Nat} {data : Data}

theorem mem_node {queried : Nat} :
    queried ∈ (node left address data right).addresses ↔
      queried ∈ left.addresses ∨ queried = address ∨ queried ∈ right.addresses := by
  rw [addresses, List.mem_append, List.mem_cons]

/-- The addresses of two subtrees and of their root are apart. -/
structure Apart (left : AddrTree Data) (address : Nat) (right : AddrTree Data) : Prop where
  leftNodup : left.addresses.Nodup
  rightNodup : right.addresses.Nodup
  notLeft : address ∉ left.addresses
  notRight : address ∉ right.addresses
  disjoint : ∀ queried, queried ∈ left.addresses → queried ∉ right.addresses

theorem Apart.of_nodup (nodup : (node left address data right).addresses.Nodup) :
    Apart left address right := by
  simp only [addresses, List.nodup_append, List.nodup_cons, List.mem_cons] at nodup
  exact ⟨nodup.1, nodup.2.1.2, fun member => nodup.2.2 _ member _ (Or.inl rfl) rfl, nodup.2.1.1,
    fun queried inLeft inRight => nodup.2.2 _ inLeft _ (Or.inr inRight) rfl⟩

end Parts

/-- Rotating a tree keeps the order of its nodes. -/
theorem addresses_rotate (side : Side) (near : AddrTree Data) (address : Nat) (data : Data)
    (inner : AddrTree Data) (lifted : Nat) (liftedData : Data) (far : AddrTree Data) :
    (oriented side (oriented side near address data inner) lifted liftedData far).addresses =
      (oriented side near address data
        (oriented side inner lifted liftedData far)).addresses := by
  cases side <;> simp [oriented, addresses]

/-- Every non-empty tree is `oriented` to a given side. -/
theorem exists_oriented (side : Side) (left : AddrTree Data) (address : Nat)
    (data : Data) (right : AddrTree Data) :
    ∃ near far, AddrTree.node left address data right = oriented side near address data far := by
  cases side with
  | left => exact ⟨left, right, rfl⟩
  | right => exact ⟨right, left, rfl⟩

/-- Induction that treats the two children alike, whichever is called the near one. -/
theorem oriented_induction (side : Side) {motive : AddrTree Data → Prop} (nil : motive .nil)
    (oriented : ∀ near address data far, motive near → motive far →
      motive (.oriented side near address data far)) (tree : AddrTree Data) : motive tree := by
  induction tree with
  | nil => exact nil
  | node left address data right leftInduction rightInduction =>
      cases side with
      | left => exact oriented left address data right leftInduction rightInduction
      | right => exact oriented right address data left rightInduction leftInduction

/-- The nodes as a walk towards `towards` meets them. -/
def walk (towards : Side) (tree : AddrTree Data) : List (Nat × Data) :=
  match towards with
  | .left => tree.entries.reverse
  | .right => tree.entries

@[simp] theorem walk_left (tree : AddrTree Data) : tree.walk .left = tree.entries.reverse := rfl

@[simp] theorem walk_right (tree : AddrTree Data) : tree.walk .right = tree.entries := rfl

@[simp] theorem walk_nil (towards : Side) : (nil : AddrTree Data).walk towards = [] := by
  cases towards <;> rfl

theorem walk_oriented (towards : Side) (near : AddrTree Data) (address : Nat) (data : Data)
    (far : AddrTree Data) :
    (oriented towards.other near address data far).walk towards =
      near.walk towards ++ (address, data) :: far.walk towards := by
  cases towards <;> simp [walk, oriented, Side.other, entries]

@[simp] theorem height_oriented (side : Side) (near : AddrTree Data) (address : Nat)
    (data : Data) (far : AddrTree Data) :
    (oriented side near address data far).height = max near.height far.height + 1 := by
  cases side <;> simp [oriented, height, Nat.max_comm]

theorem map_fst_entries (tree : AddrTree Data) : tree.entries.map Prod.fst = tree.addresses := by
  induction tree with
  | nil => rfl
  | node left address data right leftEqual rightEqual =>
      simp [addresses, entries, leftEqual, rightEqual]

@[simp] theorem toList_nil : toList (.nil : AddrTree Data) = [] := rfl

@[simp] theorem toList_node (left : AddrTree Data) (address : Nat) (data : Data)
    (right : AddrTree Data) :
    (node left address data right).toList = left.toList ++ data :: right.toList := by
  simp [toList, entries]

@[simp] theorem pointer_map (change : Data → Other) (tree : AddrTree Data) :
    (tree.map change).pointer = tree.pointer := by
  cases tree <;> rfl

theorem map_id (tree : AddrTree Data) : tree.map id = tree := by
  induction tree with
  | nil => rfl
  | node left address data right leftInduction rightInduction =>
      rw [map, leftInduction, rightInduction, id_eq]

@[simp] theorem addresses_map (change : Data → Other) (tree : AddrTree Data) :
    (tree.map change).addresses = tree.addresses := by
  induction tree with
  | nil => rfl
  | node left address data right leftInduction rightInduction =>
      rw [map, addresses, addresses, leftInduction, rightInduction]

@[simp] theorem toList_map (change : Data → Other) (tree : AddrTree Data) :
    (tree.map change).toList = tree.toList.map change := by
  induction tree with
  | nil => rfl
  | node left address data right leftEqual rightEqual => simp [map, leftEqual, rightEqual]

theorem height_le_length (tree : AddrTree Data) : tree.height ≤ tree.toList.length := by
  induction tree with
  | nil => exact Nat.le_refl 0
  | node left address data right leftBound rightBound =>
      simp only [height, toList_node, List.length_append, List.length_cons]
      omega

theorem height_le_addresses (tree : AddrTree Data) : tree.height ≤ tree.addresses.length := by
  have bound := tree.height_le_length
  rw [toList, List.length_map] at bound
  rw [← map_fst_entries, List.length_map]
  exact bound

end AddrTree

/-- One step of the path from a subtree to the root: the parent, which has the
subtree on `side` and `sibling` on the other side. -/
structure Frame (Data : Type u) where
  side : Side
  address : Nat
  data : Data
  sibling : AddrTree Data

/-- The path from a subtree to the root, the parent first. -/
abbrev Context (Data : Type u) := List (Frame Data)

namespace Frame

def fill (frame : Frame Data) (tree : AddrTree Data) : AddrTree Data :=
  .oriented frame.side tree frame.address frame.data frame.sibling

/-- The node a frame stands for, given its pointer to the subtree and to its parent. -/
def node (frame : Frame Data) (focus parent : Ptr) : TreeNode Data :=
  .oriented frame.side frame.data focus frame.sibling.pointer parent

/-- The nodes of a frame that come before the focus in order. -/
def before (frame : Frame Data) : List (Nat × Data) :=
  match frame.side with
  | .left => []
  | .right => frame.sibling.entries ++ [(frame.address, frame.data)]

/-- The nodes of a frame that come after the focus in order. -/
def after (frame : Frame Data) : List (Nat × Data) :=
  match frame.side with
  | .left => (frame.address, frame.data) :: frame.sibling.entries
  | .right => []

theorem entries_fill (frame : Frame Data) (tree : AddrTree Data) :
    (frame.fill tree).entries = frame.before ++ tree.entries ++ frame.after := by
  cases frame with
  | mk side address data sibling =>
      cases side <;>
        simp [fill, before, after, AddrTree.oriented, AddrTree.entries]

@[simp] theorem pointer_fill (frame : Frame Data) (tree : AddrTree Data) :
    (frame.fill tree).pointer = some frame.address := by
  simp [fill]

end Frame

namespace Context

def parent : Context Data → Ptr
  | [] => none
  | frame :: _ => some frame.address

def plug (tree : AddrTree Data) : Context Data → AddrTree Data
  | [] => tree
  | frame :: rest => plug (frame.fill tree) rest

/-- The addresses of the path and of the subtrees beside it. -/
def addresses : Context Data → List Nat
  | [] => []
  | frame :: rest => frame.address :: frame.sibling.addresses ++ addresses rest

def before : Context Data → List (Nat × Data)
  | [] => []
  | frame :: rest => before rest ++ frame.before

def after : Context Data → List (Nat × Data)
  | [] => []
  | frame :: rest => frame.after ++ after rest

/-- The nodes outside the focus that a walk towards `towards` still has ahead of it. -/
def ahead (towards : Side) (context : Context Data) : List (Nat × Data) :=
  match towards with
  | .left => (before context).reverse
  | .right => after context

@[simp] theorem ahead_left (context : Context Data) :
    ahead .left context = (before context).reverse := rfl

@[simp] theorem ahead_right (context : Context Data) : ahead .right context = after context := rfl

@[simp] theorem ahead_nil (towards : Side) : ahead towards ([] : Context Data) = [] := by
  cases towards <;> rfl

/-- A walk leaves a near subtree for its parent. -/
theorem ahead_near {towards : Side} {frame : Frame Data} (near : frame.side = towards.other)
    (rest : Context Data) :
    ahead towards (frame :: rest) =
      (frame.address, frame.data) :: frame.sibling.walk towards ++ ahead towards rest := by
  cases towards with
  | left => simp [ahead, before, Frame.before, near, Side.other, AddrTree.walk]
  | right => simp [ahead, after, Frame.after, near, Side.other, AddrTree.walk]

/-- A walk leaves a far subtree for whatever follows the parent. -/
theorem ahead_far {towards : Side} {frame : Frame Data} (far : frame.side = towards)
    (rest : Context Data) : ahead towards (frame :: rest) = ahead towards rest := by
  cases towards with
  | left => simp [ahead, before, Frame.before, far]
  | right => simp [ahead, after, Frame.after, far]

@[simp] theorem plug_nil (tree : AddrTree Data) : plug tree [] = tree := rfl

@[simp] theorem plug_cons (tree : AddrTree Data) (frame : Frame Data)
    (rest : Context Data) : plug tree (frame :: rest) = plug (frame.fill tree) rest := rfl

@[simp] theorem parent_nil : parent ([] : Context Data) = none := rfl

@[simp] theorem parent_cons (frame : Frame Data) (rest : Context Data) :
    parent (frame :: rest) = some frame.address := rfl

theorem entries_plug (tree : AddrTree Data) (context : Context Data) :
    (plug tree context).entries = before context ++ tree.entries ++ after context := by
  induction context generalizing tree with
  | nil => simp [before, after]
  | cons frame rest induction =>
      rw [plug_cons, induction, Frame.entries_fill]
      simp [before, after]

theorem addresses_plug (tree : AddrTree Data) (context : Context Data) :
    (plug tree context).addresses.Perm (tree.addresses ++ addresses context) := by
  induction context generalizing tree with
  | nil => simp [addresses]
  | cons frame rest induction =>
      rw [plug_cons]
      refine (induction (frame.fill tree)).trans ?_
      rw [addresses, ← List.append_assoc]
      apply List.Perm.append_right
      cases frame with
      | mk side address data sibling =>
          cases side with
          | left => exact List.Perm.refl _
          | right =>
              simp only [Frame.fill, AddrTree.oriented, AddrTree.addresses]
              refine List.perm_append_comm.trans ?_
              simp only [List.cons_append]
              exact List.perm_middle.symm

theorem length_le_height (tree : AddrTree Data) (context : Context Data) :
    tree.height + context.length ≤ (plug tree context).height := by
  induction context generalizing tree with
  | nil => simp
  | cons frame rest induction =>
      have above := induction (frame.fill tree)
      have grown : tree.height + 1 ≤ (frame.fill tree).height := by
        cases frame with
        | mk side address data sibling =>
            cases side <;> simp only [Frame.fill, AddrTree.oriented, AddrTree.height] <;> omega
      simp only [List.length_cons, plug_cons]
      omega

/-- Only the pointer of the focus matters for the pointer to the whole tree. -/
theorem pointer_plug_congr {tree other : AddrTree Data} (equal : tree.pointer = other.pointer)
    (context : Context Data) :
    (plug tree context).pointer = (plug other context).pointer := by
  induction context generalizing tree other with
  | nil => exact equal
  | cons frame rest induction => exact induction (by simp)

theorem mem_addresses_of_parent {context : Context Data} {address : Nat}
    (equal : parent context = some address) : address ∈ context.addresses := by
  cases context with
  | nil => cases equal
  | cons frame rest =>
      cases equal
      simp [addresses]

theorem exists_pointer_plug (tree : AddrTree Data) (frame : Frame Data) (rest : Context Data) :
    ∃ address, (plug tree (frame :: rest)).pointer = some address := by
  induction rest generalizing frame tree with
  | nil => exact ⟨frame.address, by simp⟩
  | cons next rest induction => exact induction (frame.fill tree) next

/-- The pointer to the whole tree depends on the focus only at the root. -/
theorem pointer_plug_cons (tree other : AddrTree Data) (frame : Frame Data)
    (rest : Context Data) :
    (plug tree (frame :: rest)).pointer = (plug other (frame :: rest)).pointer := by
  rw [plug_cons, plug_cons other]
  exact pointer_plug_congr (by simp) rest

end Context

/-! ## Linking -/

/-- The store holds the nodes of a tree, each with its children and parent. -/
def Linked (store : Store (TreeNode Data)) (parent : Ptr) : AddrTree Data → Prop
  | .nil => True
  | .node left address data right =>
      store.cell address = some ⟨data, left.pointer, right.pointer, parent⟩ ∧
        Linked store (some address) left ∧ Linked store (some address) right

/-- The store holds the nodes of a context around a subtree at `focus`. -/
def LinkedContext (store : Store (TreeNode Data)) (focus : Ptr) : Context Data → Prop
  | [] => True
  | frame :: rest =>
      store.cell frame.address = some (frame.node focus (Context.parent rest)) ∧
        Linked store (some frame.address) frame.sibling ∧
        LinkedContext store (some frame.address) rest

namespace Linked

variable {store other : Store (TreeNode Data)}

theorem oriented_iff (side : Side) (parent : Ptr) (near far : AddrTree Data)
    (address : Nat) (data : Data) :
    Linked store parent (.oriented side near address data far) ↔
      store.cell address =
          some (.oriented side data near.pointer far.pointer parent) ∧
        Linked store (some address) near ∧ Linked store (some address) far := by
  cases side with
  | left => exact Iff.rfl
  | right =>
      constructor
      · intro parts
        exact ⟨parts.1, parts.2.2, parts.2.1⟩
      · intro parts
        exact ⟨parts.1, parts.2.2, parts.2.1⟩

theorem mem_lt_next {parent : Ptr} {tree : AddrTree Data} (linked : Linked store parent tree) :
    ∀ address ∈ tree.addresses, address < store.next := by
  induction tree generalizing parent with
  | nil => intro address member; cases member
  | node left address data right leftBound rightBound =>
      rcases linked with ⟨found, leftLinked, rightLinked⟩
      intro queried member
      simp only [AddrTree.addresses, List.mem_append, List.mem_cons] at member
      rcases member with member | rfl | member
      · exact leftBound leftLinked queried member
      · exact Store.lt_next found
      · exact rightBound rightLinked queried member

/-- A tree stays linked when its own cells are unchanged. -/
theorem congr {parent : Ptr} {tree : AddrTree Data} (linked : Linked store parent tree)
    (same : ∀ address ∈ tree.addresses, other.cell address = store.cell address) :
    Linked other parent tree := by
  induction tree generalizing parent with
  | nil => trivial
  | node left address data right leftInduction rightInduction =>
      rcases linked with ⟨found, leftLinked, rightLinked⟩
      refine ⟨?_, leftInduction leftLinked ?_, rightInduction rightLinked ?_⟩
      · rw [same address (by simp [AddrTree.addresses]), found]
      · exact fun queried member => same queried (by simp [AddrTree.addresses, member])
      · exact fun queried member => same queried (by simp [AddrTree.addresses, member])

theorem modify_of_not_mem {parent : Ptr} {tree : AddrTree Data}
    (linked : Linked store parent tree) {address : Nat}
    (change : TreeNode Data → TreeNode Data) (outside : address ∉ tree.addresses) :
    Linked (store.modify address change) parent tree := by
  apply linked.congr
  exact store.cell_modify_of_not_mem change outside

/-- Moving a tree under another parent rewrites the parent link of its root only. -/
theorem reparent {parent : Ptr} {left right : AddrTree Data} {address : Nat} {data : Data}
    (linked : Linked store parent (.node left address data right)) (pointer : Ptr)
    (nodup : (AddrTree.node left address data right).addresses.Nodup) :
    Linked (store.modify address (TreeNode.setParent pointer)) pointer
      (.node left address data right) := by
  rcases linked with ⟨found, leftLinked, rightLinked⟩
  simp only [AddrTree.addresses, List.nodup_append, List.nodup_cons, List.mem_cons] at nodup
  refine ⟨by simp [found, TreeNode.setParent], ?_, ?_⟩
  · exact leftLinked.modify_of_not_mem _ fun member =>
      nodup.2.2 _ member _ (Or.inl rfl) rfl
  · exact rightLinked.modify_of_not_mem _ nodup.2.1.1

theorem alloc {parent : Ptr} {tree : AddrTree Data} (linked : Linked store parent tree)
    (node : TreeNode Data) : Linked (store.alloc node) parent tree :=
  linked.congr fun address member =>
    Store.cell_alloc_of_lt _ node (linked.mem_lt_next address member)

end Linked

namespace LinkedContext

variable {store other : Store (TreeNode Data)}

theorem congr {focus : Ptr} {context : Context Data}
    (linked : LinkedContext store focus context)
    (same : ∀ address ∈ context.addresses, other.cell address = store.cell address) :
    LinkedContext other focus context := by
  induction context generalizing focus with
  | nil => trivial
  | cons frame rest induction =>
      rcases linked with ⟨found, sibling, above⟩
      refine ⟨?_, sibling.congr ?_, induction above ?_⟩
      · rw [same frame.address (by simp [Context.addresses]), found]
      · exact fun queried member => same queried (by simp [Context.addresses, member])
      · exact fun queried member => same queried (by simp [Context.addresses, member])

theorem modify_of_not_mem {focus : Ptr} {context : Context Data}
    (linked : LinkedContext store focus context) {address : Nat}
    (change : TreeNode Data → TreeNode Data) (outside : address ∉ context.addresses) :
    LinkedContext (store.modify address change) focus context := by
  apply linked.congr
  exact store.cell_modify_of_not_mem change outside

/-- Redirecting the child link of the parent puts another subtree in focus. -/
theorem redirect {focus : Ptr} {frame : Frame Data} {rest : Context Data}
    (linked : LinkedContext store focus (frame :: rest)) (pointer : Ptr)
    (nodup : (Context.addresses (frame :: rest)).Nodup) :
    LinkedContext (store.modify frame.address (TreeNode.setChild frame.side pointer))
      pointer (frame :: rest) := by
  rcases linked with ⟨found, sibling, above⟩
  simp only [Context.addresses, List.cons_append, List.nodup_cons, List.mem_append,
    not_or] at nodup
  refine ⟨by simp [found, Frame.node], ?_, ?_⟩
  · exact sibling.modify_of_not_mem _ nodup.1.1
  · exact above.modify_of_not_mem _ nodup.1.2

theorem mem_lt_next {focus : Ptr} {context : Context Data}
    (linked : LinkedContext store focus context) :
    ∀ address ∈ context.addresses, address < store.next := by
  induction context generalizing focus with
  | nil => intro address member; cases member
  | cons frame rest induction =>
      rcases linked with ⟨found, sibling, above⟩
      intro queried member
      simp only [Context.addresses, List.cons_append, List.mem_cons, List.mem_append] at member
      rcases member with rfl | member | member
      · exact Store.lt_next found
      · exact sibling.mem_lt_next queried member
      · exact induction above queried member

theorem alloc {focus : Ptr} {context : Context Data}
    (linked : LinkedContext store focus context) (node : TreeNode Data) :
    LinkedContext (store.alloc node) focus context :=
  linked.congr fun address member =>
    Store.cell_alloc_of_lt _ node (linked.mem_lt_next address member)

end LinkedContext

theorem linked_plug {store : Store (TreeNode Data)} (tree : AddrTree Data)
    (context : Context Data) :
    Linked store none (Context.plug tree context) ↔
      LinkedContext store tree.pointer context ∧ Linked store (Context.parent context) tree := by
  induction context generalizing tree with
  | nil => simp [LinkedContext]
  | cons frame rest induction =>
      rw [Context.plug_cons, induction, Frame.fill, Linked.oriented_iff]
      simp only [LinkedContext, AddrTree.pointer_oriented, Context.parent_cons, Frame.node]
      constructor
      · intro parts
        rcases parts with ⟨above, found, focus, sibling⟩
        exact ⟨⟨found, sibling, above⟩, focus⟩
      · intro parts
        rcases parts with ⟨⟨found, sibling, above⟩, focus⟩
        exact ⟨above, found, focus, sibling⟩

/-- `root` points to `tree`, stored with consistent links and without sharing. -/
structure Represents (store : Store (TreeNode Data)) (root : Ptr) (tree : AddrTree Data) :
    Prop where
  root_eq : root = tree.pointer
  linked : Linked store none tree
  nodup : tree.addresses.Nodup

/-- The same, with the tree taken apart into a focus and its context. -/
structure RepresentsAt (store : Store (TreeNode Data)) (root : Ptr) (tree : AddrTree Data)
    (context : Context Data) : Prop where
  root_eq : root = (Context.plug tree context).pointer
  focus : Linked store (Context.parent context) tree
  above : LinkedContext store tree.pointer context
  nodup : (tree.addresses ++ Context.addresses context).Nodup

theorem represents_plug {store : Store (TreeNode Data)} {root : Ptr} (tree : AddrTree Data)
    (context : Context Data) :
    Represents store root (Context.plug tree context) ↔
      RepresentsAt store root tree context := by
  constructor
  · intro represents
    rcases represents with ⟨rootEq, linked, nodup⟩
    have parts := (linked_plug tree context).mp linked
    exact ⟨rootEq, parts.2, parts.1, (Context.addresses_plug tree context).nodup_iff.mp nodup⟩
  · intro represents
    rcases represents with ⟨rootEq, focus, above, nodup⟩
    exact ⟨rootEq, (linked_plug tree context).mpr ⟨above, focus⟩,
      (Context.addresses_plug tree context).nodup_iff.mpr nodup⟩

/-- Moving the focus between a subtree and its parent. -/
theorem representsAt_fill {store : Store (TreeNode Data)} {root : Ptr} (tree : AddrTree Data)
    (frame : Frame Data) (rest : Context Data) :
    RepresentsAt store root (frame.fill tree) rest ↔
      RepresentsAt store root tree (frame :: rest) := by
  rw [← represents_plug, ← represents_plug, Context.plug_cons]

/-- A subtree and its sibling are stored at different addresses. -/
theorem RepresentsAt.sibling_ne {store : Store (TreeNode Data)} {root : Ptr}
    {tree : AddrTree Data} {frame : Frame Data} {rest : Context Data}
    (represents : RepresentsAt store root tree (frame :: rest)) (notNil : tree ≠ .nil) :
    frame.sibling.pointer ≠ tree.pointer := by
  intro equal
  have nodup := represents.nodup
  cases tree with
  | nil => exact notNil rfl
  | node left address data right =>
      cases sibling : frame.sibling with
      | nil => simp [sibling, AddrTree.pointer] at equal
      | node _ other _ _ =>
          rw [sibling] at equal
          cases equal
          simp [Context.addresses, sibling, AddrTree.addresses, List.nodup_append] at nodup

/-- A rotation at the focus, given what it has done to each cell: the two rotated
nodes exchange roles and may change their payloads, the inner subtree moves from
one to the other, and the link from above is redirected. -/
theorem RepresentsAt.rotated {store after : Store (TreeNode Data)} {root afterRoot : Ptr}
    {side : Side} {near inner far : AddrTree Data} {parent sub : Nat} {data subData : Data}
    {context : Context Data} (newData newSub : Data)
    (represents : RepresentsAt store root
      (.oriented side near parent data (.oriented side inner sub subData far)) context)
    (rootEq : afterRoot = if context.isEmpty then some sub else root)
    (subCell : after.cell sub =
      some (.oriented side newSub (some parent) far.pointer (Context.parent context)))
    (parentCell : after.cell parent =
      some (.oriented side newData near.pointer inner.pointer (some sub)))
    (innerCell : ∀ address, inner.pointer = some address →
      after.cell address = (store.cell address).map (.setParent (some parent)))
    (frameCell : ∀ frame ∈ context.head?, after.cell frame.address =
      (store.cell frame.address).map (.setChild frame.side (some sub)))
    (elsewhere : ∀ address, address ≠ sub → address ≠ parent →
      some address ≠ inner.pointer → some address ≠ Context.parent context →
      after.cell address = store.cell address) :
    RepresentsAt after afterRoot
      (.oriented side (.oriented side near parent newData inner) sub newSub far) context := by
  rcases represents with ⟨oldRoot, focus, above, nodup⟩
  rcases (Linked.oriented_iff ..).mp focus with ⟨_, nearLinked, lower⟩
  rcases (Linked.oriented_iff ..).mp lower with ⟨_, innerLinked, farLinked⟩
  have addressesEq := AddrTree.addresses_rotate side near parent newData inner sub newSub far
  have split := List.nodup_append.mp nodup
  have apart := split.2.2
  have inside := split.1
  simp only [AddrTree.nodup_oriented, AddrTree.mem_oriented] at inside
  simp only [AddrTree.mem_oriented] at apart
  have parentMem : ∀ address, Context.parent context = some address →
      address ∈ Context.addresses context :=
    fun _ => Context.mem_addresses_of_parent
  have innerMem : ∀ address, inner.pointer = some address → address ∈ inner.addresses :=
    fun _ => AddrTree.mem_addresses_of_pointer
  refine ⟨?_, ?_, ?_, ?_⟩
  · cases context with
    | nil => simpa using rootEq
    | cons frame rest =>
        rw [rootEq, List.isEmpty_cons, if_neg Bool.false_ne_true, oldRoot]
        exact Context.pointer_plug_cons _ _ frame rest
  · refine (Linked.oriented_iff ..).mpr ⟨by simpa using subCell,
      (Linked.oriented_iff ..).mpr ⟨parentCell, ?_, ?_⟩, ?_⟩
    · apply nearLinked.congr
      intro address member
      apply elsewhere <;> grind
    · cases tree : inner with
      | nil => trivial
      | node left address value right =>
          subst inner
          rcases innerLinked with ⟨found, leftLinked, rightLinked⟩
          simp only [AddrTree.addresses, List.mem_append, List.mem_cons, List.nodup_append,
            List.nodup_cons, AddrTree.pointer_node] at inside apart elsewhere innerMem innerCell
          refine ⟨by simp [innerCell address rfl, found, TreeNode.setParent], ?_, ?_⟩
          · apply leftLinked.congr
            intro queried member
            apply elsewhere <;> grind
          · apply rightLinked.congr
            intro queried member
            apply elsewhere <;> grind
    · apply farLinked.congr
      intro address member
      apply elsewhere <;> grind
  · rw [AddrTree.pointer_oriented]
    cases context with
    | nil => trivial
    | cons frame rest =>
        rcases above with ⟨found, siblingLinked, restLinked⟩
        have frameNodup := split.2.1
        simp only [Context.addresses, List.mem_append, List.mem_cons, List.nodup_append,
          List.nodup_cons, List.cons_append] at frameNodup apart
        simp only [Context.parent_cons] at elsewhere
        refine ⟨by simp [frameCell frame rfl, found, Frame.node], ?_, ?_⟩
        · apply siblingLinked.congr
          intro queried member
          apply elsewhere <;> grind
        · apply restLinked.congr
          intro queried member
          apply elsewhere <;> grind
  · rw [addressesEq]
    cases side <;> exact nodup

/-- Changing the payload at the focus changes nothing else. -/
theorem RepresentsAt.updateData {store : Store (TreeNode Data)} {root : Ptr} {side : Side}
    {near far : AddrTree Data} {address : Nat} {data : Data} {context : Context Data}
    (represents : RepresentsAt store root (.oriented side near address data far) context)
    (change : Data → Data) :
    RepresentsAt (store.modify address (.updateData change)) root
      (.oriented side near address (change data) far) context := by
  rcases represents with ⟨rootEq, focus, above, nodup⟩
  rcases (Linked.oriented_iff ..).mp focus with ⟨found, nearLinked, farLinked⟩
  have split := List.nodup_append.mp nodup
  have inside := (AddrTree.mem_oriented side near address data far address).mpr (Or.inl rfl)
  have parts := (AddrTree.nodup_oriented ..).mp split.1
  refine ⟨?_, ?_, ?_, ?_⟩
  · rw [rootEq]
    exact Context.pointer_plug_congr (by simp) context
  · refine (Linked.oriented_iff ..).mpr ⟨?_, ?_, ?_⟩
    · simp [found]
    · exact nearLinked.modify_of_not_mem _ parts.1
    · exact farLinked.modify_of_not_mem _ parts.2.1
  · rw [AddrTree.pointer_oriented] at above ⊢
    exact above.modify_of_not_mem _ fun member => split.2.2 _ inside _ member rfl
  · cases side <;> exact nodup

/-- Writing the payload of one node, given only its address. -/
theorem Linked.updateAt {store : Store (TreeNode Data)} {parent : Ptr} {tree : AddrTree Data}
    (linked : Linked store parent tree) (address : Nat) (change : Data → Data) :
    Linked (store.modify address (.updateData change)) parent
      (tree.updateAt address change) := by
  induction tree generalizing parent with
  | nil => trivial
  | node left here data right leftInduction rightInduction =>
      rcases linked with ⟨found, leftLinked, rightLinked⟩
      refine ⟨?_, leftInduction leftLinked, rightInduction rightLinked⟩
      rw [Store.cell_modify, found]
      split <;> simp [TreeNode.updateData]

theorem Represents.updateAt {store : Store (TreeNode Data)} {root : Ptr} {tree : AddrTree Data}
    (represents : Represents store root tree) (address : Nat) (change : Data → Data) :
    Represents (store.modify address (.updateData change)) root
      (tree.updateAt address change) where
  root_eq := by simpa using represents.root_eq
  linked := represents.linked.updateAt address change
  nodup := by simpa using represents.nodup

/-- Each entry of a represented tree is a cell of the store. -/
theorem Linked.found {store : Store (TreeNode Data)} {parent : Ptr} {tree : AddrTree Data}
    (linked : Linked store parent tree) {address : Nat} {data : Data}
    (member : (address, data) ∈ tree.entries) :
    ∃ node, store.cell address = some node ∧ node.data = data := by
  induction tree generalizing parent with
  | nil => cases member
  | node left here hereData right leftInduction rightInduction =>
      rcases linked with ⟨found, leftLinked, rightLinked⟩
      simp only [AddrTree.entries, List.mem_append, List.mem_cons, Prod.mk.injEq] at member
      rcases member with member | ⟨rfl, rfl⟩ | member
      · exact leftInduction leftLinked member
      · exact ⟨_, found, rfl⟩
      · exact rightInduction rightLinked member

theorem Represents.at_root {store : Store (TreeNode Data)} {root : Ptr} {tree : AddrTree Data}
    (represents : Represents store root tree) : RepresentsAt store root tree [] :=
  (represents_plug tree []).mp represents

end DataStructAlgorithm.Foundation
