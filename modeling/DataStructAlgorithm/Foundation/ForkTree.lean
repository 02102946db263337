import DataStructAlgorithm.Foundation.LinkedTree

/-! # Binary trees without parent links

Nodes point to their children only. A tree is changed through a `Link`, which is
the root variable or a child field of a node: what C++ passes as a reference to a
pointer. The shapes and contexts are those of trees with parent links. -/

namespace DataStructAlgorithm.Foundation

/-- A stored tree node: its payload and the links to its children. -/
structure ForkNode (Data : Type u) where
  data : Data
  left : Ptr
  right : Ptr
  deriving Repr

namespace ForkNode

def child (node : ForkNode Data) : Side → Ptr
  | .left => node.left
  | .right => node.right

def setChild (side : Side) (pointer : Ptr) (node : ForkNode Data) : ForkNode Data :=
  match side with
  | .left => { node with left := pointer }
  | .right => { node with right := pointer }

def updateData (change : Data → Data) (node : ForkNode Data) : ForkNode Data :=
  { node with data := change node.data }

/-- The node whose child on `side` is `near` and whose other child is `far`. -/
def oriented (side : Side) (data : Data) (near far : Ptr) : ForkNode Data :=
  match side with
  | .left => ⟨data, near, far⟩
  | .right => ⟨data, far, near⟩

section Oriented

variable (side : Side) (data : Data) (near far pointer : Ptr)

@[simp] theorem oriented_data : (oriented side data near far).data = data := by
  cases side <;> rfl

@[simp] theorem oriented_child : (oriented side data near far).child side = near := by
  cases side <;> rfl

@[simp] theorem setChild_oriented :
    (oriented side data near far).setChild side pointer =
      oriented side data pointer far := by
  cases side <;> rfl

end Oriented

end ForkNode

/-- A place that holds a pointer into the tree. -/
inductive Link
  | root
  | child (side : Side) (address : Nat)
  deriving DecidableEq, Repr

/-- A tree in memory: its nodes and its root variable. -/
structure ForkTree (Data : Type u) where
  heap : Store (ForkNode Data)
  root : Ptr

namespace ForkTree

def empty : ForkTree Data := ⟨.empty, none⟩

/-- Read the pointer at a link. -/
def follow (tree : ForkTree Data) (link : Link) : Outcome Ptr :=
  match link with
  | .root => .ok tree.root
  | .child side address => do
      let node ← tree.heap.load (some address)
      pure (node.child side)

/-- Overwrite the pointer at a link. -/
def redirect (tree : ForkTree Data) (link : Link) (pointer : Ptr) : Outcome (ForkTree Data) :=
  match link with
  | .root => .ok ⟨tree.heap, pointer⟩
  | .child side address => do
      let heap ← tree.heap.assign (some address) (.setChild side pointer)
      pure ⟨heap, tree.root⟩

end ForkTree

/-! ## Shapes in memory -/

/-- The node a frame stands for, given its pointer to the subtree. -/
def Frame.fork (frame : Frame Data) (focus : Ptr) : ForkNode Data :=
  .oriented frame.side frame.data focus frame.sibling.pointer

@[simp] theorem Frame.fork_data (frame : Frame Data) (focus : Ptr) :
    (frame.fork focus).data = frame.data := by
  simp [Frame.fork]

/-- The link through which a context holds its focus. -/
def Context.link : Context Data → Link
  | [] => .root
  | frame :: _ => .child frame.side frame.address

/-- The store holds the nodes of a tree, each with its children. -/
def Held (store : Store (ForkNode Data)) : AddrTree Data → Prop
  | .nil => True
  | .node left address data right =>
      store.cell address = some ⟨data, left.pointer, right.pointer⟩ ∧
        Held store left ∧ Held store right

/-- The store holds the nodes of a context around a subtree at `focus`. -/
def HeldContext (store : Store (ForkNode Data)) (focus : Ptr) : Context Data → Prop
  | [] => True
  | frame :: rest =>
      store.cell frame.address = some (frame.fork focus) ∧ Held store frame.sibling ∧
        HeldContext store (some frame.address) rest

namespace Held

variable {store other : Store (ForkNode Data)}

theorem oriented_iff (side : Side) (near far : AddrTree Data) (address : Nat) (data : Data) :
    Held store (.oriented side near address data far) ↔
      store.cell address = some (.oriented side data near.pointer far.pointer) ∧
        Held store near ∧ Held store far := by
  cases side with
  | left => exact Iff.rfl
  | right =>
      constructor
      · intro parts
        exact ⟨parts.1, parts.2.2, parts.2.1⟩
      · intro parts
        exact ⟨parts.1, parts.2.2, parts.2.1⟩

theorem found {tree : AddrTree Data} (held : Held store tree) {entry : Nat × Data}
    (member : entry ∈ tree.entries) :
    ∃ node, store.cell entry.1 = some node ∧ node.data = entry.2 := by
  induction tree with
  | nil => cases member
  | node left address data right leftInduction rightInduction =>
      rcases held with ⟨found, leftHeld, rightHeld⟩
      simp only [AddrTree.entries, List.mem_append, List.mem_cons] at member
      rcases member with member | rfl | member
      · exact leftInduction leftHeld member
      · exact ⟨_, found, rfl⟩
      · exact rightInduction rightHeld member

/-- A tree stays in memory when its own cells are unchanged. -/
theorem congr {tree : AddrTree Data} (held : Held store tree)
    (same : ∀ address ∈ tree.addresses, other.cell address = store.cell address) :
    Held other tree := by
  induction tree with
  | nil => trivial
  | node left address data right leftInduction rightInduction =>
      rcases held with ⟨found, leftHeld, rightHeld⟩
      refine ⟨?_, leftInduction leftHeld ?_, rightInduction rightHeld ?_⟩
      · rw [same address (by simp [AddrTree.addresses]), found]
      · exact fun queried member => same queried (by simp [AddrTree.addresses, member])
      · exact fun queried member => same queried (by simp [AddrTree.addresses, member])

theorem mem_lt_next {tree : AddrTree Data} (held : Held store tree) :
    ∀ address ∈ tree.addresses, address < store.next := by
  intro address member
  rw [← AddrTree.map_fst_entries] at member
  rcases List.mem_map.mp member with ⟨entry, entryMem, rfl⟩
  rcases held.found entryMem with ⟨node, found, _⟩
  exact Store.lt_next found

theorem modify_of_not_mem {tree : AddrTree Data} (held : Held store tree) {address : Nat}
    (change : ForkNode Data → ForkNode Data) (outside : address ∉ tree.addresses) :
    Held (store.modify address change) tree := by
  apply held.congr
  exact store.cell_modify_of_not_mem change outside

theorem free_of_not_mem {tree : AddrTree Data} (held : Held store tree) {address : Nat}
    (outside : address ∉ tree.addresses) : Held (store.free address) tree := by
  apply held.congr
  exact store.cell_free_of_not_mem outside

theorem alloc {tree : AddrTree Data} (held : Held store tree) (node : ForkNode Data) :
    Held (store.alloc node) tree :=
  held.congr fun address member =>
    Store.cell_alloc_of_lt _ node (held.mem_lt_next address member)

end Held

namespace HeldContext

variable {store other : Store (ForkNode Data)}

theorem congr {focus : Ptr} {context : Context Data} (held : HeldContext store focus context)
    (same : ∀ address ∈ context.addresses, other.cell address = store.cell address) :
    HeldContext other focus context := by
  induction context generalizing focus with
  | nil => trivial
  | cons frame rest induction =>
      rcases held with ⟨found, sibling, above⟩
      refine ⟨?_, sibling.congr ?_, induction above ?_⟩
      · rw [same frame.address (by simp [Context.addresses]), found]
      · exact fun queried member => same queried (by simp [Context.addresses, member])
      · exact fun queried member => same queried (by simp [Context.addresses, member])

theorem modify_of_not_mem {focus : Ptr} {context : Context Data}
    (held : HeldContext store focus context) {address : Nat}
    (change : ForkNode Data → ForkNode Data) (outside : address ∉ context.addresses) :
    HeldContext (store.modify address change) focus context := by
  apply held.congr
  exact store.cell_modify_of_not_mem change outside

theorem free_of_not_mem {focus : Ptr} {context : Context Data}
    (held : HeldContext store focus context) {address : Nat}
    (outside : address ∉ context.addresses) :
    HeldContext (store.free address) focus context := by
  apply held.congr
  exact store.cell_free_of_not_mem outside

theorem mem_lt_next {focus : Ptr} {context : Context Data}
    (held : HeldContext store focus context) :
    ∀ address ∈ context.addresses, address < store.next := by
  induction context generalizing focus with
  | nil => intro address member; cases member
  | cons frame rest induction =>
      rcases held with ⟨found, sibling, above⟩
      intro queried member
      simp only [Context.addresses, List.cons_append, List.mem_cons, List.mem_append] at member
      rcases member with rfl | member | member
      · exact Store.lt_next found
      · exact sibling.mem_lt_next queried member
      · exact induction above queried member

theorem alloc {focus : Ptr} {context : Context Data}
    (held : HeldContext store focus context) (node : ForkNode Data) :
    HeldContext (store.alloc node) focus context :=
  held.congr fun address member =>
    Store.cell_alloc_of_lt _ node (held.mem_lt_next address member)

end HeldContext

theorem held_plug {store : Store (ForkNode Data)} (tree : AddrTree Data)
    (context : Context Data) :
    Held store (Context.plug tree context) ↔
      HeldContext store tree.pointer context ∧ Held store tree := by
  induction context generalizing tree with
  | nil => simp [HeldContext]
  | cons frame rest induction =>
      rw [Context.plug_cons, induction, Frame.fill, Held.oriented_iff]
      simp only [HeldContext, AddrTree.pointer_oriented, Frame.fork]
      constructor
      · intro parts
        rcases parts with ⟨above, found, focus, sibling⟩
        exact ⟨⟨found, sibling, above⟩, focus⟩
      · intro parts
        rcases parts with ⟨⟨found, sibling, above⟩, focus⟩
        exact ⟨above, found, focus, sibling⟩

namespace ForkTree

/-- The tree in memory has the shape `whole`, stored without sharing. -/
structure Shows (tree : ForkTree Data) (whole : AddrTree Data) : Prop where
  root_eq : tree.root = whole.pointer
  held : Held tree.heap whole
  nodup : whole.addresses.Nodup

/-- The same, with the shape taken apart into a focus and its context. -/
structure ShowsAt (tree : ForkTree Data) (focus : AddrTree Data) (context : Context Data) :
    Prop where
  root_eq : tree.root = (Context.plug focus context).pointer
  held : Held tree.heap focus
  above : HeldContext tree.heap focus.pointer context
  nodup : (focus.addresses ++ Context.addresses context).Nodup

variable {tree : ForkTree Data} {focus : AddrTree Data} {context : Context Data}

theorem shows_empty : Shows (.empty : ForkTree Data) .nil :=
  ⟨rfl, trivial, List.nodup_nil⟩

theorem shows_plug (focus : AddrTree Data) (context : Context Data) :
    Shows tree (Context.plug focus context) ↔ ShowsAt tree focus context := by
  constructor
  · intro shows
    rcases shows with ⟨rootEq, held, nodup⟩
    have parts := (held_plug focus context).mp held
    exact ⟨rootEq, parts.2, parts.1, (Context.addresses_plug focus context).nodup_iff.mp nodup⟩
  · intro shows
    rcases shows with ⟨rootEq, held, above, nodup⟩
    exact ⟨rootEq, (held_plug focus context).mpr ⟨above, held⟩,
      (Context.addresses_plug focus context).nodup_iff.mpr nodup⟩

/-- Moving the focus between a subtree and its parent. -/
theorem showsAt_fill (focus : AddrTree Data) (frame : Frame Data) (rest : Context Data) :
    ShowsAt tree (frame.fill focus) rest ↔ ShowsAt tree focus (frame :: rest) := by
  rw [← shows_plug, ← shows_plug, Context.plug_cons]

/-- The link of a context holds the pointer to its focus. -/
theorem ShowsAt.follow (shows : ShowsAt tree focus context) :
    tree.follow context.link = .ok focus.pointer := by
  cases context with
  | nil => simp [ForkTree.follow, Context.link, shows.root_eq]
  | cons frame rest =>
      have loaded := Store.load_some shows.above.1
      simp [ForkTree.follow, Context.link, loaded, Frame.fork]

/-- Redirecting the link of a context puts another subtree into focus. -/
theorem ShowsAt.redirect (shows : ShowsAt tree focus context) {other : AddrTree Data}
    (held : Held tree.heap other) (nodup : (other.addresses ++ Context.addresses context).Nodup) :
    ∃ after, tree.redirect context.link other.pointer = .ok after ∧
      ShowsAt after other context ∧
      ∀ address, address ∉ Context.addresses context →
        after.heap.cell address = tree.heap.cell address := by
  have apart := List.nodup_append.mp nodup
  cases context with
  | nil => exact ⟨_, rfl, ⟨rfl, held, trivial, nodup⟩, fun _ _ => rfl⟩
  | cons frame rest =>
      rcases shows.above with ⟨found, sibling, above⟩
      have frameNodup := apart.2.1
      simp only [Context.addresses, List.cons_append, List.nodup_cons, List.mem_append,
        not_or] at frameNodup
      have outside : frame.address ∉ other.addresses := by
        intro member
        exact apart.2.2 _ member _ (by simp [Context.addresses]) rfl
      have written : tree.redirect (Context.link (frame :: rest)) other.pointer =
          .ok ⟨tree.heap.modify frame.address (.setChild frame.side other.pointer),
            tree.root⟩ := by
        simp [ForkTree.redirect, Context.link, Store.assign_some _ found]
      refine ⟨_, written, ⟨?_, held.modify_of_not_mem _ outside, ⟨?_, ?_, ?_⟩, nodup⟩, ?_⟩
      · rw [shows.root_eq]
        exact Context.pointer_plug_cons _ _ frame rest
      · simp [found, Frame.fork]
      · exact sibling.modify_of_not_mem _ frameNodup.1.1
      · exact above.modify_of_not_mem _ frameNodup.1.2
      · intro address elsewhere
        refine Store.cell_modify_of_ne _ _ ?_
        intro equal
        exact elsewhere (by simp [Context.addresses, equal])

theorem ShowsAt.alloc (shows : ShowsAt tree focus context) (node : ForkNode Data) :
    ShowsAt ⟨tree.heap.alloc node, tree.root⟩ focus context :=
  ⟨shows.root_eq, shows.held.alloc node, shows.above.alloc node, shows.nodup⟩

/-- A node that is not part of the shape can be freed. -/
theorem ShowsAt.free (shows : ShowsAt tree focus context) {address : Nat}
    (outside : address ∉ focus.addresses) (elsewhere : address ∉ Context.addresses context) :
    ShowsAt ⟨tree.heap.free address, tree.root⟩ focus context :=
  ⟨shows.root_eq, shows.held.free_of_not_mem outside,
    shows.above.free_of_not_mem elsewhere, shows.nodup⟩

/-- Changing the payload of the node in focus. -/
theorem ShowsAt.updateData {left right : AddrTree Data} {address : Nat} {data : Data}
    (shows : ShowsAt tree (.node left address data right) context) (change : Data → Data) :
    ShowsAt ⟨tree.heap.modify address (.updateData change), tree.root⟩
      (.node left address (change data) right) context := by
  rcases shows with ⟨rootEq, ⟨found, leftHeld, rightHeld⟩, above, nodup⟩
  have inside := (List.nodup_append.mp nodup).1
  have apart := (List.nodup_append.mp nodup).2.2
  simp only [AddrTree.addresses, List.nodup_append, List.nodup_cons, List.mem_cons] at inside
  have elsewhere : address ∉ Context.addresses context := fun member =>
    apart address (by simp [AddrTree.addresses]) address member rfl
  refine ⟨?_, ⟨?_, ?_, ?_⟩, above.modify_of_not_mem _ elsewhere, nodup⟩
  · rw [rootEq]
    apply Context.pointer_plug_congr
    rfl
  · simp [found, ForkNode.updateData]
  · exact leftHeld.modify_of_not_mem _ fun member => inside.2.2 _ member _ (Or.inl rfl) rfl
  · exact rightHeld.modify_of_not_mem _ inside.2.1.1

end ForkTree

/-! ## Recursion -/

/-- Combine the results of the subtrees, from the leaves up. -/
def AddrTree.fold (empty : Result) (combine : Data → Result → Result → Result) :
    AddrTree Data → Result
  | .nil => empty
  | .node left _ data right => combine data (left.fold empty combine) (right.fold empty combine)

/-- A function that calls itself for both children and combines what they return. -/
def recursion (empty : Result) (combine : Data → Result → Result → Result)
    (heap : Store (ForkNode Data)) : (fuel : Nat) → (root : Ptr) → Outcome Result
  | 0, _ => .error .outOfFuel
  | _ + 1, none => .ok empty
  | fuel + 1, some root => do
      let node ← heap.load (some root)
      let left ← recursion empty combine heap fuel node.left
      let right ← recursion empty combine heap fuel node.right
      pure (combine node.data left right)

theorem recursion_spec {Result Data : Type} {empty : Result}
    {combine : Data → Result → Result → Result} {heap : Store (ForkNode Data)}
    {tree : AddrTree Data} (held : Held heap tree) (fuel : Nat) (enough : tree.height < fuel) :
    recursion empty combine heap fuel tree.pointer = .ok (tree.fold empty combine) := by
  induction tree generalizing fuel with
  | nil =>
      cases fuel with
      | zero => omega
      | succ fuel => rfl
  | node left address data right leftInduction rightInduction =>
      rcases held with ⟨found, leftHeld, rightHeld⟩
      simp only [AddrTree.height] at enough
      cases fuel with
      | zero => omega
      | succ fuel =>
          rw [AddrTree.pointer_node, recursion, Store.load_some found, Outcome.ok_bind,
            leftInduction leftHeld fuel (by omega), Outcome.ok_bind,
            rightInduction rightHeld fuel (by omega), Outcome.ok_bind]
          rfl

end DataStructAlgorithm.Foundation
