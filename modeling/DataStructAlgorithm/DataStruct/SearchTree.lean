import Mathlib.Order.Lattice
import DataStructAlgorithm.Foundation.LinkedTree

/-! # Descending and attaching

The first half of `insert` is the same loop in `RBTree/rb_tree.h`,
`MyMap/rb_tree.h` and `AVLTree/AVLTree.h`: descend from the root until the value
is met or a null link is reached, then hang a new node there. The loop is
modelled once, for any comparison of the wanted value with a node's payload. -/

namespace DataStructAlgorithm.DataStruct

open Foundation

/-- How the descent ends: at a node comparing equal, or below `parent`. -/
inductive Descent
  | found (cur : Ptr)
  | missing (parent : Ptr)
  deriving DecidableEq, Repr

section Descend

variable {Data : Type} (compare : Data → Ordering)

/-- One pass of `while (cur)`. `compare` tells how the wanted value stands to a
node's payload: `.gt` is `value > cur->_value`. -/
def descendPass (heap : Store (TreeNode Data)) (state : Ptr × Ptr) :
    Outcome (Pass (Ptr × Ptr) Descent) :=
  match state with
  | (none, parent) => .ok (.leave (.missing parent))
  | (some cur, _) => do
      let node ← heap.load (some cur)
      match compare node.data with
      | .gt => pure (.again (node.right, some cur))
      | .lt => pure (.again (node.left, some cur))
      | .eq => pure (.leave (.found (some cur)))

def descend (fuel : Nat) (heap : Store (TreeNode Data)) (root : Ptr) : Outcome Descent :=
  repeatLoop (descendPass compare heap) fuel (root, none)

/-- `cur = new Node(..); cur->_parent = parent;` and the link from the parent. -/
def attach (heap : Store (TreeNode Data)) (parent : Ptr) (data : Data) :
    Outcome (Store (TreeNode Data) × Ptr) := do
  let cur : Ptr := some heap.next
  let heap := heap.alloc ⟨data, none, none, none⟩
  let heap ← heap.assign cur (.setParent parent)
  let above ← heap.load parent
  let heap ← match compare above.data with
    | .gt => heap.assign parent (.setChild .right cur)
    | _ => heap.assign parent (.setChild .left cur)
  pure (heap, cur)

/-- The context is the path that the comparison leads along. -/
def Follows (context : Context Data) : Prop :=
  ∀ frame ∈ context, compare frame.data =
    match frame.side with
    | .left => .lt
    | .right => .gt

/-- What a finished descent says about the represented tree. -/
def Descent.Locates (result : Descent) (tree : AddrTree Data) : Prop :=
  match result with
  | .found cur => ∃ left address data right context,
      cur = some address ∧ tree = Context.plug (.node left address data right) context ∧
        compare data = .eq ∧ Follows compare context
  | .missing parent => ∃ context,
      parent = Context.parent context ∧ tree = Context.plug .nil context ∧
        Follows compare context

variable {compare}

theorem follows_nil : Follows compare [] :=
  fun _ member => nomatch member

theorem Follows.cons {context : Context Data} (follows : Follows compare context)
    {frame : Frame Data}
    (head : compare frame.data = match frame.side with
      | .left => .lt
      | .right => .gt) : Follows compare (frame :: context) := by
  intro other member
  rcases List.mem_cons.mp member with equal | member
  · subst other
    exact head
  · exact follows other member

theorem Follows.head {context : Context Data} {frame : Frame Data}
    (follows : Follows compare (frame :: context)) :
    compare frame.data = match frame.side with
      | .left => .lt
      | .right => .gt :=
  follows frame List.mem_cons_self

theorem Follows.tail {context : Context Data} {frame : Frame Data}
    (follows : Follows compare (frame :: context)) : Follows compare context :=
  fun other member => follows other (List.mem_cons_of_mem _ member)

/-- The descent ends, and it ends where the comparison leads. -/
theorem descend_locates (compare : Data → Ordering) {heap : Store (TreeNode Data)} {root : Ptr}
    {tree : AddrTree Data}
    (represents : Represents heap root tree) (fuel : Nat) (enough : tree.height < fuel) :
    ∃ result, descend compare fuel heap root = .ok result ∧ result.Locates compare tree := by
  refine repeatLoop_total
    (fun bound state => ∃ focus context, state = (focus.pointer, Context.parent context) ∧
      tree = Context.plug focus context ∧ Follows compare context ∧ focus.height = bound)
    (fun result : Descent => result.Locates compare tree) ?_ fuel tree.height (root, none)
    ⟨tree, [], by rw [represents.root_eq]; rfl, rfl, follows_nil, rfl⟩ enough
  intro bound state holds
  rcases holds with ⟨focus, context, rfl, plugged, follows, heightEq⟩
  cases focus with
  | nil => exact Or.inr ⟨_, rfl, context, rfl, plugged, follows⟩
  | node left address data right =>
      have atFocus := (represents_plug _ _).mp (plugged ▸ represents)
      have loaded := Store.load_some atFocus.focus.1
      simp only [AddrTree.height] at heightEq
      cases compared : compare data with
      | lt =>
          refine Or.inl ⟨(left.pointer, some address), left.height, ?_, by omega, left,
            ⟨.left, address, data, right⟩ :: context, rfl, plugged, follows.cons compared, rfl⟩
          simp [descendPass, AddrTree.pointer, loaded, compared]
      | gt =>
          refine Or.inl ⟨(right.pointer, some address), right.height, ?_, by omega, right,
            ⟨.right, address, data, left⟩ :: context, rfl, plugged, follows.cons compared, rfl⟩
          simp [descendPass, AddrTree.pointer, loaded, compared]
      | eq =>
          refine Or.inr ⟨.found (some address), ?_, left, address, data, right, context, rfl,
            plugged, compared, follows⟩
          simp [descendPass, AddrTree.pointer, loaded, compared]

/-- Attaching below the end of the descent puts a new leaf into focus. -/
theorem attach_represents {heap : Store (TreeNode Data)} {root : Ptr} {frame : Frame Data}
    {rest : Context Data} (represents : Represents heap root (Context.plug .nil (frame :: rest)))
    (follows : Follows compare (frame :: rest)) (data : Data) :
    ∃ after, attach compare heap (some frame.address) data = .ok (after, some heap.next) ∧
      RepresentsAt after root (.node .nil heap.next data .nil) (frame :: rest) := by
  have parts := (represents_plug _ _).mp represents
  have above := parts.above.alloc (⟨data, none, none, none⟩ : TreeNode Data)
  have fresh : heap.next ∉ Context.addresses (frame :: rest) := by
    intro member
    exact Nat.lt_irrefl _ (parts.above.mem_lt_next _ member)
  have different : frame.address ≠ heap.next := by
    intro equal
    exact fresh (by simp [Context.addresses, equal])
  have linkedAbove := above.modify_of_not_mem (TreeNode.setParent (some frame.address)) fresh
  have contextNodup : (Context.addresses (frame :: rest)).Nodup := by
    simpa [AddrTree.addresses] using parts.nodup
  have redirected := linkedAbove.redirect (some heap.next) contextNodup
  have found := linkedAbove.1
  refine ⟨_, ?_, ?_, ?_, redirected, ?_⟩
  · have head := follows.head
    rw [attach]
    cases side : frame.side <;> rw [side] at head <;>
      simp [found, Frame.node, head, Store.assign_some, side]
  · rw [parts.root_eq]
    exact Context.pointer_plug_cons _ _ frame rest
  · refine ⟨?_, trivial, trivial⟩
    rw [Store.cell_modify_of_ne _ _ (Ne.symm different)]
    simp [TreeNode.setParent, AddrTree.pointer]
  · simpa [AddrTree.addresses] using ⟨fresh, contextNodup⟩

end Descend

/-! ## Search trees -/

/-- The keys of the tree in order. -/
def keys (key : Data → Key) (tree : AddrTree Data) : List Key :=
  tree.entries.map fun entry => key entry.2

/-- Replacing a subtree by one with the same keys keeps the keys of the tree. -/
theorem keys_plug_congr {key : Data → Key} {tree other : AddrTree Data}
    (equal : keys key tree = keys key other) (context : Context Data) :
    keys key (Context.plug tree context) = keys key (Context.plug other context) := by
  simp only [keys, Context.entries_plug, List.map_append] at equal ⊢
  rw [equal]

/-- The key of a new leaf is the only one that joins the keys of the tree. -/
theorem mem_keys_leaf {key : Data → Key} {context : Context Data} {data : Data}
    {address : Nat} (queried : Key) :
    queried ∈ keys key (Context.plug (.node .nil address data .nil) context) ↔
      queried = key data ∨ queried ∈ keys key (Context.plug .nil context) := by
  simp only [keys, Context.entries_plug, AddrTree.entries, List.nil_append, List.append_nil,
    List.map_append, List.map_cons, List.map_nil, List.mem_append, List.mem_singleton]
  grind

section Ordered

variable {Data Key : Type} [LinearOrder Key] (key : Data → Key)

/-- How `wanted` stands to the key of a node: the tests `wanted > key`, then
`wanted < key`, then neither. -/
def against (wanted : Key) (data : Data) : Ordering :=
  if key data < wanted then .gt else if wanted < key data then .lt else .eq

def Sorted (tree : AddrTree Data) : Prop :=
  (keys key tree).Pairwise (· < ·)

variable {key} {wanted : Key} {data : Data}

theorem against_eq_gt : against key wanted data = .gt ↔ key data < wanted := by
  unfold against
  split
  · simp [*]
  · split <;> simp [*]

theorem against_eq_lt : against key wanted data = .lt ↔ wanted < key data := by
  unfold against
  split
  · rename_i less
    simp [not_lt_of_gt less]
  · split <;> simp [*]

theorem against_eq_eq : against key wanted data = .eq ↔ key data = wanted := by
  unfold against
  split
  · rename_i less
    simp [ne_of_lt less]
  · split
    · rename_i less
      simp [ne_of_gt less]
    · rename_i notLess notGreater
      simp [le_antisymm (not_lt.mp notGreater) (not_lt.mp notLess)]

/-- The descent separates the smaller keys from the larger ones. -/
theorem Follows.separates {context : Context Data} (follows : Follows (against key wanted) context)
    {tree : AddrTree Data} (sorted : Sorted key (Context.plug tree context)) :
    (∀ entry ∈ Context.before context, key entry.2 < wanted) ∧
      ∀ entry ∈ Context.after context, wanted < key entry.2 := by
  induction context generalizing tree with
  | nil =>
      exact ⟨fun _ member => (nomatch member), fun _ member => nomatch member⟩
  | cons frame rest induction =>
      have lifted : Sorted key (Context.plug (frame.fill tree) rest) := sorted
      have above := induction follows.tail lifted
      have head := follows.head
      have filled : ((frame.fill tree).entries.map fun entry => key entry.2).Pairwise (· < ·) := by
        rw [Context.plug_cons, Sorted, keys, Context.entries_plug] at sorted
        simp only [List.map_append, List.pairwise_append] at sorted
        exact sorted.1.2.1
      rw [Frame.entries_fill] at filled
      simp only [Context.before, Context.after, List.mem_append]
      cases side : frame.side with
      | left =>
          rw [side] at head
          have less := against_eq_lt.mp head
          simp only [Frame.before, Frame.after, side, List.nil_append, List.map_append,
            List.map_cons, List.pairwise_append, List.pairwise_cons] at filled ⊢
          constructor
          · intro entry member
            rcases member with member | member
            · exact above.1 entry member
            · cases member
          · intro entry member
            rcases member with member | member
            · rcases List.mem_cons.mp member with equal | member
              · rw [equal]
                exact less
              · exact lt_trans less (filled.2.1.1 _ (List.mem_map.mpr ⟨entry, member, rfl⟩))
            · exact above.2 entry member
      | right =>
          rw [side] at head
          have less := against_eq_gt.mp head
          simp only [Frame.before, Frame.after, side, List.append_nil, List.map_append,
            List.map_cons, List.map_nil, List.pairwise_append] at filled ⊢
          constructor
          · intro entry member
            rcases member with member | member
            · exact above.1 entry member
            · rcases List.mem_append.mp member with member | member
              · exact lt_trans (filled.1.2.2 _ (List.mem_map.mpr ⟨entry, member, rfl⟩) _
                  (by simp)) less
              · rw [List.mem_singleton.mp member]
                exact less
          · intro entry member
            rcases member with member | member
            · cases member
            · exact above.2 entry member

/-- A key that the descent does not meet is not in the tree. -/
theorem Follows.not_mem {context : Context Data} (follows : Follows (against key wanted) context)
    (sorted : Sorted key (Context.plug .nil context)) :
    wanted ∉ keys key (Context.plug .nil context) := by
  have separated := follows.separates sorted
  intro member
  rw [keys, Context.entries_plug] at member
  rcases List.mem_map.mp member with ⟨entry, member, equal⟩
  simp only [AddrTree.entries, List.append_nil, List.mem_append] at member
  rcases member with member | member
  · exact ne_of_lt (separated.1 entry member) equal
  · exact ne_of_gt (separated.2 entry member) equal

/-- A leaf with the wanted key, hung at the end of the descent, keeps the order. -/
theorem Follows.sorted_leaf {context : Context Data}
    (follows : Follows (against key wanted) context)
    (sorted : Sorted key (Context.plug .nil context)) (data : Data) (keyEq : key data = wanted)
    (address : Nat) :
    Sorted key (Context.plug (.node .nil address data .nil) context) := by
  have separated := follows.separates sorted
  rw [Sorted, keys, Context.entries_plug] at sorted ⊢
  simp only [AddrTree.entries, List.append_nil, List.nil_append, List.map_append,
    List.map_cons, List.append_assoc, List.cons_append, 
    List.pairwise_append, List.pairwise_cons, List.mem_map] at sorted ⊢
  refine ⟨sorted.1, ⟨?_, sorted.2.1⟩, ?_⟩
  · intro other member
    rcases member with ⟨entry, member, rfl⟩
    rw [keyEq]
    exact separated.2 entry member
  · intro first firstMember second secondMember
    rcases firstMember with ⟨entry, member, rfl⟩
    rcases List.mem_cons.mp secondMember with equal | later
    · rw [equal, keyEq]
      exact separated.1 entry member
    · exact sorted.2.2 _ ⟨entry, member, rfl⟩ second (by simpa using later)

/-- In a search tree the comparison of keys tells on which side of its parent a
subtree hangs. -/
theorem Sorted.hangs {tree : AddrTree Data} {frame : Frame Data} {rest : Context Data}
    (sorted : Sorted key (Context.plug tree (frame :: rest))) (within : wanted ∈ keys key tree) :
    key frame.data < wanted ↔ frame.side = .right := by
  rcases List.mem_map.mp within with ⟨entry, member, rfl⟩
  rw [Context.plug_cons, Sorted, keys, Context.entries_plug, Frame.entries_fill] at sorted
  simp only [List.map_append, List.pairwise_append] at sorted
  have filled := sorted.1.2.1
  cases side : frame.side with
  | left =>
      have later : key frame.data ∈ frame.after.map fun entry => key entry.2 := by
        simp [Frame.after, side]
      have less := filled.2.2 (key entry.2)
        (List.mem_append_right _ (List.mem_map.mpr ⟨entry, member, rfl⟩)) _ later
      simp [not_lt_of_gt less]
  | right =>
      have earlier : key frame.data ∈ frame.before.map fun entry => key entry.2 := by
        simp [Frame.before, side]
      have less := filled.1.2.2 _ earlier (key entry.2) (List.mem_map.mpr ⟨entry, member, rfl⟩)
      simp [less]

end Ordered

end DataStructAlgorithm.DataStruct
