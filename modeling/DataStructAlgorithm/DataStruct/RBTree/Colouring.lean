import DataStructAlgorithm.DataStruct.RBTree.RbTree

/-! # Coloured trees

What it means for a tree to be red-black, and what that says about the path from
one of its subtrees to the root. -/

namespace DataStructAlgorithm.DataStruct.RBTree

open Foundation

variable {Value : Type}

abbrev ColouredTree (Value : Type) := AddrTree (RbData Value)

namespace Colour

def weight : Colour → Nat
  | .red => 0
  | .black => 1

end Colour

namespace ColouredTree

/-- The nodes in order, each as its address and its value. -/
def nodes (tree : ColouredTree Value) : List (Nat × Value) :=
  tree.entries.map fun entry => (entry.1, entry.2.value)

def redRoot : ColouredTree Value → Bool
  | .nil => false
  | .node _ _ data _ => data.col = .red

/-- No red node has a red parent. -/
def NoRedRed : ColouredTree Value → Prop
  | .nil => True
  | .node left _ data right =>
      (data.col = .red → redRoot left = false ∧ redRoot right = false) ∧
        NoRedRed left ∧ NoRedRed right

/-- The number of black nodes on each path from the root to a null link. -/
def blackCounts : ColouredTree Value → List Nat
  | .nil => [0]
  | .node left _ data right =>
      (blackCounts left ++ blackCounts right).map (· + data.col.weight)

/-- Every path from the root to a null link has `count` black nodes. -/
def BlackHeight (tree : ColouredTree Value) (count : Nat) : Prop :=
  ∀ black ∈ blackCounts tree, black = count

structure RedBlack (tree : ColouredTree Value) : Prop where
  rootBlack : redRoot tree = false
  noRedRed : NoRedRed tree
  blackHeight : ∃ count, BlackHeight tree count

theorem map_snd_nodes (tree : ColouredTree Value) :
    (nodes tree).map Prod.snd = keys RbData.value tree := by
  simp [nodes, keys]

theorem map_fst_nodes (tree : ColouredTree Value) :
    (nodes tree).map Prod.fst = tree.addresses := by
  rw [← AddrTree.map_fst_entries]
  simp [nodes]

theorem nodes_plug (tree : ColouredTree Value) (context : Context (RbData Value)) :
    nodes (Context.plug tree context) =
      (Context.before context).map (fun entry => (entry.1, entry.2.value)) ++ nodes tree ++
        (Context.after context).map (fun entry => (entry.1, entry.2.value)) := by
  simp [nodes, Context.entries_plug]

theorem nodes_plug_congr {tree other : ColouredTree Value} (equal : nodes tree = nodes other)
    (context : Context (RbData Value)) :
    nodes (Context.plug tree context) = nodes (Context.plug other context) := by
  rw [nodes_plug, nodes_plug, equal]

@[simp] theorem redRoot_oriented (side : Side) (near : ColouredTree Value) (address : Nat)
    (data : RbData Value) (far : ColouredTree Value) :
    redRoot (.oriented side near address data far) = decide (data.col = .red) := by
  cases side <;> rfl

theorem noRedRed_oriented (side : Side) (near : ColouredTree Value) (address : Nat)
    (data : RbData Value) (far : ColouredTree Value) :
    NoRedRed (.oriented side near address data far) ↔
      (data.col = .red → redRoot near = false ∧ redRoot far = false) ∧
        NoRedRed near ∧ NoRedRed far := by
  cases side with
  | left => exact Iff.rfl
  | right =>
      simp only [AddrTree.oriented, NoRedRed]
      constructor
      · rintro ⟨colours, first, second⟩
        exact ⟨fun red => (colours red).symm, second, first⟩
      · rintro ⟨colours, first, second⟩
        exact ⟨fun red => (colours red).symm, second, first⟩

@[simp] theorem blackHeight_nil (count : Nat) :
    BlackHeight (.nil : ColouredTree Value) count ↔ count = 0 := by
  simp [BlackHeight, blackCounts, eq_comm]

theorem blackHeight_oriented (side : Side) (near : ColouredTree Value) (address : Nat)
    (data : RbData Value) (far : ColouredTree Value) (count : Nat) :
    BlackHeight (.oriented side near address data far) (count + data.col.weight) ↔
      BlackHeight near count ∧ BlackHeight far count := by
  have counted : ∀ black, black ∈ blackCounts (.oriented side near address data far) ↔
      ∃ below, (below ∈ blackCounts near ∨ below ∈ blackCounts far) ∧
        below + data.col.weight = black := by
    intro black
    cases side <;> simp [AddrTree.oriented, blackCounts] <;> grind
  constructor
  · intro height
    constructor
    · intro black member
      have := height _ ((counted _).mpr ⟨black, Or.inl member, rfl⟩)
      omega
    · intro black member
      have := height _ ((counted _).mpr ⟨black, Or.inr member, rfl⟩)
      omega
  · intro heights black member
    rcases (counted black).mp member with ⟨below, inNear | inFar, rfl⟩
    · rw [heights.1 below inNear]
    · rw [heights.2 below inFar]

theorem exists_mem_blackCounts (tree : ColouredTree Value) :
    ∃ black, black ∈ blackCounts tree := by
  induction tree with
  | nil => exact ⟨0, by simp [blackCounts]⟩
  | node left address data right leftMember _ =>
      rcases leftMember with ⟨black, member⟩
      exact ⟨black + data.col.weight, by simp [blackCounts, member]⟩

/-- The black height of a node is that of its subtrees plus its own weight. -/
theorem exists_blackHeight_of_oriented {side : Side} {near : ColouredTree Value} {address : Nat}
    {data : RbData Value} {far : ColouredTree Value} {count : Nat}
    (height : BlackHeight (.oriented side near address data far) count) :
    ∃ below, count = below + data.col.weight ∧ BlackHeight near below ∧
      BlackHeight far below := by
  rcases exists_mem_blackCounts near with ⟨black, member⟩
  have countEq : black + data.col.weight = count := by
    apply height
    cases side <;> simp [AddrTree.oriented, blackCounts, member]
  subst count
  exact ⟨black, rfl, (blackHeight_oriented ..).mp height⟩

/-- At least every second node of a path is black. -/
theorem height_le {tree : ColouredTree Value} {count : Nat} (valid : NoRedRed tree)
    (height : BlackHeight tree count) :
    tree.height ≤ 2 * count + (redRoot tree).toNat := by
  induction tree generalizing count with
  | nil => simp [AddrTree.height]
  | node left address data right leftBound rightBound =>
      rcases valid with ⟨colours, leftValid, rightValid⟩
      have oriented : BlackHeight (.oriented .left left address data right) count := height
      rcases exists_blackHeight_of_oriented oriented with ⟨below, rfl, leftHeight, rightHeight⟩
      have leftLe := leftBound leftValid leftHeight
      have rightLe := rightBound rightValid rightHeight
      cases colour : data.col with
      | red =>
          have children := colours colour
          rw [children.1] at leftLe
          rw [children.2] at rightLe
          simp only [AddrTree.height, redRoot, colour, Colour.weight, Bool.toNat_false,
            decide_true, Bool.toNat_true] at leftLe rightLe ⊢
          omega
      | black =>
          have leftColour := Bool.toNat_le (redRoot left)
          have rightColour := Bool.toNat_le (redRoot right)
          simp only [AddrTree.height, redRoot, colour, Colour.weight, reduceCtorEq,
            decide_false, Bool.toNat_false]
          omega

/-- A tree of black height `count` is at least as full as a perfect tree of that
height. -/
theorem two_pow_le {tree : ColouredTree Value} {count : Nat}
    (height : BlackHeight tree count) : 2 ^ count ≤ (nodes tree).length + 1 := by
  induction tree generalizing count with
  | nil => simp [(blackHeight_nil count).mp height]
  | node left address data right leftBound rightBound =>
      have oriented : BlackHeight (.oriented .left left address data right) count := height
      rcases exists_blackHeight_of_oriented oriented with ⟨below, rfl, leftHeight, rightHeight⟩
      have leftLe := leftBound leftHeight
      have rightLe := rightBound rightHeight
      have weightLe : 2 ^ (below + data.col.weight) ≤ 2 ^ below + 2 ^ below := by
        cases data.col with
        | red => simp [Colour.weight]
        | black => simp [Colour.weight, Nat.pow_succ, Nat.mul_two]
      simp only [nodes, AddrTree.entries, List.map_append, List.map_cons, List.length_append,
        List.length_cons, List.length_map] at leftLe rightLe ⊢
      omega

/-- Painting a red root black keeps the tree valid. -/
theorem noRedRed_black {side : Side} {near : ColouredTree Value} {address : Nat}
    {data : RbData Value} {far : ColouredTree Value}
    (valid : NoRedRed (.oriented side near address data far)) :
    NoRedRed (.oriented side near address (data.paint .black) far) := by
  rw [noRedRed_oriented] at valid ⊢
  exact ⟨fun red => (nomatch red), valid.2⟩

/-! Payloads can change as long as colours do not. -/

section UpdateAt

variable {change : RbData Value → RbData Value}
  (address : Nat) (kept : ∀ data, (change data).col = data.col)

include kept

theorem redRoot_updateAt (tree : ColouredTree Value) :
    redRoot (tree.updateAt address change) = redRoot tree := by
  cases tree with
  | nil => rfl
  | node left here data right =>
      simp only [AddrTree.updateAt, redRoot]
      split <;> simp [kept]

theorem noRedRed_updateAt (tree : ColouredTree Value) :
    NoRedRed (tree.updateAt address change) ↔ NoRedRed tree := by
  induction tree with
  | nil => exact Iff.rfl
  | node left here data right leftIff rightIff =>
      simp only [AddrTree.updateAt, NoRedRed, leftIff, rightIff,
        redRoot_updateAt address kept]
      split <;> simp [kept]

theorem blackCounts_updateAt (tree : ColouredTree Value) :
    blackCounts (tree.updateAt address change) = blackCounts tree := by
  induction tree with
  | nil => rfl
  | node left here data right leftEqual rightEqual =>
      simp only [AddrTree.updateAt, blackCounts, leftEqual, rightEqual]
      split <;> simp [kept]

theorem RedBlack.updateAt {tree : ColouredTree Value} (redBlack : RedBlack tree) :
    RedBlack (tree.updateAt address change) where
  rootBlack := (redRoot_updateAt address kept tree).trans redBlack.rootBlack
  noRedRed := (noRedRed_updateAt address kept tree).mpr redBlack.noRedRed
  blackHeight := by
    simpa only [BlackHeight, blackCounts_updateAt address kept] using redBlack.blackHeight

end UpdateAt

end ColouredTree

/-! ## Contexts -/

namespace ColouredContext

open ColouredTree

/-- The parent exists and is red. -/
def headRed : Context (RbData Value) → Bool
  | [] => false
  | frame :: _ => frame.data.col = .red

/-- The parent exists and is black. -/
def headBlack : Context (RbData Value) → Bool
  | [] => false
  | frame :: _ => frame.data.col = .black

/-- The context makes a red-black tree of every black-rooted red-black subtree of
black height `count`, up to the colour of the root. -/
def Valid : Context (RbData Value) → Nat → Prop
  | [], _ => True
  | frame :: rest, count =>
      NoRedRed frame.sibling ∧ BlackHeight frame.sibling count ∧
        (frame.data.col = .red → redRoot frame.sibling = false ∧ headBlack rest = true) ∧
          Valid rest (count + frame.data.col.weight)

theorem valid_of_plug {tree : ColouredTree Value} {context : Context (RbData Value)}
    {count : Nat} (noRedRed : NoRedRed (Context.plug tree context))
    (height : BlackHeight (Context.plug tree context) count)
    (rootBlack : redRoot (Context.plug tree context) = false) :
    ∃ below, Valid context below ∧ NoRedRed tree ∧ BlackHeight tree below ∧
      (redRoot tree = true → headBlack context = true) := by
  induction context generalizing tree count with
  | nil =>
      refine ⟨count, trivial, noRedRed, height, ?_⟩
      intro red
      rw [Context.plug_nil, red] at rootBlack
      cases rootBlack
  | cons frame rest induction =>
      rcases induction noRedRed height rootBlack with
        ⟨above, restValid, fillValid, fillHeight, fillRed⟩
      rw [Frame.fill] at fillValid fillHeight fillRed
      have parts := (noRedRed_oriented ..).mp fillValid
      rcases exists_blackHeight_of_oriented fillHeight with
        ⟨below, rfl, treeHeight, siblingHeight⟩
      refine ⟨below, ⟨parts.2.2, siblingHeight, ?_, restValid⟩, parts.2.1, treeHeight, ?_⟩
      · intro red
        exact ⟨(parts.1 red).2, fillRed (by simp [red])⟩
      · intro red
        cases colour : frame.data.col with
        | black => simp [headBlack, colour]
        | red => simp [(parts.1 colour).1] at red

/-- Below an existing parent the focus does not decide the colour of the root. -/
theorem redRoot_plug_cons (tree other : ColouredTree Value) (frame : Frame (RbData Value))
    (rest : Context (RbData Value)) :
    redRoot (Context.plug tree (frame :: rest)) =
      redRoot (Context.plug other (frame :: rest)) := by
  induction rest generalizing frame tree other with
  | nil => simp [Frame.fill]
  | cons next rest induction =>
      rw [Context.plug_cons, Context.plug_cons other]
      exact induction (frame.fill tree) (frame.fill other) next

theorem plug_valid {tree : ColouredTree Value} {context : Context (RbData Value)} {count : Nat}
    (valid : Valid context count) (noRedRed : NoRedRed tree)
    (height : BlackHeight tree count)
    (colours : redRoot tree = true → headRed context = false) :
    NoRedRed (Context.plug tree context) ∧
      ∃ total, BlackHeight (Context.plug tree context) total := by
  induction context generalizing tree count with
  | nil => exact ⟨noRedRed, count, height⟩
  | cons frame rest induction =>
      rcases valid with ⟨siblingValid, siblingHeight, redFrame, restValid⟩
      apply induction restValid
      · refine (noRedRed_oriented ..).mpr ⟨?_, noRedRed, siblingValid⟩
        intro red
        refine ⟨?_, (redFrame red).1⟩
        cases treeRed : redRoot tree with
        | false => rfl
        | true => simpa [headRed, red] using colours treeRed
      · exact (blackHeight_oriented ..).mpr ⟨height, siblingHeight⟩
      · intro red
        have frameRed : frame.data.col = .red := by simpa [Frame.fill] using red
        have black := (redFrame frameRed).2
        cases rest with
        | nil => rfl
        | cons next rest =>
            simp only [headBlack, decide_eq_true_eq] at black
            simp [headRed, black]

end ColouredContext

end DataStructAlgorithm.DataStruct.RBTree
