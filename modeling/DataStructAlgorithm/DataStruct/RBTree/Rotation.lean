import DataStructAlgorithm.DataStruct.RBTree.RbTree

/-! Rotations of `rb_tree` on represented trees. -/

namespace DataStructAlgorithm.DataStruct.RBTree

open Foundation

variable {Value : Type} {heap : Store (Node Value)} {root : Ptr}

/-- `replaceChild` redirects the link from above and writes the parent of `sub`. -/
theorem replaceChild_spec (root : Ptr) {context : Context (RbData Value)} {parent sub : Nat}
    {node : Node Value} (above : LinkedContext heap (some parent) context)
    (found : heap.cell sub = some node) (nodup : context.addresses.Nodup)
    (parentOutside : parent ∉ context.addresses) (subOutside : sub ∉ context.addresses) :
    ∃ after, replaceChild ⟨heap, root⟩ (Context.parent context) (some parent) (some sub) =
        .ok after ∧
      LinkedContext after.heap (some sub) context ∧
      after.heap.cell sub = some (node.setParent (Context.parent context)) ∧
      (∀ address, address ≠ sub → address ∉ context.addresses →
        after.heap.cell address = heap.cell address) ∧
      after.root = match context with
        | [] => some sub
        | _ :: _ => root := by
  cases context with
  | nil =>
      refine ⟨⟨heap.modify sub (.setParent none), some sub⟩, ?_, trivial, ?_, ?_, rfl⟩
      · simp [replaceChild, Store.assign_some _ found]
      · simp [found]
      · intro address different _
        exact Store.cell_modify_of_ne _ _ different
  | cons frame rest =>
      have foundAbove := above.1
      have redirected := above.redirect (some sub) nodup
      have different : sub ≠ frame.address := by
        intro equal
        exact subOutside (by simp [Context.addresses, equal])
      have siblingDifferent : frame.sibling.pointer ≠ some parent := by
        intro equal
        apply parentOutside
        cases tree : frame.sibling with
        | nil => simp [tree, AddrTree.pointer] at equal
        | node left address data right =>
            rw [tree] at equal
            cases equal
            simp [Context.addresses, tree, AddrTree.addresses]
      have foundSub : (heap.modify frame.address
          (TreeNode.setChild frame.side (some sub))).cell sub = some node := by
        rw [Store.cell_modify_of_ne _ _ different, found]
      refine ⟨⟨(heap.modify frame.address (.setChild frame.side (some sub))).modify sub
        (.setParent (some frame.address)), root⟩, ?_, ?_, ?_, ?_, rfl⟩
      · cases side : frame.side <;> rw [side] at foundSub <;>
          simp [replaceChild, Store.load_some foundAbove, Store.assign_some _ foundAbove,
            Store.assign_some _ foundSub, Frame.node, side, TreeNode.oriented, siblingDifferent]
      · exact redirected.modify_of_not_mem _ subOutside
      · simp [foundSub]
      · intro address differentSub outside
        rw [Store.cell_modify_of_ne _ _ differentSub]
        apply Store.cell_modify_of_ne
        intro equal
        exact outside (by simp [Context.addresses, equal])

/-- The part of a rotation before `replaceChild`. -/
theorem rotate_swings (root : Ptr) (side : Side) {parent sub : Nat} {data subData : RbData Value}
    {near inner far : AddrTree (RbData Value)} {up : Ptr}
    (linked : Linked heap up (.oriented side near parent data
      (.oriented side inner sub subData far)))
    (nodup : (AddrTree.oriented side near parent data
      (.oriented side inner sub subData far)).addresses.Nodup) :
    ∃ swung, rotate side ⟨heap, root⟩ (some parent) =
        replaceChild ⟨swung, root⟩ up (some parent) (some sub) ∧
      swung.cell sub = some (.oriented side subData (some parent) far.pointer (some parent)) ∧
      Linked swung (some sub) (.oriented side near parent data inner) ∧
      Linked swung (some sub) far ∧
      ∀ address, address ∉ (AddrTree.oriented side near parent data
        (.oriented side inner sub subData far)).addresses →
        swung.cell address = heap.cell address := by
  have parts := (Linked.oriented_iff ..).mp linked
  rcases parts with ⟨foundParent, nearLinked, subLinked⟩
  rcases (Linked.oriented_iff ..).mp subLinked with ⟨foundSub, innerLinked, farLinked⟩
  rw [AddrTree.pointer_oriented] at foundParent
  simp only [AddrTree.nodup_oriented, AddrTree.mem_oriented] at nodup
  have different : sub ≠ parent := by grind
  have differentSymm : parent ≠ sub := different.symm
  let swung := ((heap.modify sub (.setChild side (some parent))).modify parent
    (.setParent (some sub))).modify parent (.setChild side.other inner.pointer)
  have swungSub : swung.cell sub =
      some (.oriented side subData (some parent) far.pointer (some parent)) := by
    simp [swung, foundSub, different]
  have swungParent : swung.cell parent =
      some (.oriented side data near.pointer inner.pointer (some sub)) := by
    simp [swung, foundParent, differentSymm]
  have swungElse : ∀ address, address ≠ parent → address ≠ sub →
      swung.cell address = heap.cell address := by
    intro address notParent notSub
    simp [swung, notParent, notSub]
  have nearSwung : Linked swung (some parent) near := by
    apply nearLinked.congr
    intro address member
    exact swungElse address (by grind) (by grind)
  have farSwung : Linked swung (some sub) far := by
    apply farLinked.congr
    intro address member
    exact swungElse address (by grind) (by grind)
  have innerSwung : Linked swung (some sub) inner := by
    apply innerLinked.congr
    intro address member
    exact swungElse address (by grind) (by grind)
  cases innerEq : inner with
  | nil =>
      subst inner
      refine ⟨swung, ?_, swungSub, ?_, farSwung, ?_⟩
      · simp [rotate, foundParent, foundSub, Store.load_some, Store.assign_some, swung,
          AddrTree.pointer, differentSymm]
      · exact (Linked.oriented_iff ..).mpr ⟨swungParent, nearSwung, trivial⟩
      · intro address outside
        simp only [AddrTree.mem_oriented] at outside
        exact swungElse address (by grind) (by grind)
  | node left address innerData right =>
      subst inner
      have foundInner := innerSwung.1
      have reparented := innerSwung.reparent (some parent) (by grind)
      have addressMember : address ∈
          (AddrTree.node left address innerData right).addresses := by
        simp [AddrTree.addresses]
      refine ⟨swung.modify address (.setParent (some parent)), ?_, ?_, ?_, ?_, ?_⟩
      · have assigned := Store.assign_some (TreeNode.setParent (some parent)) foundInner
        simp [swung, AddrTree.pointer] at assigned
        simp [rotate, foundParent, foundSub, Store.load_some, Store.assign_some, swung,
          AddrTree.pointer, differentSymm, assigned]
      · rw [Store.cell_modify_of_ne _ _ (by grind), swungSub]
      · refine (Linked.oriented_iff ..).mpr ⟨?_, ?_, reparented⟩
        · rw [Store.cell_modify_of_ne _ _ (by grind), swungParent]
        · exact nearSwung.modify_of_not_mem _ (by grind)
      · exact farSwung.modify_of_not_mem _ (by grind)
      · intro queried outside
        simp only [AddrTree.mem_oriented] at outside
        rw [Store.cell_modify_of_ne _ _ (by grind)]
        exact swungElse queried (by grind) (by grind)

/-- A rotation on the stored nodes is the rotation of the represented tree. -/
theorem rotate_represents (side : Side) {parent sub : Nat} {data subData : RbData Value}
    {near inner far : AddrTree (RbData Value)} {context : Context (RbData Value)}
    (represents : RepresentsAt heap root
      (.oriented side near parent data (.oriented side inner sub subData far)) context) :
    ∃ after, rotate side ⟨heap, root⟩ (some parent) = .ok after ∧
      RepresentsAt after.heap after.root
        (.oriented side (.oriented side near parent data inner) sub subData far) context := by
  rcases represents with ⟨rootEq, focus, above, nodup⟩
  have split := List.nodup_append.mp nodup
  rcases rotate_swings root side focus split.1 with
    ⟨swung, equal, foundSub, lowered, farLinked, same⟩
  have apart : ∀ address ∈ Context.addresses context, address ∉
      (AddrTree.oriented side near parent data
        (.oriented side inner sub subData far)).addresses := by
    intro address member inside
    exact split.2.2 address inside address member rfl
  have subInside : sub ∈ (AddrTree.oriented side near parent data
      (.oriented side inner sub subData far)).addresses := by
    simp [AddrTree.mem_oriented]
  have parentInside : parent ∈ (AddrTree.oriented side near parent data
      (.oriented side inner sub subData far)).addresses := by
    simp [AddrTree.mem_oriented]
  have aboveSwung : LinkedContext swung (some parent) context := by
    rw [AddrTree.pointer_oriented] at above
    exact above.congr fun address member => same address (apart address member)
  rcases replaceChild_spec root aboveSwung foundSub split.2.1
      (fun member => apart parent member parentInside)
      (fun member => apart sub member subInside) with
    ⟨after, replaced, aboveAfter, subAfter, elseAfter, rootAfter⟩
  refine ⟨after, equal.trans replaced, ?_, ?_, ?_, ?_⟩
  · cases context with
    | nil => simpa using rootAfter
    | cons frame rest =>
        rw [rootAfter, rootEq]
        exact Context.pointer_plug_cons _ _ frame rest
  · have loweredAfter : Linked after.heap (some sub)
        (.oriented side near parent data inner) := by
      apply lowered.congr
      intro address member
      simp only [AddrTree.nodup_oriented, AddrTree.mem_oriented] at split member
      apply elseAfter address
      · grind
      · intro outside
        exact apart address outside (by simp only [AddrTree.mem_oriented]; grind)
    have farAfter : Linked after.heap (some sub) far := by
      apply farLinked.congr
      intro address member
      simp only [AddrTree.nodup_oriented, AddrTree.mem_oriented] at split
      apply elseAfter address
      · grind
      · intro outside
        exact apart address outside (by simp only [AddrTree.mem_oriented]; grind)
    refine (Linked.oriented_iff ..).mpr ⟨?_, loweredAfter, farAfter⟩
    simpa using subAfter
  · simpa using aboveAfter
  · rw [AddrTree.addresses_rotate]
    exact nodup

end DataStructAlgorithm.DataStruct.RBTree
