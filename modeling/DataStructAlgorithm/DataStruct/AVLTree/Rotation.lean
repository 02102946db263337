import DataStructAlgorithm.DataStruct.AVLTree.AVLTree

/-! # Rotations of `AVLTree` on represented trees -/

namespace DataStructAlgorithm.DataStruct.AVLTree

open Foundation

abbrev FactorTree (Key Value : Type) := AddrTree (AVLData Key Value)

@[simp] theorem AVLData.key_setBf (bf : Int) (data : AVLData Key Value) :
    (data.setBf bf).key = data.key := rfl

@[simp] theorem AVLData.bf_setBf (bf : Int) (data : AVLData Key Value) :
    (data.setBf bf).bf = bf := rfl

@[simp] theorem AVLData.setBf_setBf (first second : Int) (data : AVLData Key Value) :
    (data.setBf first).setBf second = data.setBf second := rfl

section SetBf

variable {Key Value : Type} {heap : Store (Node Key Value)} {root : Ptr} {side : Side}
  {near far : FactorTree Key Value} {address : Nat} {data : AVLData Key Value}
  {context : Context (AVLData Key Value)}

/-- Writing the factor of the focus. -/
theorem setBf_represents
    (represents : RepresentsAt heap root (.oriented side near address data far) context)
    (bf : Int) :
    ∃ after, setBf heap (some address) bf = .ok after ∧
      RepresentsAt after root (.oriented side near address (data.setBf bf) far) context := by
  have found := ((Linked.oriented_iff ..).mp represents.focus).1
  exact ⟨_, Store.assign_some _ found, represents.updateData _⟩

/-- Writing the factor of a child of the focus. -/
theorem setBf_near {nearSide : Side} {outer inner : FactorTree Key Value} {child : Nat}
    {childData : AVLData Key Value}
    (represents : RepresentsAt heap root
      (.oriented side (.oriented nearSide outer child childData inner) address data far) context)
    (bf : Int) :
    ∃ after, setBf heap (some child) bf = .ok after ∧
      RepresentsAt after root
        (.oriented side (.oriented nearSide outer child (childData.setBf bf) inner)
          address data far) context := by
  have lowered := (representsAt_fill _ ⟨side, address, data, far⟩ context).mp represents
  rcases setBf_represents lowered bf with ⟨after, written, writtenRep⟩
  exact ⟨after, written, (representsAt_fill _ ⟨side, address, data, far⟩ context).mpr writtenRep⟩

theorem setBf_far {farSide : Side} {outer inner : FactorTree Key Value} {child : Nat}
    {childData : AVLData Key Value}
    (represents : RepresentsAt heap root
      (.oriented side near address data (.oriented farSide outer child childData inner)) context)
    (bf : Int) :
    ∃ after, setBf heap (some child) bf = .ok after ∧
      RepresentsAt after root
        (.oriented side near address data
          (.oriented farSide outer child (childData.setBf bf) inner)) context := by
  simp only [← AddrTree.oriented_other side] at represents ⊢
  exact setBf_near represents bf

/-- The factors that a double rotation writes at its end. -/
theorem settle {heavy : Side} {parent sub inner : Nat}
    {data subData innerData : AVLData Key Value}
    {near innerNear innerFar far : FactorTree Key Value}
    (represents : RepresentsAt heap root
      (.oriented heavy (.oriented heavy near sub subData innerNear) inner innerData
        (.oriented heavy innerFar parent data far)) context) (parentBf subBf : Int) :
    ∃ one two after, setBf heap (some parent) parentBf = .ok one ∧
      setBf one (some sub) subBf = .ok two ∧ setBf two (some inner) 0 = .ok after ∧
      RepresentsAt after root
        (.oriented heavy (.oriented heavy near sub (subData.setBf subBf) innerNear) inner
          (innerData.setBf 0) (.oriented heavy innerFar parent (data.setBf parentBf) far))
        context := by
  rcases setBf_far represents parentBf with ⟨one, parentSet, oneRep⟩
  rcases setBf_near oneRep subBf with ⟨two, subSet, twoRep⟩
  rcases setBf_represents twoRep 0 with ⟨after, innerSet, afterRep⟩
  exact ⟨one, two, after, parentSet, subSet, innerSet, afterRep⟩

end SetBf

variable {Key Value : Type} [LinearOrder Key] {heap : Store (Node Key Value)} {root : Ptr}

/-- The comparison of keys tells on which side of its parent a node hangs. -/
def Hangs (key : Key) : Context (AVLData Key Value) → Prop
  | [] => True
  | frame :: _ => frame.data.key < key ↔ frame.side = .right

/-- `replaceChild` redirects the link from above and writes the parent of `sub`. -/
theorem replaceChild_spec (root : Ptr) {context : Context (AVLData Key Value)} {parent sub : Nat}
    {node subNode : Node Key Value} {focus : Ptr} (above : LinkedContext heap focus context)
    (foundParent : heap.cell parent = some node) (foundSub : heap.cell sub = some subNode)
    (subOutside : some sub ≠ Context.parent context) (hangs : Hangs node.data.key context) :
    ∃ after, replaceChild ⟨heap, root⟩ (Context.parent context) (some parent) (some sub) =
        .ok after ∧
      after.root = (if context.isEmpty then some sub else root) ∧
      after.heap.cell sub = some (subNode.setParent (Context.parent context)) ∧
      (∀ frame ∈ context.head?, after.heap.cell frame.address =
        (heap.cell frame.address).map (.setChild frame.side (some sub))) ∧
      ∀ address, address ≠ sub → some address ≠ Context.parent context →
        after.heap.cell address = heap.cell address := by
  cases context with
  | nil =>
      refine ⟨⟨heap.modify sub (.setParent none), some sub⟩, ?_, rfl, by simp [foundSub], ?_, ?_⟩
      · simp [replaceChild, Store.assign_some _ foundSub]
      · intro frame member
        cases member
      · intro address different _
        exact Store.cell_modify_of_ne _ _ different
  | cons frame rest =>
      have foundAbove := above.1
      have different : sub ≠ frame.address := by simpa using subOutside
      have sideEq : (if frame.data.key < node.data.key then Side.right else Side.left) =
          frame.side := by
        rw [Hangs] at hangs
        cases side : frame.side <;> simp [side] at hangs
        · exact if_neg (not_lt.mpr hangs)
        · exact if_pos hangs
      have redirectedSub : (heap.modify frame.address
          (.setChild frame.side (some sub))).cell sub = some subNode := by
        rw [Store.cell_modify_of_ne _ _ different, foundSub]
      refine ⟨⟨(heap.modify frame.address (.setChild frame.side (some sub))).modify sub
        (.setParent (some frame.address)), root⟩, ?_, rfl, by simp [redirectedSub], ?_, ?_⟩
      · simp [replaceChild, Store.load_some foundParent, Store.load_some foundAbove, Frame.node,
          sideEq, Store.assign_some _ foundAbove, Store.assign_some _ redirectedSub]
      · intro other member
        cases member
        rw [Store.cell_modify_of_ne _ _ different.symm, Store.cell_modify_same]
      · intro address notSub notFrame
        rw [Store.cell_modify_of_ne _ _ notSub, Store.cell_modify_of_ne]
        simpa using notFrame

/-- A single rotation on the stored nodes is the rotation of the represented tree. -/
theorem rotate_represents (side : Side) {parent sub : Nat} {data subData : AVLData Key Value}
    {near inner far : FactorTree Key Value} {context : Context (AVLData Key Value)}
    (represents : RepresentsAt heap root
      (.oriented side near parent data (.oriented side inner sub subData far)) context)
    (hangs : Hangs data.key context) :
    ∃ after, rotate side ⟨heap, root⟩ (some parent) = .ok after ∧
      RepresentsAt after.heap after.root
        (.oriented side (.oriented side near parent (data.setBf 0) inner) sub
          (subData.setBf 0) far) context := by
  have parts := (Linked.oriented_iff ..).mp represents.focus
  rcases parts with ⟨foundParent, _, lower⟩
  rcases (Linked.oriented_iff ..).mp lower with ⟨foundSub, innerLinked, _⟩
  rw [AddrTree.pointer_oriented] at foundParent
  have nodup := List.nodup_append.mp represents.nodup
  have inside := nodup.1
  have apart := nodup.2.2
  simp only [AddrTree.nodup_oriented, AddrTree.mem_oriented] at inside
  simp only [AddrTree.mem_oriented] at apart
  have different : sub ≠ parent := by grind
  have differentSymm : parent ≠ sub := different.symm
  have parentOutside : some parent ≠ Context.parent context := by
    intro equal
    exact apart parent (Or.inl rfl) parent (Context.mem_addresses_of_parent equal.symm) rfl
  have subOutside : some sub ≠ Context.parent context := by
    intro equal
    exact apart sub (by simp) sub (Context.mem_addresses_of_parent equal.symm) rfl
  -- the two rotated nodes exchange their links
  let swung := (heap.modify parent (.setParent (some sub))).modify sub
    (.setChild side (some parent))
  have swungSub : swung.cell sub =
      some (.oriented side subData (some parent) far.pointer (some parent)) := by
    simp [swung, different, foundSub]
  have swungParent : swung.cell parent =
      some (.oriented side data near.pointer (some sub) (some sub)) := by
    simp [swung, differentSymm, foundParent]
  have swungElse : ∀ address, address ≠ parent → address ≠ sub →
      swung.cell address = heap.cell address := by
    intro address notParent notSub
    simp [swung, notParent, notSub]
  have aboveSwung : LinkedContext swung (.some parent) context := by
    have above := represents.above
    rw [AddrTree.pointer_oriented] at above
    apply above.congr
    intro address member
    exact swungElse address (fun equal => apart parent (Or.inl rfl) address member equal.symm)
      (fun equal => apart sub (by simp) address member equal.symm)
  rcases replaceChild_spec root aboveSwung swungParent swungSub subOutside
    (by simpa using hangs) with
    ⟨relinked, replaced, rootEq, relinkedSub, relinkedFrame, relinkedElse⟩
  have relinkedParent : relinked.heap.cell parent =
      some (.oriented side data near.pointer (some sub) (some sub)) := by
    rw [relinkedElse parent differentSymm parentOutside, swungParent]
  have frameNe : ∀ frame ∈ context.head?, ∀ address, address ∈ (AddrTree.oriented side near parent
      data (.oriented side inner sub subData far)).addresses → frame.address ≠ address := by
    intro frame member address within equal
    have outside : address ∈ Context.addresses context := by
      apply Context.mem_addresses_of_parent
      cases context with
      | nil => cases member
      | cons other rest =>
          cases member
          rw [Context.parent_cons, equal]
    exact nodup.2.2 address within address outside rfl
  simp only [AddrTree.mem_oriented] at frameNe
  cases innerEq : inner with
  | nil =>
      subst inner
      refine ⟨⟨((relinked.heap.modify parent (.setChild side.other none)).modify sub
        (.updateData (.setBf 0))).modify parent (.updateData (.setBf 0)), relinked.root⟩, ?_,
        represents.rotated _ _ rootEq ?_ ?_ ?_ ?_ ?_⟩
      · simp [rotate, foundParent, foundSub, replaced, setBf, swung, relinkedParent,
          relinkedSub, different, differentSymm, Store.assign_some]
      · simp [different, relinkedSub]
      · simp [differentSymm, relinkedParent]
      · intro address equal
        cases equal
      · intro frame member
        have notParent := frameNe frame member parent (by simp)
        have notSub := frameNe frame member sub (by simp)
        simp [notParent, notSub, relinkedFrame frame member, swungElse]
      · intro address notSub notParent _ notAbove
        simp [notSub, notParent, relinkedElse address notSub notAbove, swungElse]
  | node left address innerData right =>
      subst inner
      have innerMem : address ∈ (AddrTree.node left address innerData right).addresses := by
        simp [AddrTree.addresses]
      have innerNotParent : address ≠ parent := by grind
      have innerNotSub : address ≠ sub := by grind
      have innerNotAbove : some address ≠ Context.parent context := by
        intro equal
        exact apart address (by simp [innerMem]) address
          (Context.mem_addresses_of_parent equal.symm) rfl
      have foundInner := innerLinked.1
      have relinkedInner : relinked.heap.cell address = heap.cell address := by
        rw [relinkedElse address innerNotSub innerNotAbove,
          swungElse address innerNotParent innerNotSub]
      refine ⟨⟨(((relinked.heap.modify parent (.setChild side.other (some address))).modify address
        (.setParent (some parent))).modify sub (.updateData (.setBf 0))).modify parent
        (.updateData (.setBf 0)), relinked.root⟩, ?_,
        represents.rotated _ _ rootEq ?_ ?_ ?_ ?_ ?_⟩
      · simp [rotate, foundParent, foundSub, replaced, setBf, swung, relinkedParent,
          relinkedSub, relinkedInner, foundInner, different, differentSymm, Store.assign_some,
          innerNotParent, innerNotParent.symm, innerNotSub.symm]
      · simp [different, relinkedSub, innerNotSub.symm]
      · simp [differentSymm, relinkedParent, innerNotParent.symm]
      · intro queried equal
        cases equal
        simp [innerNotParent, innerNotSub, relinkedInner]
      · intro frame member
        have notParent := frameNe frame member parent (by simp)
        have notSub := frameNe frame member sub (by simp)
        have notInner := frameNe frame member address (by simp [innerMem])
        simp [notParent, notSub, notInner, relinkedFrame frame member, swungElse]
      · intro queried notSub notParent notInner notAbove
        have notAddress : queried ≠ address := by simpa using notInner
        simp [notSub, notParent, notAddress, relinkedElse queried notSub notAbove, swungElse]

/-! ## Double rotations -/

/-- The factor that a double rotation leaves at the node it moves down, when the
node it lifts had `bf`. -/
def settledParent (heavy : Side) (bf : Int) : Int :=
  if bf = weight heavy then weight heavy.other else 0

/-- The factor that a double rotation leaves at the former child of that node. -/
def settledSub (heavy : Side) (bf : Int) : Int :=
  if bf = weight heavy.other then weight heavy else 0

/-- The double rotation for a heavy side. -/
def doubleRotation (heavy : Side) (tree : AVLTree Key Value) (parent : Ptr) :
    Outcome (AVLTree Key Value) :=
  match heavy with
  | .left => leftRightRotation tree parent
  | .right => rightLeftRotation tree parent

section DoubleRotation

variable {heavy : Side} {parent sub inner : Nat} {data subData innerData : AVLData Key Value}
  {near innerNear innerFar far : FactorTree Key Value} {context : Context (AVLData Key Value)}

/-- The two single rotations of a double rotation. -/
theorem rotate_twice
    (represents : RepresentsAt heap root
      (.oriented heavy (.oriented heavy near sub subData
        (.oriented heavy innerNear inner innerData innerFar)) parent data far) context)
    (hangsSub : data.key < subData.key ↔ heavy = .right) (hangs : Hangs data.key context) :
    ∃ middle after, rotate heavy ⟨heap, root⟩ (some sub) = .ok middle ∧
      rotate heavy.other middle (some parent) = .ok after ∧
      RepresentsAt after.heap after.root
        (.oriented heavy (.oriented heavy near sub (subData.setBf 0) innerNear) inner
          (innerData.setBf 0) (.oriented heavy innerFar parent (data.setBf 0) far)) context := by
  have lowered := (representsAt_fill _ ⟨heavy, parent, data, far⟩ context).mp represents
  rcases rotate_represents heavy lowered hangsSub with ⟨middle, first, middleRep⟩
  have lifted := (representsAt_fill _ ⟨heavy, parent, data, far⟩ context).mpr middleRep
  simp only [Frame.fill, ← AddrTree.oriented_other heavy] at lifted
  have facing : RepresentsAt middle.heap middle.root
      (.oriented heavy.other far parent data (.oriented heavy.other innerFar inner
        (innerData.setBf 0) (.oriented heavy near sub (subData.setBf 0) innerNear))) context := by
    simpa only [AddrTree.oriented_other] using lifted
  rcases rotate_represents heavy.other facing hangs with ⟨after, second, afterRep⟩
  refine ⟨middle, after, first, second, ?_⟩
  simpa only [AddrTree.oriented_other, AVLData.setBf_setBf] using afterRep

/-- A double rotation on the stored nodes, with the factors it leaves. -/
theorem doubleRotation_represents
    (represents : RepresentsAt heap root
      (.oriented heavy (.oriented heavy near sub subData
        (.oriented heavy innerNear inner innerData innerFar)) parent data far) context)
    (hangsSub : data.key < subData.key ↔ heavy = .right) (hangs : Hangs data.key context) :
    ∃ after, doubleRotation heavy ⟨heap, root⟩ (some parent) = .ok after ∧
      RepresentsAt after.heap after.root
        (.oriented heavy
          (.oriented heavy near sub (subData.setBf (settledSub heavy innerData.bf)) innerNear)
          inner (innerData.setBf 0)
          (.oriented heavy innerFar parent (data.setBf (settledParent heavy innerData.bf)) far))
        context := by
  rcases rotate_twice represents hangsSub hangs with ⟨middle, turned, first, second, turnedRep⟩
  have parts := (Linked.oriented_iff ..).mp represents.focus
  rcases parts with ⟨foundParent, subLinked, _⟩
  rcases (Linked.oriented_iff ..).mp subLinked with ⟨foundSub, _, innerLinked⟩
  rcases (Linked.oriented_iff ..).mp innerLinked with ⟨foundInner, _, _⟩
  rw [AddrTree.pointer_oriented] at foundParent foundSub
  cases heavy with
  | left =>
      simp only [Side.other] at second
      simp only [doubleRotation, leftRightRotation, leftLeftRotation, rightRightRotation,
        Store.load_some foundParent, Store.load_some foundSub, Store.load_some foundInner,
        TreeNode.oriented, Outcome.ok_bind, first, second,
        settledParent, settledSub, weight, Side.other]
      by_cases light : innerData.bf = -1
      · rcases settle turnedRep 1 0 with
            ⟨one, two, after, parentSet, subSet, innerSet, afterRep⟩
        exact ⟨⟨after, turned.root⟩, by simp [light, parentSet, subSet, innerSet],
          by simpa [light] using afterRep⟩
      · by_cases dense : innerData.bf = 1
        · rcases settle turnedRep 0 (-1) with
            ⟨one, two, after, parentSet, subSet, innerSet, afterRep⟩
          exact ⟨⟨after, turned.root⟩, by simp [dense, parentSet, subSet, innerSet],
            by simpa [dense] using afterRep⟩
        · -- this branch writes the child before the parent
          rcases setBf_near turnedRep 0 with ⟨one, subSet, oneRep⟩
          rcases setBf_far oneRep 0 with ⟨two, parentSet, twoRep⟩
          rcases setBf_represents twoRep 0 with ⟨after, innerSet, afterRep⟩
          exact ⟨⟨after, turned.root⟩, by simp [light, dense, subSet, parentSet, innerSet],
            by simpa [light, dense] using afterRep⟩
  | right =>
      simp only [Side.other] at second
      simp only [doubleRotation, rightLeftRotation, leftLeftRotation, rightRightRotation,
        Store.load_some foundParent, Store.load_some foundSub, Store.load_some foundInner,
        TreeNode.oriented, Outcome.ok_bind, first, second,
        settledParent, settledSub, weight, Side.other]
      by_cases dense : innerData.bf = 1
      · -- the child is not written here; the single rotation has cleared its factor
        rcases setBf_far turnedRep (-1) with ⟨one, parentSet, oneRep⟩
        rcases setBf_represents oneRep 0 with ⟨two, innerSet, twoRep⟩
        rcases setBf_represents twoRep 0 with ⟨after, innerAgain, afterRep⟩
        exact ⟨⟨after, turned.root⟩, by simp [dense, parentSet, innerSet, innerAgain],
          by simpa [dense] using afterRep⟩
      · by_cases light : innerData.bf = -1
        · rcases settle turnedRep 0 1 with
            ⟨one, two, after, parentSet, subSet, innerSet, afterRep⟩
          exact ⟨⟨after, turned.root⟩, by simp [light, parentSet, subSet, innerSet],
            by simpa [light] using afterRep⟩
        · rcases settle turnedRep 0 0 with
            ⟨one, two, after, parentSet, subSet, innerSet, afterRep⟩
          exact ⟨⟨after, turned.root⟩, by simp [light, dense, parentSet, subSet, innerSet],
            by simpa [light, dense] using afterRep⟩

end DoubleRotation

end DataStructAlgorithm.DataStruct.AVLTree
