import DataStructAlgorithm.Foundation.Ancestors
import DataStructAlgorithm.DataStruct.BinaryTree.BinaryTree

/-! # The common ancestor of two nodes

`FindCommFather2` compares the paths from the root to the nodes. `FindCommFather` looks for the
nodes in the subtrees; at a node that is one of the two it asks for the root of the whole tree. -/

namespace DataStructAlgorithm.DataStruct.BinaryTree

open Foundation

variable {T : Type}

/-! ## Paths -/

/-- A call for a child, if there is one; otherwise nothing is found. -/
def ifChild (call : Ptr → Outcome (Bool × List Ptr)) (child : Ptr) (s : List Ptr) :
    Outcome (Bool × List Ptr) :=
  match child with
  | none => .ok (false, s)
  | some _ => call child

/-- `_GetPath`. The head of the list is the top of the stack. -/
def getPath (heap : Store (Node T)) (data : Ptr) :
    (fuel : Nat) → (root : Ptr) → (s : List Ptr) → Outcome (Bool × List Ptr)
  | 0, _, _ => .error .outOfFuel
  | _ + 1, none, s => .ok (false, s)
  | fuel + 1, some root, s =>
      if some root = data then .ok (true, some root :: s)
      else do
        let node ← heap.load (some root)
        let left ← ifChild (getPath heap data fuel · (some root :: s)) node.left (some root :: s)
        if left.1 then pure left
        else do
          let right ← ifChild (getPath heap data fuel · left.2) node.right left.2
          if right.1 then pure right
          else pure (false, right.2.tail)

/-- One pass of `while (s_x1.size() != s_x2.size())`. -/
def trimPass (state : List Ptr × List Ptr) :
    Outcome (Pass (List Ptr × List Ptr) (List Ptr × List Ptr)) :=
  if state.1.length ≠ state.2.length then
    if state.1.length > state.2.length then .ok (.again (state.1.tail, state.2))
    else .ok (.again (state.1, state.2.tail))
  else .ok (.leave state)

/-- One pass of `while (s_x1.size() > 0)`. -/
def topPass (state : List Ptr × List Ptr) : Outcome (Pass (List Ptr × List Ptr) Ptr) :=
  match state with
  | ([], _) => .ok (.leave none)
  | (_, []) => .error .outOfRange
  | (first :: firsts, second :: seconds) =>
      if first = second then .ok (.leave first) else .ok (.again (firsts, seconds))

/-- `FindCommFather2` -/
def findCommFather2 (fuel : Nat) (tree : ForkTree T) (x1 x2 : Ptr) : Outcome Ptr := do
  let first ← getPath tree.heap x1 fuel tree.root []
  let second ← getPath tree.heap x2 fuel tree.root []
  let trimmed ← repeatLoop trimPass fuel (first.2, second.2)
  repeatLoop topPass fuel trimmed

section Paths

variable {heap : Store (Node T)} {tree : AddrTree T}

/-- The stack gets the path to the node, or is left as it was. -/
theorem getPath_spec (held : Held heap tree) (data : Ptr) (s : List Ptr) (fuel : Nat)
    (enough : tree.height < fuel) :
    getPath heap data fuel tree.pointer s =
      .ok (decide (pathTo data tree ≠ []), (pathTo data tree).map some ++ s) := by
  induction tree generalizing s fuel with
  | nil =>
      cases fuel with
      | zero => omega
      | succ fuel => rfl
  | node left address item right leftInduction rightInduction =>
      rcases held with ⟨found, leftHeld, rightHeld⟩
      simp only [AddrTree.height] at enough
      cases fuel with
      | zero => omega
      | succ fuel =>
          have onLeft := leftInduction leftHeld (some address :: s) fuel (by omega)
          have onRight := rightInduction rightHeld (some address :: s) fuel (by omega)
          have goLeft : ifChild (getPath heap data fuel · (some address :: s)) left.pointer
              (some address :: s) = .ok (decide (pathTo data left ≠ []),
                (pathTo data left).map some ++ some address :: s) := by
            cases left with
            | nil => rfl
            | node => exact onLeft
          have goRight : ifChild (getPath heap data fuel · (some address :: s)) right.pointer
              (some address :: s) = .ok (decide (pathTo data right ≠ []),
                (pathTo data right).map some ++ some address :: s) := by
            cases right with
            | nil => rfl
            | node => exact onRight
          rw [AddrTree.pointer_node, getPath, pathTo]
          by_cases here : some address = data
          · simp [here]
          · rw [if_neg here, if_neg here, Store.load_some found, Outcome.ok_bind, goLeft,
              Outcome.ok_bind]
            by_cases inLeft : pathTo data left ≠ []
            · simp [inLeft]
            · rw [not_not] at inLeft
              simp only [inLeft, ne_eq, not_true, decide_false, Bool.false_eq_true, if_false,
                List.map_nil, List.nil_append]
              rw [goRight, Outcome.ok_bind]
              by_cases inRight : pathTo data right ≠ []
              · simp [inRight]
              · rw [not_not] at inRight
                simp [inRight]

/-- The longer list is cut to the length of the other one. -/
theorem trim_spec (firsts seconds : List Ptr) (fuel : Nat)
    (enough : firsts.length + seconds.length < fuel) :
    repeatLoop trimPass fuel (firsts, seconds) =
      .ok (firsts.drop (firsts.length - seconds.length),
        seconds.drop (seconds.length - firsts.length)) := by
  have looped : ∃ trimmed, repeatLoop trimPass fuel (firsts, seconds) = .ok trimmed ∧
      trimmed = (firsts.drop (firsts.length - seconds.length),
        seconds.drop (seconds.length - firsts.length)) := by
    refine repeatLoop_total
      (fun bound (state : List Ptr × List Ptr) => state.1.length + state.2.length = bound ∧
        (state.1.drop (state.1.length - state.2.length),
          state.2.drop (state.2.length - state.1.length)) =
        (firsts.drop (firsts.length - seconds.length),
          seconds.drop (seconds.length - firsts.length)))
      (fun trimmed => trimmed = (firsts.drop (firsts.length - seconds.length),
        seconds.drop (seconds.length - firsts.length)))
      ?_ fuel _ (firsts, seconds) ⟨rfl, rfl⟩ enough
    rintro bound ⟨one, two⟩ ⟨rfl, same⟩
    simp only at same
    by_cases equal : one.length = two.length
    · refine Or.inr ⟨(one, two), if_neg (not_not.mpr equal), ?_⟩
      rw [← same, equal, Nat.sub_self, List.drop_zero, List.drop_zero]
    · left
      by_cases longer : one.length > two.length
      · refine ⟨(one.tail, two), _, ?_, ?_, rfl, ?_⟩
        · rw [trimPass, if_pos equal, if_pos longer]
        · simp only [List.length_tail]
          omega
        · rw [← same]
          cases one with
          | nil => cases longer
          | cons head one =>
              simp only [List.length_cons] at longer equal ⊢
              rw [List.tail_cons, show one.length + 1 - two.length = one.length - two.length + 1 by
                omega, List.drop_succ_cons, show two.length - one.length = 0 by omega,
                show two.length - (one.length + 1) = 0 by omega]
      · refine ⟨(one, two.tail), _, ?_, ?_, rfl, ?_⟩
        · rw [trimPass, if_pos equal, if_neg longer]
        · simp only [List.length_tail]
          omega
        · rw [← same]
          cases two with
          | nil =>
              simp only [List.length_nil] at longer equal
              omega
          | cons head two =>
              simp only [List.length_cons] at longer equal ⊢
              rw [List.tail_cons, show two.length + 1 - one.length = two.length - one.length + 1 by
                omega, List.drop_succ_cons, show one.length - two.length = 0 by omega,
                show one.length - (two.length + 1) = 0 by omega]
  rcases looped with ⟨trimmed, returned, rfl⟩
  exact returned

theorem top_spec (firsts seconds : List Nat) (same : firsts.length = seconds.length) (fuel : Nat)
    (enough : firsts.length < fuel) :
    repeatLoop topPass fuel (firsts.map some, seconds.map some) = .ok (meeting firsts seconds) := by
  induction firsts generalizing seconds fuel with
  | nil =>
      cases fuel with
      | zero => omega
      | succ fuel => exact repeatLoop_leave fuel rfl
  | cons first firsts induction =>
      cases seconds with
      | nil => cases same
      | cons second seconds =>
          cases fuel with
          | zero => omega
          | succ fuel =>
              simp only [List.map_cons, meeting]
              by_cases equal : first = second
              · rw [if_pos equal]
                refine repeatLoop_leave fuel ?_
                simp [topPass, equal]
              · have pass : topPass (some first :: firsts.map some, some second :: seconds.map some) =
                    .ok (.again (firsts.map some, seconds.map some)) := by
                  simp [topPass, equal]
                rw [if_neg equal, repeatLoop_again fuel pass]
                exact induction seconds (Nat.succ.inj same) fuel (Nat.lt_of_succ_lt_succ enough)

theorem length_pathTo_le (data : Ptr) (tree : AddrTree T) :
    (pathTo data tree).length ≤ tree.height := by
  induction tree with
  | nil => exact Nat.le_refl 0
  | node left address item right leftInduction rightInduction =>
      rw [pathTo, AddrTree.height]
      split
      next =>
        rw [List.length_singleton]
        omega
      next =>
        split
        next =>
          rw [List.length_append, List.length_singleton]
          omega
        next =>
          split
          next =>
            rw [List.length_append, List.length_singleton]
            omega
          next => exact Nat.zero_le _

end Paths

/-- What `FindCommFather2` returns. -/
theorem findCommFather2_eq {tree : ForkTree T} {whole : AddrTree T} (shows : tree.Shows whole)
    (x1 x2 : Ptr) (fuel : Nat) (enough : 2 * whole.height < fuel) :
    findCommFather2 fuel tree x1 x2 = .ok (meetingOf (pathTo x1 whole) (pathTo x2 whole)) := by
  have firstLength := length_pathTo_le x1 whole
  have secondLength := length_pathTo_le x2 whole
  rw [findCommFather2, shows.root_eq, getPath_spec shows.held x1 [] fuel (by omega),
    Outcome.ok_bind, getPath_spec shows.held x2 [] fuel (by omega), Outcome.ok_bind,
    List.append_nil, List.append_nil,
    trim_spec _ _ fuel (by simp only [List.length_map]; omega), Outcome.ok_bind]
  simp only [List.length_map, ← List.map_drop]
  exact top_spec _ _ (by simp only [List.length_drop]; omega) fuel
    (by simp only [List.length_drop]; omega)

/-- The pointer is to a node of the tree. -/
def PointsInto (x : Ptr) (whole : AddrTree T) : Prop :=
  ∃ address ∈ whole.addresses, some address = x

/-- `FindCommFather2` returns the lowest common ancestor of two nodes of the tree, and a null
pointer for other pointers. -/
theorem findCommFather2_lowest {tree : ForkTree T} {whole : AddrTree T} (shows : tree.Shows whole)
    (x1 x2 : Ptr) :
    ∃ enough father, (∀ fuel, enough ≤ fuel → findCommFather2 fuel tree x1 x2 = .ok father) ∧
      (∀ first ∈ whole.addresses, ∀ second ∈ whole.addresses, x1 = some first → x2 = some second →
        ∃ node, father = some node ∧ LowestCommonAncestor whole first second node) ∧
      (¬(PointsInto x1 whole ∧ PointsInto x2 whole) → father = none) := by
  refine ⟨2 * whole.height + 1, _, fun fuel enough =>
    findCommFather2_eq shows x1 x2 fuel (by omega), ?_, ?_⟩
  · rintro first inFirst second inSecond rfl rfl
    exact meetingOf_pathTo shows.nodup inFirst inSecond
  · intro outside
    rw [PointsInto, PointsInto, ← pathTo_ne_nil_iff, ← pathTo_ne_nil_iff, not_and_or, not_not,
      not_not] at outside
    rcases outside with nothing | nothing
    · rw [nothing, meetingOf_nil_left]
    · rw [nothing, meetingOf_nil_right]

/-- A root with a left child that has a left child. -/
def chain : ForkTree Nat where
  heap := ((Store.empty.alloc ⟨1, some 1, none⟩).alloc ⟨2, some 2, none⟩).alloc ⟨3, none, none⟩
  root := some 0

theorem chain_shows : chain.Shows (.node (.node (.node .nil 2 3 .nil) 1 2 .nil) 0 1 .nil) :=
  ⟨rfl, ⟨rfl, ⟨rfl, ⟨rfl, trivial, trivial⟩, trivial⟩, trivial⟩, by decide⟩

theorem findCommFather2_lowest_three :
    ∃ enough father, (∀ fuel, enough ≤ fuel →
        findCommFather2 fuel chain (some 1) (some 2) = .ok father) ∧
      (∀ first ∈ [2, 1, 0], ∀ second ∈ [2, 1, 0], some 1 = some first → some 2 = some second →
        ∃ node, father = some node ∧ LowestCommonAncestor
          (.node (.node (.node .nil 2 3 .nil) 1 2 .nil) 0 1 .nil) first second node) ∧
      (¬(PointsInto (some 1) (.node (.node (.node .nil 2 3 .nil) 1 2 .nil) 0 1 .nil) ∧
          PointsInto (some 2) (.node (.node (.node .nil 2 3 .nil) 1 2 .nil) 0 1 .nil)) →
        father = none) :=
  findCommFather2_lowest chain_shows (some 1) (some 2)

/-! ## Looking into the subtrees -/

/-- `_Find` for a node. -/
def find (heap : Store (Node T)) (data : Ptr) : (fuel : Nat) → (root : Ptr) → Outcome Ptr
  | 0, _ => .error .outOfFuel
  | _ + 1, none => .ok none
  | fuel + 1, some root =>
      if some root = data then .ok (some root)
      else do
        let node ← heap.load (some root)
        let find' ← find heap data fuel node.left
        if find' ≠ none then pure find' else find heap data fuel node.right

/-- The two flags of `_FindCommFather` for one of the nodes; without either it returns. -/
def findSide (heap : Store (Node T)) (fuel : Nat) (root : Node T) (x : Ptr) :
    Outcome (Option Side) := do
  let inLeft ← find heap x fuel root.left
  if inLeft ≠ none then pure (some .left)
  else do
    let inRight ← find heap x fuel root.right
    if inRight ≠ none then pure (some .right) else pure none

/-- `_FindCommFather`, where `whole` is the member `_root`. -/
def findCommFatherBelow (heap : Store (Node T)) (whole x1 x2 : Ptr) :
    (fuel : Nat) → (root : Ptr) → Outcome Ptr
  | 0, _ => .error .outOfFuel
  | _ + 1, none => .ok none
  | fuel + 1, some root =>
      if x1 = some root ∨ x2 = some root then .ok (if x1 = whole then x1 else x2)
      else do
        let node ← heap.load (some root)
        match ← findSide heap fuel node x1 with
        | none => pure none
        | some first => do
            match ← findSide heap fuel node x2 with
            | none => pure none
            | some second =>
                match first, second with
                | .left, .left => findCommFatherBelow heap whole x1 x2 fuel node.left
                | .right, .right => findCommFatherBelow heap whole x1 x2 fuel node.right
                | _, _ => pure (some root)

/-- `FindCommFather` -/
def findCommFather (fuel : Nat) (tree : ForkTree T) (x1 x2 : Ptr) : Outcome Ptr :=
  if x1 = none ∨ x2 = none then .error .assertion
  else findCommFatherBelow tree.heap tree.root x1 x2 fuel tree.root

section Subtrees

variable {heap : Store (Node T)} {tree left right : AddrTree T} {address : Nat} {item : T}

theorem find_spec (held : Held heap tree) (queried fuel : Nat) (enough : tree.height < fuel) :
    find heap (some queried) fuel tree.pointer =
      .ok (if queried ∈ tree.addresses then some queried else none) := by
  induction tree generalizing fuel with
  | nil =>
      cases fuel with
      | zero => omega
      | succ fuel => rfl
  | node left address item right leftInduction rightInduction =>
      rcases held with ⟨found, leftHeld, rightHeld⟩
      simp only [AddrTree.height] at enough
      cases fuel with
      | zero => omega
      | succ fuel =>
          rw [AddrTree.pointer_node, find]
          simp only [AddrTree.mem_node]
          by_cases here : queried = address
          · simp [here]
          · rw [if_neg (fun equal => here (Option.some.inj equal).symm), Store.load_some found,
              Outcome.ok_bind, leftInduction leftHeld fuel (by omega), Outcome.ok_bind,
              rightInduction rightHeld fuel (by omega)]
            by_cases inLeft : queried ∈ left.addresses <;> simp [here, inLeft]

theorem findSide_spec (held : Held heap (.node left address item right)) {queried : Nat}
    (member : queried ∈ (AddrTree.node left address item right).addresses)
    (notHere : queried ≠ address) (fuel : Nat)
    (enough : (AddrTree.node left address item right).height ≤ fuel) :
    ∃ side, findSide heap fuel ⟨item, left.pointer, right.pointer⟩ (some queried) =
        .ok (some side) ∧
      (side = .left ∧ queried ∈ left.addresses ∨
        side = .right ∧ queried ∉ left.addresses ∧ queried ∈ right.addresses) := by
  rw [AddrTree.height] at enough
  have onLeft := find_spec held.2.1 queried fuel (by omega)
  have onRight := find_spec held.2.2 queried fuel (by omega)
  rcases AddrTree.mem_node.mp member with inLeft | here | inRight
  · rw [if_pos inLeft] at onLeft
    exact ⟨.left, by simp [findSide, onLeft], Or.inl ⟨rfl, inLeft⟩⟩
  · exact absurd here notHere
  · by_cases inLeft : queried ∈ left.addresses
    · rw [if_pos inLeft] at onLeft
      exact ⟨.left, by simp [findSide, onLeft], Or.inl ⟨rfl, inLeft⟩⟩
    · rw [if_neg inLeft] at onLeft
      rw [if_pos inRight] at onRight
      exact ⟨.right, by simp [findSide, onLeft, onRight], Or.inr ⟨rfl, inLeft, inRight⟩⟩

/-- If one of the nodes is above the other, the function returns the first one when that is the
root of the whole tree, and else the second one. -/
def fatherOf (whole : Ptr) (first second lowest : Nat) : Nat :=
  if lowest = first ∨ lowest = second then if some first = whole then first else second
  else lowest

theorem findCommFatherBelow_spec (held : Held heap tree) (nodup : tree.addresses.Nodup)
    {first second : Nat} (inFirst : first ∈ tree.addresses) (inSecond : second ∈ tree.addresses)
    (whole : Ptr) (fuel : Nat) (enough : tree.height < fuel) :
    ∃ lowest, LowestCommonAncestor tree first second lowest ∧
      findCommFatherBelow heap whole (some first) (some second) fuel tree.pointer =
        .ok (some (fatherOf whole first second lowest)) := by
  induction tree generalizing fuel with
  | nil => cases inFirst
  | node left address item right leftInduction rightInduction =>
      have apart := AddrTree.Apart.of_nodup nodup
      cases fuel with
      | zero => omega
      | succ fuel =>
          rw [AddrTree.pointer_node, findCommFatherBelow]
          by_cases here : first = address ∨ second = address
          · refine ⟨address, .top inFirst inSecond ?_ ?_, ?_⟩
            · rintro ⟨firstLeft, secondLeft⟩
              rcases here with rfl | rfl
              · exact apart.notLeft firstLeft
              · exact apart.notLeft secondLeft
            · rintro ⟨firstRight, secondRight⟩
              rcases here with rfl | rfl
              · exact apart.notRight firstRight
              · exact apart.notRight secondRight
            · have asked : some first = some address ∨ some second = some address := by
                simpa using here
              rw [if_pos asked, fatherOf, if_pos (here.imp Eq.symm Eq.symm)]
              split <;> rfl
          · rw [not_or] at here
            have heightLe := Nat.le_of_lt_succ enough
            rcases findSide_spec held inFirst here.1 fuel heightLe with
              ⟨firstSide, firstFound, fromFirst⟩
            rcases findSide_spec held inSecond here.2 fuel heightLe with
              ⟨secondSide, secondFound, fromSecond⟩
            rcases held with ⟨found, leftHeld, rightHeld⟩
            simp only [AddrTree.height] at enough
            rw [if_neg (by simpa using here), Store.load_some found, Outcome.ok_bind, firstFound,
              Outcome.ok_bind]
            simp only [secondFound, Outcome.ok_bind]
            have top : ¬(first ∈ left.addresses ∧ second ∈ left.addresses) →
                ¬(first ∈ right.addresses ∧ second ∈ right.addresses) →
                ∃ lowest, LowestCommonAncestor (.node left address item right) first second
                    lowest ∧
                  (.ok (some address) : Outcome Ptr) =
                    .ok (some (fatherOf whole first second lowest)) := by
              intro notLeft notRight
              refine ⟨address, .top inFirst inSecond notLeft notRight, ?_⟩
              rw [fatherOf, if_neg (by simpa [eq_comm] using here)]
            rcases fromFirst with ⟨rfl, firstLeft⟩ | ⟨rfl, firstNotLeft, firstRight⟩
            · rcases fromSecond with ⟨rfl, secondLeft⟩ | ⟨rfl, secondNotLeft, secondRight⟩
              · rcases leftInduction leftHeld apart.leftNodup firstLeft secondLeft fuel (by omega)
                  with ⟨lowest, isLowest, returned⟩
                exact ⟨lowest, isLowest.of_left apart, returned⟩
              · exact top (fun both => secondNotLeft both.2)
                  (fun both => apart.disjoint _ firstLeft both.1)
            · rcases fromSecond with ⟨rfl, secondLeft⟩ | ⟨rfl, secondNotLeft, secondRight⟩
              · exact top (fun both => firstNotLeft both.1)
                  (fun both => apart.disjoint _ secondLeft both.2)
              · rcases rightInduction rightHeld apart.rightNodup firstRight secondRight fuel
                  (by omega) with ⟨lowest, isLowest, returned⟩
                exact ⟨lowest, isLowest.of_right apart, returned⟩

end Subtrees

/-- Both functions return the same node exactly if the first node is the root or the second one,
or is not above the second one. -/
theorem findCommFather_agrees_iff {tree : ForkTree T} {whole : AddrTree T}
    (shows : tree.Shows whole) {x1 x2 : Nat} (inFirst : x1 ∈ whole.addresses)
    (inSecond : x2 ∈ whole.addresses) :
    (∃ enough father, ∀ fuel, enough ≤ fuel →
      findCommFather fuel tree (some x1) (some x2) = .ok father ∧
        findCommFather2 fuel tree (some x1) (some x2) = .ok father) ↔
      tree.root = some x1 ∨ x1 = x2 ∨ ¬Above whole x1 x2 := by
  have below : ∀ fuel, whole.height < fuel → ∃ lowest,
      LowestCommonAncestor whole x1 x2 lowest ∧
      findCommFather fuel tree (some x1) (some x2) =
        .ok (some (fatherOf tree.root x1 x2 lowest)) := by
    intro fuel enough
    rcases findCommFatherBelow_spec shows.held shows.nodup inFirst inSecond tree.root fuel enough
      with ⟨lowest, isLowest, returned⟩
    refine ⟨lowest, isLowest, ?_⟩
    rw [findCommFather, if_neg (by simp), ← returned, shows.root_eq]
  rcases meetingOf_pathTo shows.nodup inFirst inSecond with ⟨lowest, met, isLowest⟩
  have answers : ∀ fuel, 2 * whole.height < fuel →
      findCommFather fuel tree (some x1) (some x2) =
          .ok (some (fatherOf tree.root x1 x2 lowest)) ∧
        findCommFather2 fuel tree (some x1) (some x2) = .ok (some lowest) := by
    intro fuel enough
    rcases below fuel (by omega) with ⟨other, otherLowest, returned⟩
    rw [isLowest.unique shows.nodup otherLowest]
    rw [isLowest.unique shows.nodup otherLowest] at met
    exact ⟨returned, by rw [findCommFather2_eq shows _ _ fuel enough, met]⟩
  have same : fatherOf tree.root x1 x2 lowest = lowest ↔
      tree.root = some x1 ∨ x1 = x2 ∨ ¬Above whole x1 x2 := by
    rw [← isLowest.eq_first_iff shows.nodup, fatherOf]
    by_cases first : lowest = x1
    · subst first
      by_cases root : tree.root = some lowest <;> simp [root, eq_comm]
    · by_cases second : lowest = x2
      · subst second
        have notRoot : some x1 ≠ tree.root := by
          intro root
          rw [shows.root_eq] at root
          exact first ((isLowest.eq_first_iff shows.nodup).mpr
            ⟨whole, 0, .here, root.symm, inSecond⟩)
        simp [first, notRoot]
      · simp [first, second]
  constructor
  · rintro ⟨enough, father, agree⟩
    have returned := answers (enough + 2 * whole.height + 1) (by omega)
    have both := agree (enough + 2 * whole.height + 1) (by omega)
    rw [returned.1, returned.2] at both
    exact same.mp (Option.some.inj (Except.ok.inj (both.1.trans both.2.symm)))
  · intro condition
    refine ⟨2 * whole.height + 1, some lowest, fun fuel enough => ?_⟩
    have returned := answers fuel (by omega)
    rw [same.mpr condition] at returned
    exact returned

theorem findCommFather_agrees_iff_three :
    ∃ enough father, ∀ fuel, enough ≤ fuel →
      findCommFather fuel chain (some 0) (some 2) = .ok father ∧
        findCommFather2 fuel chain (some 0) (some 2) = .ok father :=
  (findCommFather_agrees_iff chain_shows (by decide) (by decide)).mpr (Or.inl rfl)

/-- The first node is not the root, and the second one is its child. -/
theorem findCommFather_below_root :
    findCommFather 5 chain (some 1) (some 2) = .ok (some 2) ∧
      findCommFather2 5 chain (some 1) (some 2) = .ok (some 1) := ⟨rfl, rfl⟩

end DataStructAlgorithm.DataStruct.BinaryTree
