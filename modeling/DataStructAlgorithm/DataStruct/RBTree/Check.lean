import DataStructAlgorithm.Foundation.Spine
import DataStructAlgorithm.DataStruct.RBTree.Fixup

/-! # `is_rb_tree`

The check looks at the nodes and the null links in pre-order and stops at the first one that
fails. The path to the far left says how many black nodes the others must have. All counts are
`int`. -/

namespace DataStructAlgorithm.DataStruct.RBTree

open Foundation ColouredTree

variable {Value : Type}

/-! ## What the check looks at -/

/-- A node or a null link, with the number of black nodes on the path to it. -/
structure Visit where
  fails : Bool
  black : Nat

/-- The nodes and the null links in pre-order. A node fails if it is red and so is its parent, a
link if its path has another number of black nodes than `k`. -/
def visits (k : Nat) (above : Bool) (black : Nat) : ColouredTree Value → List Visit
  | .nil => [⟨black ≠ k, black⟩]
  | .node left _ data right =>
      ⟨above && data.col = .red, black + data.col.weight⟩ ::
        (visits k (data.col = .red) (black + data.col.weight) left ++
          visits k (data.col = .red) (black + data.col.weight) right)

/-- The number of black nodes on the path to the far left. -/
def leftmost : ColouredTree Value → Nat
  | .nil => 0
  | .node left _ data _ => leftmost left + data.col.weight

/-- What the check answers after these visits. -/
def answer : List Visit → Outcome Bool
  | [] => .ok true
  | visit :: rest =>
      if visit.fails then .ok false
      else if visit.black < 2 ^ 31 then answer rest
      else .error .outOfRange

/-- A visit with a count that is not an `int` comes too late to be made. -/
def Guarded (visits : List Visit) : Prop :=
  ∀ before visit after, visits = before ++ visit :: after → 2 ^ 31 ≤ visit.black →
    ∃ earlier ∈ before ++ [visit], earlier.fails = true

section Answer

variable {black : Nat} (fails : Bool) (rest : List Visit)

theorem answer_of_small (small : black < 2 ^ 31) :
    answer (⟨fails, black⟩ :: rest) = if fails then .ok false else answer rest := by
  cases fails with
  | true => rfl
  | false => exact if_pos small

theorem answer_of_large (large : ¬black < 2 ^ 31) :
    answer (⟨false, black⟩ :: rest) = .error .outOfRange :=
  if_neg large

end Answer

theorem answer_append (first second : List Visit) :
    answer (first ++ second) = (do
      let passed ← answer first
      if passed then answer second else pure false) := by
  induction first with
  | nil => rfl
  | cons visit rest induction =>
      rw [List.cons_append, answer, answer]
      by_cases fails : visit.fails = true
      · rw [if_pos fails, if_pos fails]
        rfl
      · by_cases small : visit.black < 2 ^ 31
        · rw [if_neg fails, if_neg fails, if_pos small, if_pos small, induction]
        · rw [if_neg fails, if_neg fails, if_neg small, if_neg small]
          rfl

theorem answer_eq_ok {list : List Visit} {flag : Bool} (answered : answer list = .ok flag) :
    flag = true ↔ ∀ visit ∈ list, visit.fails = false := by
  induction list with
  | nil =>
      cases answered
      exact iff_of_true rfl nofun
  | cons visit rest induction =>
      rw [answer] at answered
      by_cases fails : visit.fails = true
      · rw [if_pos fails] at answered
        cases answered
        refine iff_of_false Bool.false_ne_true fun all => ?_
        rw [all visit List.mem_cons_self] at fails
        cases fails
      · rw [if_neg fails] at answered
        split at answered
        next =>
          rw [induction answered, List.forall_mem_cons]
          exact (and_iff_right (Bool.eq_false_iff.mpr fails)).symm
        next => cases answered

theorem answer_returns_iff (list : List Visit) :
    (∃ flag, answer list = .ok flag) ↔ Guarded list := by
  induction list with
  | nil =>
      refine iff_of_true ⟨true, rfl⟩ ?_
      intro before visit after split
      cases before <;> cases split
  | cons visit rest induction =>
      rw [answer]
      by_cases fails : visit.fails = true
      · rw [if_pos fails]
        refine iff_of_true ⟨false, rfl⟩ ?_
        intro before other after split _
        refine ⟨visit, ?_, fails⟩
        cases before with
        | nil =>
            cases split
            exact List.mem_singleton_self visit
        | cons first before =>
            cases split
            exact List.mem_cons_self
      · rw [if_neg fails]
        by_cases small : visit.black < 2 ^ 31
        · rw [if_pos small, induction]
          constructor
          · intro guarded before other after split large
            cases before with
            | nil =>
                cases split
                omega
            | cons first before =>
                cases split
                rcases guarded before other after rfl large with ⟨earlier, member, failing⟩
                exact ⟨earlier, List.mem_cons_of_mem _ member, failing⟩
          · intro guarded before other after split large
            rcases guarded (visit :: before) other after (by rw [split]; rfl) large with
              ⟨earlier, member, failing⟩
            rcases List.mem_cons.mp member with rfl | member
            · exact absurd failing fails
            · exact ⟨earlier, member, failing⟩
        · rw [if_neg small]
          refine iff_of_false nofun fun guarded => ?_
          rcases guarded [] visit rest rfl (by omega) with ⟨earlier, member, failing⟩
          rw [List.nil_append, List.mem_singleton] at member
          exact fails (member ▸ failing)

/-- The visits are all in order exactly in the trees that are. -/
theorem visits_pass_iff (k : Nat) (above : Bool) (black : Nat) (tree : ColouredTree Value) :
    (∀ visit ∈ visits k above black tree, visit.fails = false) ↔
      (above = true → redRoot tree = false) ∧ NoRedRed tree ∧
        ∀ count ∈ blackCounts tree, black + count = k := by
  induction tree generalizing above black with
  | nil => simp [visits, redRoot, NoRedRed, blackCounts]
  | node left address data right leftInduction rightInduction =>
      have top : redRoot (.node left address data right) = decide (data.col = .red) := rfl
      have all : (∀ count ∈ blackCounts (.node left address data right), black + count = k) ↔
          (∀ count ∈ blackCounts left, black + data.col.weight + count = k) ∧
            ∀ count ∈ blackCounts right, black + data.col.weight + count = k := by
        simp only [blackCounts, List.forall_mem_map, List.forall_mem_append, Nat.add_assoc,
          Nat.add_comm data.col.weight]
      rw [visits, List.forall_mem_cons, List.forall_mem_append, leftInduction, rightInduction, all,
        top, NoRedRed]
      cases above <;> cases data.col <;> simp <;> grind

theorem leftmost_mem (tree : ColouredTree Value) : leftmost tree ∈ blackCounts tree := by
  induction tree with
  | nil => exact List.mem_singleton_self 0
  | node left address data right leftInduction _ =>
      exact List.mem_map_of_mem (List.mem_append_left _ leftInduction)

/-! ## What the code does -/

section Code

variable {heap : Store (Node Value)} {up : Ptr} {tree : ColouredTree Value}

theorem leftmost_spec (linked : Linked heap up tree) {count : Nat} (small : count < 2 ^ 31)
    (fuel : Nat) (enough : tree.height < fuel) :
    repeatLoop (leftmostPass heap) fuel (tree.pointer, (count : Int)) =
      if count + leftmost tree < 2 ^ 31 then .ok ((count + leftmost tree : Nat) : Int)
      else .error .outOfRange := by
  induction tree generalizing up count fuel with
  | nil =>
      cases fuel with
      | zero => omega
      | succ fuel =>
          have none : count + leftmost (.nil : ColouredTree Value) = count := rfl
          rw [none, if_pos small]
          exact repeatLoop_leave fuel rfl
  | node left address data right leftInduction _ =>
      rcases linked with ⟨found, leftLinked, _⟩
      simp only [AddrTree.height] at enough
      cases fuel with
      | zero => omega
      | succ fuel =>
          have again : ∀ more : Nat, more = data.col.weight → count + more < 2 ^ 31 →
              leftmostPass heap (some address, (count : Int)) =
                .ok (.again (left.pointer, ((count + more : Nat) : Int))) := by
            rintro more rfl fits
            cases colour : data.col with
            | red => simp [leftmostPass, Store.load_some found, colour, Colour.weight]
            | black =>
                rw [colour, Colour.weight] at fits
                have added : addInt count 1 = .ok (count + 1) :=
                  addInt_eq (by omega) (by omega)
                simp [leftmostPass, Store.load_some found, colour, Colour.weight, added]
          by_cases fits : count + data.col.weight < 2 ^ 31
          · rw [AddrTree.pointer_node, repeatLoop_again fuel (again _ rfl fits),
              leftInduction leftLinked fits fuel (by omega), leftmost]
            simp only [Nat.add_assoc, Nat.add_comm data.col.weight]
          · rw [leftmost, if_neg (by omega)]
            apply repeatLoop_error
            cases colour : data.col with
            | red =>
                rw [colour, Colour.weight] at fits
                omega
            | black =>
                rw [colour, Colour.weight] at fits
                have overflows : addInt count 1 = .error .outOfRange := if_neg (by omega)
                simp [leftmostPass, Store.load_some found, colour, overflows]

theorem isRbTreeBelow_eq (linked : Linked heap up tree) {above : Bool}
    (colour : isRed heap up = .ok above) (k : Nat) {black : Nat} (small : black < 2 ^ 31)
    (fuel : Nat) (enough : tree.height < fuel) :
    isRbTreeBelow heap k fuel tree.pointer black = answer (visits k above black tree) := by
  induction tree generalizing up above black fuel with
  | nil =>
      cases fuel with
      | zero => omega
      | succ fuel =>
          rw [visits, answer_of_small _ _ small]
          by_cases same : k = black
          · simp [isRbTreeBelow, answer, same]
          · have different : ¬(k : Int) = black := fun equal => same (Int.ofNat.inj equal)
            simp [isRbTreeBelow, Ne.symm same, different]
  | node left address data right leftInduction rightInduction =>
      rcases linked with ⟨found, leftLinked, rightLinked⟩
      simp only [AddrTree.height] at enough
      have below : isRed heap (some address) = .ok (decide (data.col = .red)) := by
        simp [isRed, Store.load_some found]
      cases fuel with
      | zero => omega
      | succ fuel =>
          have both : ∀ count : Nat, count < 2 ^ 31 →
              (do
                let left ← isRbTreeBelow heap k fuel left.pointer count
                if left then isRbTreeBelow heap k fuel right.pointer count else pure false) =
              answer (visits k (data.col = .red) count left ++
                visits k (data.col = .red) count right) := by
            intro count fits
            rw [answer_append, leftInduction leftLinked below fits fuel (by omega),
              rightInduction rightLinked below fits fuel (by omega)]
          rw [visits]
          cases own : data.col with
          | red =>
              rw [own] at both
              have same : black + Colour.red.weight = black := rfl
              rw [same, answer_of_small _ _ small]
              cases above with
              | true => simp [isRbTreeBelow, Store.load_some found, own, colour]
              | false =>
                  have later := both black small
                  simp only [isRbTreeBelow, AddrTree.pointer_node, Store.load_some found, own,
                    colour, Outcome.ok_bind]
                  simpa using later
          | black =>
              rw [own] at both
              have more : black + Colour.black.weight = black + 1 := rfl
              rw [more]
              by_cases fits : black + 1 < 2 ^ 31
              · have later := both (black + 1) fits
                have added : addInt black 1 = .ok ((black + 1 : Nat) : Int) :=
                  addInt_eq (by omega) (by omega)
                rw [answer_of_small _ _ fits]
                simp only [isRbTreeBelow, AddrTree.pointer_node, Store.load_some found, own,
                  Outcome.ok_bind, added]
                simpa using later
              · have overflows : addInt black 1 = .error .outOfRange := if_neg (by omega)
                have notRed : decide (Colour.black = .red) = false := rfl
                rw [notRed, Bool.and_false, answer_of_large _ fits]
                simp [isRbTreeBelow, Store.load_some found, own, overflows]

theorem isRbTree_eq {tree : RbTree Value} {whole : ColouredTree Value}
    (represents : Represents tree.heap tree.root whole) (fuel : Nat)
    (enough : whole.height < fuel) :
    isRbTree fuel tree =
      if leftmost whole < 2 ^ 31 then answer (visits (leftmost whole) false 0 whole)
      else .error .outOfRange := by
  rw [isRbTree, represents.root_eq]
  cases whole with
  | nil => rfl
  | node left address data right =>
      have counted := leftmost_spec represents.linked (show 0 < 2 ^ 31 by decide) fuel enough
      have checked := isRbTreeBelow_eq represents.linked rfl
        (leftmost (.node left address data right)) (show 0 < 2 ^ 31 by decide) fuel enough
      rw [AddrTree.pointer_node] at counted checked
      simp only [AddrTree.pointer_node]
      rw [Nat.zero_add] at counted
      split at counted
      next small =>
        rw [if_pos small]
        simpa using counted ▸ checked
      next large =>
        rw [if_neg large]
        simp only [Int.ofNat_zero] at counted
        rw [counted, Outcome.error_bind]

end Code

/-! ## The contract -/

/-- With enough fuel the check says whether no red node has a red parent and all paths to null
links have the same number of black nodes. -/
def Decides (tree : RbTree Value) (whole : ColouredTree Value) : Prop :=
  ∃ enough, ∀ fuel, enough ≤ fuel → ∃ flag, isRbTree fuel tree = .ok flag ∧
    (flag = true ↔ NoRedRed whole ∧ ∃ count, BlackHeight whole count)

/-- The check decides exactly where no count overflows: not on the path to the far left, and on
the other paths not before the check has failed. -/
theorem isRbTree_decides_iff {tree : RbTree Value} {whole : ColouredTree Value}
    (represents : Represents tree.heap tree.root whole) :
    Decides tree whole ↔
      leftmost whole < 2 ^ 31 ∧ Guarded (visits (leftmost whole) false 0 whole) := by
  constructor
  · rintro ⟨enough, decides⟩
    rcases decides (enough + whole.height + 1) (by omega) with ⟨flag, answered, _⟩
    rw [isRbTree_eq represents _ (by omega)] at answered
    split at answered
    next small => exact ⟨small, (answer_returns_iff _).mp ⟨flag, answered⟩⟩
    next => cases answered
  · rintro ⟨small, guarded⟩
    rcases (answer_returns_iff _).mpr guarded with ⟨flag, answered⟩
    refine ⟨whole.height + 1, fun fuel enough => ⟨flag, ?_, ?_⟩⟩
    · rw [isRbTree_eq represents fuel enough, if_pos small, answered]
    · rw [answer_eq_ok answered, visits_pass_iff]
      constructor
      · rintro ⟨_, noRedRed, counts⟩
        refine ⟨noRedRed, leftmost whole, fun black member => ?_⟩
        have count := counts black member
        omega
      · rintro ⟨noRedRed, count, height⟩
        refine ⟨nofun, noRedRed, fun black member => ?_⟩
        rw [height black member, height _ (leftmost_mem whole), Nat.zero_add]

/-- A black node with a red right child. -/
def redChild : RbTree Nat :=
  ⟨((Store.empty : Store (Node Nat)).alloc ⟨⟨1, .black⟩, none, some 1, none⟩).alloc
    ⟨⟨2, .red⟩, none, none, some 0⟩, some 0⟩

theorem isRbTree_decides_iff_two :
    Decides redChild (.node .nil 0 ⟨1, .black⟩ (.node .nil 1 ⟨2, .red⟩ .nil)) := by
  have represents : Represents redChild.heap redChild.root
      (.node .nil 0 ⟨1, .black⟩ (.node .nil 1 ⟨2, .red⟩ .nil)) :=
    ⟨rfl, ⟨rfl, trivial, rfl, trivial, trivial⟩, by decide⟩
  refine (isRbTree_decides_iff represents).mpr ⟨by decide, ?_⟩
  exact (answer_returns_iff _).mp ⟨true, rfl⟩

/-! ## Too many black nodes -/

/-- The first addresses hold a left spine of black nodes. -/
def blackSpine (length : Nat) : RbTree Unit where
  heap := {
    cell := fun address =>
      if address < length then
        some ⟨⟨(), .black⟩, if address + 1 < length then some (address + 1) else none, none,
          if address = 0 then none else some (address - 1)⟩
      else none
    next := length
    fresh := fun _ beyond => if_neg (Nat.not_lt.mpr beyond) }
  root := if 0 < length then some 0 else none

theorem leftmost_leftSpine (length first : Nat) :
    leftmost (leftSpine (⟨(), .black⟩ : RbData Unit) length first) = length := by
  induction length generalizing first with
  | zero => rfl
  | succ length induction => rw [leftSpine, leftmost, induction, Colour.weight]

theorem linked_leftSpine (whole length first : Nat) (all : first + length = whole) :
    Linked (blackSpine whole).heap (if first = 0 then none else some (first - 1))
      (leftSpine ⟨(), .black⟩ length first) := by
  induction length generalizing first with
  | zero => trivial
  | succ length induction =>
      have below := induction (first + 1) (by omega)
      refine ⟨?_, by simpa using below, trivial⟩
      simp only [blackSpine, pointer_leftSpine, AddrTree.pointer_nil]
      rw [if_pos (show first < whole by omega)]
      by_cases more : 0 < length
      · rw [if_pos more, if_pos (show first + 1 < whole by omega)]
      · rw [if_neg more, if_neg (show ¬first + 1 < whole by omega)]

theorem blackSpine_represents (length : Nat) :
    Represents (blackSpine length).heap (blackSpine length).root
      (leftSpine ⟨(), .black⟩ length 0) :=
  ⟨(pointer_leftSpine _ length 0).symm, linked_leftSpine length length 0 (Nat.zero_add length),
    nodup_leftSpine _ length 0⟩

/-- On a path with `2 ^ 31` black nodes `k` overflows. -/
theorem isRbTree_overflows :
    ¬Decides (blackSpine (2 ^ 31)) (leftSpine ⟨(), .black⟩ (2 ^ 31) 0) := by
  rintro ⟨enough, decides⟩
  rcases decides (enough + 2 ^ 31 + 1) (by omega) with ⟨flag, answered, _⟩
  have low := height_leftSpine (⟨(), .black⟩ : RbData Unit) (2 ^ 31) 0
  rw [isRbTree_eq (blackSpine_represents _) _ (by omega), leftmost_leftSpine,
    if_neg (Nat.lt_irrefl _)] at answered
  cases answered

end DataStructAlgorithm.DataStruct.RBTree
