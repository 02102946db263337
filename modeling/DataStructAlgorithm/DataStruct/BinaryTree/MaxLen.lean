import DataStructAlgorithm.Foundation.LongestPath
import DataStructAlgorithm.DataStruct.BinaryTree.Depth

/-! # The longest path

`_GetMaxLen` asks `_Depth` for both sides of every node. `_GetMaxLen2` returns the depth from the
traversal that takes the maximum. Both keep depths in variables of type `int`. -/

namespace DataStructAlgorithm.DataStruct.BinaryTree

open Foundation

variable {T : Type}

/-- `_GetMaxLen2`. The second value is what it leaves in `maxlen`. -/
def getMaxLen2 (heap : Store (Node T)) : (fuel : Nat) → (root : Ptr) → (maxlen : Int) →
    Outcome (Int × Int)
  | 0, _, _ => .error .outOfFuel
  | _ + 1, none, maxlen => .ok (0, maxlen)
  | fuel + 1, some root, maxlen => do
      let node ← heap.load (some root)
      let (left_depth, maxlen) ← getMaxLen2 heap fuel node.left maxlen
      let (right_depth, maxlen) ← getMaxLen2 heap fuel node.right maxlen
      let both ← addInt left_depth right_depth
      let depth ← (if left_depth > right_depth then addInt left_depth 1 else addInt right_depth 1)
      pure (depth, if maxlen > both then maxlen else both)

/-- `_GetMaxLen`, with what it leaves in `maxlen`. -/
def getMaxLen (heap : Store (Node T)) : (fuel : Nat) → (root : Ptr) → (maxlen : Int) →
    Outcome Int
  | 0, _, _ => .error .outOfFuel
  | _ + 1, none, maxlen => .ok maxlen
  | fuel + 1, some root, maxlen => do
      let node ← heap.load (some root)
      let left ← depth heap fuel node.left
      let right ← depth heap fuel node.right
      let both ← addInt (toInt left) (toInt right)
      let maxlen ← getMaxLen heap fuel node.left (if maxlen > both then maxlen else both)
      getMaxLen heap fuel node.right maxlen

/-! ## What is left in `maxlen` -/

/-- The greater one of the longest path and what was there before. -/
def widest (maxlen : Int) : AddrTree T → Int
  | .nil => maxlen
  | .node left address data right =>
      max maxlen (AddrTree.node left address data right).longest

section Widest

variable (tree : AddrTree T) (first second : Int)

theorem widest_max : widest (max first second) tree = max (widest first tree) second := by
  cases tree with
  | nil => rfl
  | node left address data right => exact max_right_comm first second _

/-- An empty tree has no path, which makes no difference beside another length. -/
theorem max_widest (length : Nat) :
    max (widest first tree) (length : Int) = max (max first tree.longest) length := by
  cases tree with
  | nil =>
      have none : ((AddrTree.nil : AddrTree T).longest : Int) ≤ length := Int.natCast_nonneg length
      rw [widest, max_assoc, max_eq_right none]
  | node left address data right => rfl

/-- The sides of a node may be looked at before it or after it. -/
theorem widest_node (left right : AddrTree T) (address : Nat) (data : T) :
    widest first (.node left address data right) =
      max (widest (widest first left) right) (left.height + right.height : Nat) := by
  rw [widest, AddrTree.longest, max_widest, max_right_comm, max_widest]
  omega

end Widest

section Runs

variable {heap : Store (Node T)} {whole : AddrTree T}

theorem larger_eq (maxlen both : Int) :
    (if maxlen > both then maxlen else both) = max maxlen both := by
  split <;> omega

theorem longest_left_le (left right : AddrTree T) (address : Nat) (data : T) :
    left.longest ≤ (AddrTree.node left address data right).longest := by
  rw [AddrTree.longest]
  omega

theorem longest_right_le (left right : AddrTree T) (address : Nat) (data : T) :
    right.longest ≤ (AddrTree.node left address data right).longest := by
  rw [AddrTree.longest]
  omega

theorem getMaxLen2_spec (held : Held heap whole) (shallow : whole.height < 2 ^ 31)
    (narrow : whole.longest < 2 ^ 31) (fuel : Nat) (enough : whole.height < fuel) (maxlen : Int) :
    getMaxLen2 heap fuel whole.pointer maxlen = .ok (whole.height, widest maxlen whole) := by
  induction whole generalizing fuel maxlen with
  | nil =>
      cases fuel with
      | zero => omega
      | succ fuel => rfl
  | node left address data right leftInduction rightInduction =>
      rcases held with ⟨found, leftHeld, rightHeld⟩
      have onLeft := longest_left_le left right address data
      have onRight := longest_right_le left right address data
      have turning : left.height + right.height ≤
          (AddrTree.node left address data right).longest := Nat.le_max_left _ _
      simp only [AddrTree.height] at enough shallow
      cases fuel with
      | zero => omega
      | succ fuel =>
          have both : addInt left.height right.height = .ok (left.height + right.height : Nat) :=
            addInt_natCast (by omega)
          have deeper : (if (left.height : Int) > right.height then addInt left.height 1
              else addInt right.height 1) =
              .ok ((AddrTree.node left address data right).height : Int) := by
            rw [AddrTree.height]
            split
            · rw [addInt_eq (by omega) (by omega)]
              apply congrArg
              omega
            · rw [addInt_eq (by omega) (by omega)]
              apply congrArg
              omega
          have leftRun := leftInduction leftHeld (by omega) (by omega) fuel (by omega) maxlen
          have rightRun := rightInduction rightHeld (by omega) (by omega) fuel (by omega)
            (widest maxlen left)
          rw [AddrTree.pointer_node, getMaxLen2, Store.load_some found, Outcome.ok_bind]
          dsimp only
          rw [leftRun, Outcome.ok_bind]
          dsimp only
          rw [rightRun, Outcome.ok_bind]
          dsimp only
          rw [both, Outcome.ok_bind, deeper, Outcome.ok_bind, larger_eq, widest_node,
            Outcome.pure_eq_ok]

/-- Where no depth and no sum has overflowed. -/
theorem getMaxLen2_bounds (held : Held heap whole) {fuel : Nat} (enough : whole.height < fuel)
    {maxlen : Int} {result : Int × Int}
    (returned : getMaxLen2 heap fuel whole.pointer maxlen = .ok result) :
    whole.height < 2 ^ 31 ∧ whole.longest < 2 ^ 31 := by
  induction whole generalizing fuel maxlen result with
  | nil => exact ⟨Nat.two_pow_pos 31, Nat.two_pow_pos 31⟩
  | node left address data right leftInduction rightInduction =>
      rcases held with ⟨found, leftHeld, rightHeld⟩
      simp only [AddrTree.height] at enough
      cases fuel with
      | zero => omega
      | succ fuel =>
          simp only [AddrTree.pointer_node, getMaxLen2, Store.load_some found,
            Outcome.ok_bind] at returned
          rcases Outcome.bind_eq_ok returned with ⟨fromLeft, leftRun, returned⟩
          rcases Outcome.bind_eq_ok returned with ⟨fromRight, rightRun, returned⟩
          rcases Outcome.bind_eq_ok returned with ⟨both, added, returned⟩
          rcases Outcome.bind_eq_ok returned with ⟨deeper, counted, _⟩
          have leftBounds := leftInduction leftHeld (by omega) leftRun
          have rightBounds := rightInduction rightHeld (by omega) rightRun
          rw [getMaxLen2_spec leftHeld leftBounds.1 leftBounds.2 fuel (by omega)] at leftRun
          rw [getMaxLen2_spec rightHeld rightBounds.1 rightBounds.2 fuel (by omega)] at rightRun
          cases leftRun
          cases rightRun
          have sum := addInt_eq_ok added
          rw [AddrTree.height, AddrTree.longest]
          refine ⟨?_, by omega⟩
          split at counted
          · have count := addInt_eq_ok counted
            omega
          · have count := addInt_eq_ok counted
            omega

theorem getMaxLen_spec (held : Held heap whole) (shallow : whole.height < 2 ^ 31)
    (narrow : whole.longest < 2 ^ 31) (fuel : Nat) (enough : whole.height < fuel) (maxlen : Int) :
    getMaxLen heap fuel whole.pointer maxlen = .ok (widest maxlen whole) := by
  induction whole generalizing fuel maxlen with
  | nil =>
      cases fuel with
      | zero => omega
      | succ fuel => rfl
  | node left address data right leftInduction rightInduction =>
      rcases held with ⟨found, leftHeld, rightHeld⟩
      have onLeft := longest_left_le left right address data
      have onRight := longest_right_le left right address data
      have turning : left.height + right.height ≤
          (AddrTree.node left address data right).longest := Nat.le_max_left _ _
      simp only [AddrTree.height] at enough shallow
      cases fuel with
      | zero => omega
      | succ fuel =>
          have both : addInt (toInt left.height) (toInt right.height) =
              .ok (left.height + right.height : Nat) := by
            rw [toInt_eq (by omega) (by omega), toInt_eq (by omega) (by omega)]
            exact addInt_natCast (by omega)
          rw [AddrTree.pointer_node, getMaxLen, Store.load_some found, Outcome.ok_bind,
            depth_spec leftHeld fuel (by omega), Outcome.ok_bind,
            depth_spec rightHeld fuel (by omega), Outcome.ok_bind, both, Outcome.ok_bind, larger_eq,
            leftInduction leftHeld (by omega) (by omega) fuel (by omega), Outcome.ok_bind,
            rightInduction rightHeld (by omega) (by omega) fuel (by omega), widest_max, widest_max,
            widest_node]

end Runs

/-! ## The contract -/

/-- Both functions leave the same value, and `_GetMaxLen2` returns the depth. From `-1` on, the
value is the number of edges on a longest path. -/
def MeasuresPaths (tree : ForkTree T) (whole : AddrTree T) : Prop :=
  ∃ enough, ∀ fuel, enough ≤ fuel → ∃ deep : Nat, depth tree.heap fuel tree.root = .ok deep ∧
    ∀ start : Int, ∃ maxlen : Int,
      getMaxLen2 tree.heap fuel tree.root start = .ok (deep, maxlen) ∧
      getMaxLen tree.heap fuel tree.root start = .ok maxlen ∧
      (whole ≠ .nil → start = -1 →
        ∃ edges : Nat, maxlen = edges ∧ IsGreatest whole.pathLengths edges)

section Contract

variable {tree : ForkTree T} {whole : AddrTree T}

theorem MeasuresPaths.bounds (shows : tree.Shows whole) (measures : MeasuresPaths tree whole) :
    whole.height < 2 ^ 31 ∧ whole.longest < 2 ^ 31 := by
  rcases measures with ⟨enough, measures⟩
  rcases measures (enough + whole.height + 1) (by omega) with ⟨deep, _, measures⟩
  rcases measures (-1) with ⟨maxlen, returned, _⟩
  rw [shows.root_eq] at returned
  exact getMaxLen2_bounds shows.held (by omega) returned

/-- The longest path is measured exactly where the depth and the lengths of all paths are of type
`int`. -/
theorem getMaxLen_measuresPaths_iff (shows : tree.Shows whole) :
    MeasuresPaths tree whole ↔
      whole.height < 2 ^ 31 ∧ ∀ edges ∈ whole.pathLengths, edges < 2 ^ 31 := by
  constructor
  · intro measures
    have bounds := measures.bounds shows
    refine ⟨bounds.1, fun edges member => ?_⟩
    have notNil : whole ≠ .nil := by
      rintro rfl
      rw [pathLengths_nil] at member
      exact member
    exact Nat.lt_of_le_of_lt ((isGreatest_longest shows.nodup notNil).2 member) bounds.2
  · rintro ⟨shallow, short⟩
    have narrow : whole.longest < 2 ^ 31 := by
      cases whole with
      | nil => exact Nat.two_pow_pos 31
      | node left address data right =>
          exact short _ (isGreatest_longest shows.nodup nofun).1
    refine ⟨whole.height + 1, fun fuel enough => ⟨whole.height, ?_, fun start =>
      ⟨widest start whole, ?_, ?_, ?_⟩⟩⟩
    · rw [shows.root_eq]
      exact depth_spec shows.held fuel enough
    · rw [shows.root_eq]
      exact getMaxLen2_spec shows.held shallow narrow fuel enough start
    · rw [shows.root_eq]
      exact getMaxLen_spec shows.held shallow narrow fuel enough start
    · rintro notNil rfl
      refine ⟨whole.longest, ?_, isGreatest_longest shows.nodup notNil⟩
      cases whole with
      | nil => exact absurd rfl notNil
      | node left address data right =>
          rw [widest]
          omega

end Contract

theorem getMaxLen_measuresPaths_iff_two :
    MeasuresPaths (spineTree () 2) (leftSpine () 2 0) := by
  refine (getMaxLen_measuresPaths_iff (spineTree_shows () 2)).mpr ⟨by decide, ?_⟩
  intro edges member
  have bound := (isGreatest_longest (nodup_leftSpine () 2 0) nofun).2 member
  have one : (leftSpine () 2 0).longest = 1 := rfl
  omega

/-- At the root of a tree with `2 ^ 31` levels `left_depth + 1` overflows. -/
theorem getMaxLen2_overflows :
    ¬MeasuresPaths (spineTree () (2 ^ 31)) (leftSpine () (2 ^ 31) 0) := by
  intro measures
  have bounds := measures.bounds (spineTree_shows () (2 ^ 31))
  rw [height_leftSpine] at bounds
  exact absurd bounds.1 (Nat.lt_irrefl _)

end DataStructAlgorithm.DataStruct.BinaryTree
