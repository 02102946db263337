import DataStructAlgorithm.Foundation.Conversions
import DataStructAlgorithm.Foundation.Spine
import DataStructAlgorithm.DataStruct.BinaryTree.BinaryTree

/-! # Sizes and depths

`noRDepth` takes the nodes of one level after the other from a queue. How many there are, and how
many levels it has seen, it keeps in variables of type `int`. -/

namespace DataStructAlgorithm.DataStruct.BinaryTree

open Foundation

variable {T : Type}

/-- `_Size` -/
def size (heap : Store (Node T)) (fuel : Nat) (root : Ptr) : Outcome Nat :=
  recursion 0 (fun _ left right => left + right + 1) heap fuel root

/-- `_Depth` -/
def depth (heap : Store (Node T)) : (fuel : Nat) → (root : Ptr) → Outcome Nat
  | 0, _ => .error .outOfFuel
  | _ + 1, none => .ok 0
  | fuel + 1, some root => do
      let node ← heap.load (some root)
      if node.left = none ∧ node.right = none then pure 1
      else do
        let left ← depth heap fuel node.left
        let right ← depth heap fuel node.right
        pure (if left > right then left + 1 else right + 1)

/-- `_GetKLevelSize` -/
def getKLevelSize (heap : Store (Node T)) : (fuel : Nat) → (root : Ptr) → (K : Nat) → Outcome Nat
  | 0, _, _ => .error .outOfFuel
  | _ + 1, none, _ => .ok 0
  | fuel + 1, some root, K =>
      if K = 1 then .ok 1
      else do
        let node ← heap.load (some root)
        let left ← getKLevelSize heap fuel node.left (toSize (K - 1))
        let right ← getKLevelSize heap fuel node.right (toSize (K - 1))
        pure (left + right)

/-- One pass of `while (len--)`, over the queue and `len`. -/
def drainPass (heap : Store (Node T)) (state : List Ptr × Int) :
    Outcome (Pass (List Ptr × Int) (List Ptr)) := do
  let less ← addInt state.2 (-1)
  if state.2 ≠ 0 then
    match state.1 with
    | [] => .error .outOfRange
    | t :: q => do
        let node ← heap.load t
        pure (.again (enqueue node.right (enqueue node.left q), less))
  else pure (.leave state.1)

/-- One pass of `while (!q.empty())`, over the queue and `depth`. -/
def roundPass (fuel : Nat) (heap : Store (Node T)) (state : List Ptr × Int) :
    Outcome (Pass (List Ptr × Int) Int) :=
  if state.1.isEmpty then .ok (.leave state.2)
  else do
    let len := toInt state.1.length
    let depth ← addInt state.2 1
    let q ← repeatLoop (drainPass heap) fuel (state.1, len)
    pure (.again (q, depth))

/-- `noRDepth` -/
def noRDepth (heap : Store (Node T)) (fuel : Nat) (r : Ptr) : Outcome Nat :=
  match r with
  | none => .ok 0
  | some _ => do
      let depth ← repeatLoop (roundPass fuel heap) fuel ([r], 0)
      pure (toSize depth)

/-! ## The recursive functions -/

section Recursive

variable {heap : Store (Node T)} {whole : AddrTree T}

theorem size_spec (held : Held heap whole) (fuel : Nat) (enough : whole.height < fuel) :
    size heap fuel whole.pointer = .ok whole.size := by
  have same : ∀ tree : AddrTree T,
      tree.fold 0 (fun _ left right => left + right + 1) = tree.size := by
    intro tree
    induction tree with
    | nil => rfl
    | node left address data right leftInduction rightInduction =>
        rw [AddrTree.fold, leftInduction, rightInduction, AddrTree.size]
  rw [size, recursion_spec held fuel enough, same]

theorem depth_spec (held : Held heap whole) (fuel : Nat) (enough : whole.height < fuel) :
    depth heap fuel whole.pointer = .ok whole.height := by
  induction whole generalizing fuel with
  | nil =>
      cases fuel with
      | zero => omega
      | succ fuel => rfl
  | node left address data right leftInduction rightInduction =>
      rcases held with ⟨found, leftHeld, rightHeld⟩
      simp only [AddrTree.height] at enough
      cases fuel with
      | zero => omega
      | succ fuel =>
          rw [AddrTree.pointer_node, depth, Store.load_some found, Outcome.ok_bind]
          by_cases leaf : left.pointer = none ∧ right.pointer = none
          · rw [if_pos leaf, AddrTree.height, AddrTree.eq_nil_of_pointer leaf.1,
              AddrTree.eq_nil_of_pointer leaf.2]
            rfl
          · rw [if_neg leaf, leftInduction leftHeld fuel (by omega), Outcome.ok_bind,
              rightInduction rightHeld fuel (by omega), Outcome.ok_bind, Outcome.pure_eq_ok,
              AddrTree.height]
            apply congrArg
            split <;> omega

theorem getKLevelSize_spec (held : Held heap whole) (level fuel : Nat)
    (enough : whole.height < fuel) (isSize : level + 1 < 2 ^ 64) :
    getKLevelSize heap fuel whole.pointer (level + 1) = .ok (whole.level level).length := by
  induction whole generalizing level fuel with
  | nil =>
      cases fuel with
      | zero => omega
      | succ fuel => simp [getKLevelSize, AddrTree.level]
  | node left address data right leftInduction rightInduction =>
      rcases held with ⟨found, leftHeld, rightHeld⟩
      simp only [AddrTree.height] at enough
      cases fuel with
      | zero => omega
      | succ fuel =>
          rw [AddrTree.pointer_node, getKLevelSize]
          cases level with
          | zero => rfl
          | succ level =>
              have next : toSize (((level + 1 + 1 : Nat) : Int) - 1) = level + 1 := by
                have same : ((level + 1 + 1 : Nat) : Int) - 1 = ((level + 1 : Nat) : Int) := by
                  omega
                rw [same, toSize_natCast (by omega)]
              rw [if_neg (by omega), Store.load_some found, Outcome.ok_bind, next,
                leftInduction leftHeld level fuel (by omega) (by omega), Outcome.ok_bind,
                rightInduction rightHeld level fuel (by omega) (by omega), Outcome.ok_bind,
                AddrTree.level, List.length_append, Outcome.pure_eq_ok]

end Recursive

/-! ## The rounds -/

section Rounds

variable {heap : Store (Node T)} {whole : AddrTree T}

/-- With `len` trees in front the loop takes these from the queue, and puts their children behind
the others. -/
theorem drain_spec (trees later : List (AddrTree T)) (stored : Stored reader heap trees)
    (small : trees.length < 2 ^ 31) (fuel : Nat) (enough : trees.length < fuel) :
    repeatLoop (drainPass heap) fuel ((trees ++ later).map AddrTree.pointer, (trees.length : Int)) =
      .ok ((later ++ trees.flatMap AddrTree.children).map AddrTree.pointer) := by
  induction trees generalizing later fuel with
  | nil =>
      cases fuel with
      | zero => omega
      | succ fuel =>
          rw [List.flatMap_nil, List.append_nil, List.nil_append]
          exact repeatLoop_leave fuel rfl
  | cons tree trees induction =>
      rcases stored tree List.mem_cons_self with ⟨notNil, seen⟩
      rw [List.length_cons] at small enough
      cases tree with
      | nil => exact absurd rfl notNil
      | node left address item right =>
          rcases seen with ⟨⟨node, found, leftEq, rightEq, _⟩, _⟩
          cases fuel with
          | zero => omega
          | succ fuel =>
              have less : addInt ((trees.length + 1 : Nat) : Int) (-1) =
                  .ok (trees.length : Int) := by
                rw [addInt_eq (by omega) (by omega)]
                apply congrArg
                omega
              have leftEqual : node.left = left.pointer := leftEq
              have rightEqual : node.right = right.pointer := rightEq
              have notZero : ((trees.length + 1 : Nat) : Int) ≠ 0 := by omega
              have pass : drainPass heap
                  ((.node left address item right :: trees ++ later).map AddrTree.pointer,
                    ((trees.length + 1 : Nat) : Int)) =
                  .ok (.again ((trees ++ (later ++
                    (AddrTree.node left address item right).children)).map AddrTree.pointer,
                    (trees.length : Int))) := by
                rw [drainPass, less, Outcome.ok_bind, if_pos notZero]
                simp [Store.load_some found, leftEqual, rightEqual, enqueue_pointer,
                  AddrTree.children]
              rw [List.length_cons, repeatLoop_again fuel pass,
                induction _ (fun other member => stored other (List.mem_cons_of_mem _ member))
                  (by omega) fuel (by omega)]
              simp [List.append_assoc]

/-- Before a round the queue has the trees at the depth that has been counted. -/
def beforeRound (whole : AddrTree T) (level : Nat) : List Ptr × Int :=
  ((whole.forest level).map AddrTree.pointer, (level : Int))

theorem roundPass_next (seen : Seen reader heap whole) {level inner : Nat}
    (more : level < whole.height) (small : level + 1 < 2 ^ 31)
    (few : (whole.level level).length < 2 ^ 31) (enough : (whole.level level).length < inner) :
    roundPass inner heap (beforeRound whole level) =
      .ok (.again (beforeRound whole (level + 1))) := by
  rw [AddrTree.length_level] at few enough
  have notEmpty : whole.forest level ≠ [] := fun nothing =>
    absurd ((AddrTree.forest_eq_nil_iff level).mp nothing) (Nat.not_le.mpr more)
  have counted : addInt level 1 = .ok ((level + 1 : Nat) : Int) :=
    addInt_eq (by omega) (by omega)
  have len : toInt ((whole.forest level).length : Int) = (whole.forest level).length :=
    toInt_eq (by omega) (by omega)
  have drained := drain_spec (whole.forest level) [] (seen.forest level) few inner enough
  rw [List.append_nil, List.nil_append] at drained
  have started : ((whole.forest level).map AddrTree.pointer).isEmpty = false := by
    rw [List.isEmpty_map, List.isEmpty_eq_false_iff]
    exact notEmpty
  simp only [roundPass, beforeRound, started, Bool.false_eq_true, if_false, List.length_map, len,
    counted, drained, Outcome.ok_bind, AddrTree.forest]
  rfl

theorem roundPass_leaves (level inner : Nat) (none : whole.height ≤ level) :
    roundPass inner heap (beforeRound whole level) = .ok (.leave (level : Int)) := by
  rw [beforeRound, (AddrTree.forest_eq_nil_iff level).mpr none]
  rfl

end Rounds

/-! ## The contract -/

/-- `len` is what `_GetKLevelSize` says for the level that the round is for. -/
def InStep (heap : Store (Node T)) (fuel : Nat) (root : Ptr) (state : List Ptr × Int) : Prop :=
  state.1 ≠ [] → ∃ count, getKLevelSize heap fuel root (state.2.toNat + 1) = .ok count ∧
    toInt state.1.length = count

/-- With enough fuel `noRDepth` returns the depth, and in each round takes the level from the queue
that belongs to it. Below the depth all levels are empty, and down to it they have all nodes. -/
def CountsLevels (tree : ForkTree T) : Prop :=
  ∃ enough, ∀ fuel, enough ≤ fuel → ∃ deep total,
    depth tree.heap fuel tree.root = .ok deep ∧ size tree.heap fuel tree.root = .ok total ∧
    noRDepth tree.heap fuel tree.root = .ok deep ∧
    EveryPass (roundPass fuel tree.heap) (InStep tree.heap fuel tree.root) fuel
      (enqueue tree.root [], 0) ∧
    (∀ K, deep < K → K < 2 ^ 64 → getKLevelSize tree.heap fuel tree.root K = .ok 0) ∧
    ∃ count : Nat → Nat,
      (∀ K, 1 ≤ K → K ≤ deep → getKLevelSize tree.heap fuel tree.root K = .ok (count K)) ∧
      ∑ level ∈ Finset.range deep, count (level + 1) = total

section Contract

variable {tree : ForkTree T} {whole : AddrTree T}

theorem start_eq (shows : tree.Shows whole) : (enqueue tree.root [], 0) = beforeRound whole 0 := by
  rw [shows.root_eq, enqueue_pointer]
  rfl

theorem length_level_le (whole : AddrTree T) (level : Nat) :
    (whole.level level).length ≤ whole.size := by
  induction whole generalizing level with
  | nil => exact Nat.zero_le _
  | node left address data right leftInduction rightInduction =>
      cases level with
      | zero => exact Nat.le_add_left 1 _
      | succ level =>
          have onLeft := leftInduction level
          have onRight := rightInduction level
          rw [AddrTree.level, List.length_append, AddrTree.size]
          omega

/-- What the rounds need from one on. -/
theorem rounds_need (shows : tree.Shows whole) {inner : Nat} (enough : whole.size < inner)
    (fuel : Nat) {level : Nat} {result : Int}
    (every : EveryPass (roundPass inner tree.heap) (InStep tree.heap inner tree.root) fuel
      (beforeRound whole level))
    (returned : repeatLoop (roundPass inner tree.heap) fuel (beforeRound whole level) =
      .ok result) :
    ∀ later, level ≤ later → later < whole.height →
      (whole.level later).length < 2 ^ 31 ∧ later + 1 < 2 ^ 31 := by
  induction fuel generalizing level with
  | zero => cases returned
  | succ fuel induction =>
      intro later behind deep
      have low := whole.height_le_size
      have few := length_level_le whole level
      have notEmpty : whole.forest level ≠ [] := fun nothing =>
        absurd ((AddrTree.forest_eq_nil_iff level).mp nothing) (by omega)
      have small : level + 1 < 2 ^ 31 := by
        rcases repeatLoop_body returned with ⟨ended, pass⟩
        have started : ((whole.forest level).map AddrTree.pointer).isEmpty = false := by
          rw [List.isEmpty_map, List.isEmpty_eq_false_iff]
          exact notEmpty
        simp only [roundPass, beforeRound, started, Bool.false_eq_true, if_false] at pass
        rcases Outcome.bind_eq_ok pass with ⟨depth, counted, _⟩
        have range := addInt_eq_ok counted
        omega
      have size : (whole.level level).length < 2 ^ 31 := by
        rcases every.1 (by simpa [beforeRound] using notEmpty) with ⟨count, found, len⟩
        have sized := getKLevelSize_spec shows.held level inner (by omega) (by omega)
        have range := toInt_range ((whole.forest level).length : Int)
        simp only [beforeRound, Int.toNat_natCast, shows.root_eq, sized,
          List.length_map] at found len
        cases found
        rw [AddrTree.length_level] at len ⊢
        omega
      rcases eq_or_lt_of_le behind with rfl | after
      · exact ⟨size, small⟩
      · have pass := roundPass_next (seen_of_shows shows) (show level < whole.height by omega) small
          size (show (whole.level level).length < inner by omega)
        rw [repeatLoop_again fuel pass] at returned
        exact induction (every.2 _ pass) returned later after deep

theorem CountsLevels.bounds (shows : tree.Shows whole) (counts : CountsLevels tree) :
    ∀ level, level < whole.height → (whole.level level).length < 2 ^ 31 ∧ level + 1 < 2 ^ 31 := by
  rcases counts with ⟨enough, counts⟩
  rcases counts (enough + whole.size + 1) (by omega) with ⟨deep, total, _, _, returned, every, _⟩
  rw [start_eq shows] at every
  cases whole with
  | nil => exact nofun
  | node left address data right =>
      have start := start_eq shows
      rw [shows.root_eq, AddrTree.pointer_node] at returned start
      rcases Outcome.bind_eq_ok returned with ⟨depth, looped, _⟩
      have begun : ([some address], (0 : Int)) = beforeRound (.node left address data right) 0 :=
        start
      rw [begun] at looped
      exact fun level => rounds_need shows (by omega) _ every looped level (Nat.zero_le level)

section Small

variable (shows : tree.Shows whole) (shallow : whole.height < 2 ^ 31)
  (few : ∀ level, (whole.level level).length < 2 ^ 31) (fuel : Nat) (enough : whole.size < fuel)

include shows shallow few enough

theorem rounds_reach (level : Nat) (within : level ≤ whole.height) :
    Reaches (roundPass fuel tree.heap) level (beforeRound whole 0) (beforeRound whole level) := by
  induction level with
  | zero => exact .refl _
  | succ level induction =>
      have sizeLe := length_level_le whole level
      have pass := roundPass_next (seen_of_shows shows) (show level < whole.height by omega)
        (by omega) (few level) (show (whole.level level).length < fuel by omega)
      exact (induction (by omega)).trans (.pass pass)

theorem noRDepth_spec : noRDepth tree.heap fuel tree.root = .ok whole.height := by
  have low := whole.height_le_size
  have returned := (rounds_reach shows shallow few fuel enough whole.height (Nat.le_refl _)).leave
    (roundPass_leaves whole.height fuel (Nat.le_refl _)) (show whole.height < fuel by omega)
  have start := start_eq shows
  rw [shows.root_eq] at start ⊢
  cases whole with
  | nil => rfl
  | node left address data right =>
      rw [← start] at returned
      rw [AddrTree.pointer_node] at returned ⊢
      have looped : repeatLoop (roundPass fuel tree.heap) fuel ([some address], 0) = _ := returned
      rw [noRDepth, looped, Outcome.ok_bind, toSize_natCast (by omega)]
      rfl

theorem rounds_inStep (passes level : Nat) (within : level ≤ whole.height) :
    EveryPass (roundPass fuel tree.heap) (InStep tree.heap fuel tree.root) passes
      (beforeRound whole level) := by
  have low := whole.height_le_size
  induction passes generalizing level with
  | zero => trivial
  | succ passes induction =>
      have sizeLe := length_level_le whole level
      constructor
      · intro _
        refine ⟨(whole.level level).length, ?_, ?_⟩
        · rw [beforeRound, Int.toNat_natCast, shows.root_eq]
          exact getKLevelSize_spec shows.held level fuel (by omega) (by omega)
        · have small := few level
          rw [AddrTree.length_level] at small ⊢
          rw [beforeRound, List.length_map]
          exact toInt_eq (by omega) (by omega)
      · intro next pass
        rcases eq_or_lt_of_le within with rfl | more
        · rw [roundPass_leaves whole.height fuel (Nat.le_refl _)] at pass
          cases pass
        · rw [roundPass_next (seen_of_shows shows) more (by omega) (few level) (by omega)] at pass
          cases pass
          exact induction (level + 1) more

end Small

/-- `noRDepth` counts right exactly where the depth and the sizes of all levels are of type
`int`. -/
theorem noRDepth_countsLevels_iff (shows : tree.Shows whole) :
    CountsLevels tree ↔
      whole.height < 2 ^ 31 ∧ ∀ level, (whole.level level).length < 2 ^ 31 := by
  constructor
  · intro counts
    have bounds := counts.bounds shows
    constructor
    · by_contra large
      have last := bounds (whole.height - 1) (by omega)
      omega
    · intro level
      by_cases within : level < whole.height
      · exact (bounds level within).1
      · rw [AddrTree.length_level, (AddrTree.forest_eq_nil_iff level).mpr (by omega)]
        exact Nat.two_pow_pos 31
  · rintro ⟨shallow, few⟩
    have low := whole.height_le_size
    refine ⟨whole.size + 1, fun fuel enough => ⟨whole.height, whole.size, ?_, ?_, ?_, ?_, ?_, ?_⟩⟩
    · rw [shows.root_eq]
      exact depth_spec shows.held fuel (by omega)
    · rw [shows.root_eq]
      exact size_spec shows.held fuel (by omega)
    · exact noRDepth_spec shows shallow few fuel enough
    · rw [start_eq shows]
      exact rounds_inStep shows shallow few fuel enough fuel 0 (Nat.zero_le _)
    · intro K deep isSize
      obtain ⟨level, rfl⟩ : ∃ level, K = level + 1 := ⟨K - 1, by omega⟩
      rw [shows.root_eq, getKLevelSize_spec shows.held level fuel (by omega) isSize,
        AddrTree.length_level, (AddrTree.forest_eq_nil_iff level).mpr (by omega)]
      rfl
    · refine ⟨fun K => (whole.level (K - 1)).length, ?_,
        AddrTree.sum_length_level whole whole.height (Nat.le_refl _)⟩
      intro K positive within
      obtain ⟨level, rfl⟩ : ∃ level, K = level + 1 := ⟨K - 1, by omega⟩
      rw [shows.root_eq]
      exact getKLevelSize_spec shows.held level fuel (by omega) (by omega)

end Contract

theorem noRDepth_countsLevels_iff_two : CountsLevels (spineTree () 2) := by
  refine (noRDepth_countsLevels_iff (spineTree_shows () 2)).mpr ⟨by decide, fun level => ?_⟩
  have few := length_level_le (leftSpine () 2 0) level
  have two : (leftSpine () 2 0).size = 2 := rfl
  omega

/-- In the last round of a tree with `2 ^ 31` levels `depth` overflows. -/
theorem noRDepth_overflows : ¬CountsLevels (spineTree () (2 ^ 31)) := by
  intro counts
  have bounds := counts.bounds (spineTree_shows () (2 ^ 31)) (2 ^ 31 - 1)
    (by rw [height_leftSpine]; decide)
  omega

end DataStructAlgorithm.DataStruct.BinaryTree
