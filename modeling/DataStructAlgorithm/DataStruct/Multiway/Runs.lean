import Mathlib.Data.List.Basic
import Mathlib.Order.Nat
import DataStructAlgorithm.DataStruct.Multiway.LeafSplit

/-! # Runs of insertions into `BTree`

The tree holds the inserted keys up to its first split, and for the order three
up to its first split of a leaf. From there on a key is visited twice. -/

namespace DataStructAlgorithm.DataStruct.BTree

open Foundation

variable {Key Value : Type} [LinearOrder Key]

/-- What the tree is to hold after the insertion of `items`. -/
structure Holds (fuel : Nat) (tree : BTree Key Value) (items : List (Key × Value)) : Prop where
  visited : ∃ keys, inOder fuel tree.heap tree.root = .ok keys ∧ keys.Pairwise (· < ·) ∧
    ∀ key, key ∈ keys ↔ key ∈ items.map Prod.fst
  finds : ∀ kv ∈ items, ∃ address index node,
    find fuel tree kv.1 = .ok (some address, Int.ofNat index) ∧
      tree.heap.cell address = some node ∧ index < node.size ∧ node.kvs[index]? = some kv

theorem IsLeaf.finds {M : Nat} {heap : Store (BTreeNode Key Value)} {address : Nat}
    {node : BTreeNode Key Value} {pairs : List (Key × Value)} (leaf : IsLeaf M node pairs)
    (found : heap.cell address = some node) (increasing : Increasing pairs)
    {kv : Key × Value} (member : kv ∈ pairs) (parent : Ptr) (fuel : Nat) :
    ∃ index, repeatLoop (findPass heap kv.1) (fuel + 1) (some address, parent) =
        .ok (some address, Int.ofNat index) ∧
      index < node.size ∧ node.kvs[index]? = some kv := by
  rcases List.append_of_mem member with ⟨before, behind, rfl⟩
  refine ⟨before.length, leaf.find_here found increasing parent fuel, ?_, ?_⟩
  · rw [leaf.size_eq]
    simp
  · rw [leaf.getElem?_kvs (by simp)]
    simp

theorem Single.holds {M : Nat} {tree : BTree Key Value} {address : Nat}
    {pairs items : List (Key × Value)} (single : Single M tree address pairs)
    (increasing : Increasing pairs) (same : ∀ kv, kv ∈ pairs ↔ kv ∈ items) (fuel : Nat) :
    Holds (fuel + 4) tree items where
  visited := by
    rcases single.leaf with ⟨node, found, leaf, _⟩
    refine ⟨pairs.map Prod.fst, ?_, increasing, ?_⟩
    · rw [single.root_eq]
      exact leaf.inOder found (fuel + 2)
    · intro key
      simp only [List.mem_map, same]
  finds := by
    intro kv member
    rcases single.leaf with ⟨node, found, leaf, _⟩
    rcases leaf.finds found increasing ((same kv).mpr member) none (fuel + 3) with
      ⟨index, returned, within, stored⟩
    exact ⟨address, index, node, by rw [find, single.root_eq, returned], found, within, stored⟩

theorem Split.holds {M : Nat} {tree : BTree Key Value} {root x y : Nat}
    {left right items : List (Key × Value)} {mid : Key × Value}
    (split : Split M tree root x y left mid right) (increasing : Increasing (left ++ mid :: right))
    (same : ∀ kv, kv ∈ left ++ mid :: right ↔ kv ∈ items) (fuel : Nat) :
    Holds (fuel + 4) tree items where
  visited := by
    refine ⟨(left ++ mid :: right).map Prod.fst, ?_, increasing, ?_⟩
    · rw [split.inOder (fuel + 1)]
      simp
    · intro key
      simp only [List.mem_map, same]
  finds := by
    intro kv member
    have parts := increasing
    rw [Increasing, List.map_append, List.pairwise_append, List.map_cons,
      List.pairwise_cons] at parts
    rcases List.mem_append.mp ((same kv).mpr member) with inLeft | inRest
    · rcases split.leftLeaf with ⟨node, found, leaf, _⟩
      have less := parts.2.2 kv.1 (List.mem_map_of_mem inLeft) mid.1 (by simp)
      rcases leaf.finds found parts.1 inLeft (some root) (fuel + 2) with
        ⟨index, returned, within, stored⟩
      exact ⟨x, index, node, by rw [split.find_left less, returned], found, within, stored⟩
    · rcases List.mem_cons.mp inRest with equal | inRight
      · rcases split.top with ⟨top, foundTop, topSize, ⟨junk, topKvs, _⟩, _⟩
        exact ⟨root, 0, top, by rw [equal]; exact split.find_mid (fuel + 3), foundTop, by omega,
          by rw [topKvs, equal]; rfl⟩
      · rcases split.rightLeaf with ⟨node, found, leaf, _⟩
        have greater := parts.2.1.1 kv.1 (List.mem_map_of_mem inRight)
        rcases leaf.finds found parts.2.1.2 inRight (some root) (fuel + 2) with
          ⟨index, returned, within, stored⟩
        exact ⟨y, index, node, by rw [split.find_right greater, returned], found, within, stored⟩

/-- Putting a pair into the left part keeps the whole increasing. -/
theorem Inserted.increasing_left {kv : Key × Value} {left larger right : List (Key × Value)}
    {mid : Key × Value} (inserted : Inserted kv left larger)
    (increasing : Increasing (left ++ mid :: right))
    (less : kv.1 < mid.1) : Increasing (larger ++ mid :: right) := by
  rw [Increasing, List.map_append, List.pairwise_append, List.map_cons,
    List.pairwise_cons] at increasing ⊢
  refine ⟨inserted.increasing, increasing.2.1, ?_⟩
  intro first firstMem second secondMem
  rcases List.mem_map.mp firstMem with ⟨pair, within, rfl⟩
  rcases (inserted.mem_iff pair).mp within with equal | within
  · rw [equal]
    rcases List.mem_cons.mp secondMem with rfl | later
    · exact less
    · exact lt_trans less (increasing.2.1.1 second later)
  · exact increasing.2.2 pair.1 (List.mem_map_of_mem within) second secondMem

theorem Inserted.increasing_right {kv : Key × Value} {left larger right : List (Key × Value)}
    {mid : Key × Value} (inserted : Inserted kv right larger)
    (increasing : Increasing (left ++ mid :: right))
    (greater : mid.1 < kv.1) : Increasing (left ++ mid :: larger) := by
  rw [Increasing, List.map_append, List.pairwise_append, List.map_cons,
    List.pairwise_cons] at increasing ⊢
  have midLess : ∀ pair ∈ larger, mid.1 < pair.1 := by
    intro pair within
    rcases (inserted.mem_iff pair).mp within with equal | within
    · rw [equal]
      exact greater
    · exact increasing.2.1.1 pair.1 (List.mem_map_of_mem within)
  refine ⟨increasing.1, ⟨?_, inserted.increasing⟩, ?_⟩
  · intro other otherMem
    rcases List.mem_map.mp otherMem with ⟨pair, within, rfl⟩
    exact midLess pair within
  · intro first firstMem second secondMem
    have firstLess := increasing.2.2 first firstMem mid.1 (by simp)
    rcases List.mem_cons.mp secondMem with rfl | later
    · exact firstLess
    · rcases List.mem_map.mp later with ⟨pair, within, rfl⟩
      exact lt_trans firstLess (midLess pair within)

theorem holds_empty (fuel : Nat) : Holds (fuel + 4) (.empty : BTree Key Value) [] where
  visited := ⟨[], rfl, List.Pairwise.nil, by simp⟩
  finds := fun _ member => nomatch member

/-- The last key of a sequence of different keys is not among the others. -/
theorem last_absent {Key Value : Type} {before : List (Key × Value)} {kv : Key × Value}
    (nodup : ((before ++ [kv]).map Prod.fst).Nodup) : kv.1 ∉ before.map Prod.fst := by
  intro member
  rw [List.map_append, List.nodup_append] at nodup
  exact nodup.2.2 kv.1 member kv.1 (by simp) rfl

/-- A key that is stored nowhere is not stored in a part. -/
theorem absent_of_subset {Key Value : Type} {items part : List (Key × Value)} {key : Key}
    (absent : key ∉ items.map Prod.fst) (within : ∀ pair ∈ part, pair ∈ items) :
    key ∉ part.map Prod.fst :=
  fun member => absent (List.map_subset Prod.fst within member)

/-! ## The runs in which it holds them -/

/-- The middle one of three keys. -/
def median (a b c : Key) : Key := max (min a b) (min (max a b) c)

theorem ne_median {Key Value : Type} [LinearOrder Key] {a b c : Key × Value}
    {others : List (Key × Value)} {key : Key}
    (absent : key ∉ (a :: b :: c :: others).map Prod.fst) : key ≠ median a.1 b.1 c.1 := by
  simp only [List.map_cons, List.mem_cons, not_or] at absent
  unfold median
  grind

/-- The fourth and the fifth key are on different sides of the median of the
first three. -/
def Apart : List Key → Prop
  | [a, b, c, d, e] => d < median a b c ↔ median a b c < e
  | _ => False

/-- Before the first split, or with order three before a leaf is split. -/
def Fits (M : Nat) (keys : List Key) : Prop :=
  keys.length < M ∨ (M = 3 ∧ (keys.length ≤ 4 ∨ Apart keys))

theorem Fits.before {M : Nat} {before after : List Key} (fits : Fits M (before ++ after)) :
    Fits M before := by
  rcases fits with few | ⟨three, small | apart⟩
  · rw [List.length_append] at few
    exact Or.inl (by omega)
  · rw [List.length_append] at small
    exact Or.inr ⟨three, Or.inl (by omega)⟩
  · cases after with
    | nil =>
        rw [List.append_nil] at apart
        exact Or.inr ⟨three, Or.inr apart⟩
    | cons key rest =>
        refine Or.inr ⟨three, Or.inl ?_⟩
        have five : (before ++ key :: rest).length = 5 := by
          match before ++ key :: rest, apart with
          | [_, _, _, _, _], _ => rfl
        rw [List.length_append, List.length_cons] at five
        omega

/-! ## The runs -/

section Runs

variable [Inhabited Key] [Inhabited Value]

/-- After each call of the sequence the tree holds what it should. -/
def Meets (fuel M : Nat) (items : List (Key × Value)) : Prop :=
  ∀ done rest, items = done ++ rest → ∃ tree,
    insertAll fuel M (.empty : BTree Key Value) done = .ok (tree, true) ∧ Holds fuel tree done

theorem insertAll_concat {fuel M : Nat} {tree after final : BTree Key Value}
    {items : List (Key × Value)} {kv : Key × Value} {flag : Bool}
    (ran : insertAll fuel M tree items = .ok (after, true))
    (inserted : insert fuel M after kv = .ok (final, flag)) :
    insertAll fuel M tree (items ++ [kv]) = .ok (final, flag) := by
  induction items generalizing tree with
  | nil =>
      cases ran
      simp [insertAll, inserted]
  | cons first rest induction =>
      rw [insertAll] at ran
      rcases Outcome.bind_eq_ok ran with ⟨⟨middle, one⟩, insertedFirst, ranRest⟩
      rcases Outcome.bind_eq_ok ranRest with ⟨⟨last, others⟩, ranOthers, ended⟩
      cases one <;> cases others <;> cases ended
      rw [List.cons_append, insertAll, insertedFirst, Outcome.ok_bind]
      simp [induction ranOthers]

/-- Before the first split. -/
theorem run_single {M : Nat} (positive : 1 < M) (items : List (Key × Value))
    (notEmpty : items ≠ []) (few : items.length < M)
    (nodup : (items.map Prod.fst).Nodup) (fuel : Nat) :
    ∃ tree address pairs, insertAll (fuel + 4) M (.empty : BTree Key Value) items =
        .ok (tree, true) ∧
      Single M tree address pairs ∧ Increasing pairs ∧ (∀ kv, kv ∈ pairs ↔ kv ∈ items) ∧
      pairs.length = items.length := by
  induction items using List.reverseRecOn with
  | nil => exact absurd rfl notEmpty
  | append_singleton items kv induction =>
      rw [List.length_append, List.length_singleton] at few
      rw [List.map_append, List.nodup_append] at nodup
      cases items with
      | nil =>
          have room : 0 < M := by omega
          rcases insert_empty (.empty : BTree Key Value) room rfl (fuel + 4) kv with
            ⟨after, inserted, single⟩
          refine ⟨after, _, [kv], ?_, single, ?_, by simp, rfl⟩
          · simp [insertAll, inserted]
          · simp [Increasing]
      | cons first rest =>
          rcases induction (by simp) (by omega) nodup.1 with
            ⟨tree, address, pairs, ran, single, increasing, same, lengthEq⟩
          have absent : kv.1 ∉ pairs.map Prod.fst := by
            intro member
            rcases List.mem_map.mp member with ⟨pair, member, equal⟩
            exact nodup.2.2 pair.1 (List.mem_map_of_mem ((same pair).mp member)) kv.1 (by simp)
              equal
          rcases single.insert increasing absent (by omega) (fuel + 2) with
            ⟨after, larger, inserted, placed, afterSingle⟩
          refine ⟨after, address, larger, insertAll_concat ran inserted, afterSingle,
            placed.increasing, ?_, ?_⟩
          · intro pair
            rw [placed.mem_iff, same, List.mem_append, List.mem_singleton, or_comm]
          · rw [placed.length_eq, lengthEq]
            simp

/-- The first split. -/
theorem run_split {M : Nat} (three : 3 ≤ M) (items : List (Key × Value))
    (full : items.length = M) (nodup : (items.map Prod.fst).Nodup) (fuel : Nat) :
    ∃ tree root x y larger, ∃ within : (M / 2 + 1) / 2 < larger.length,
      insertAll (fuel + 4) M (.empty : BTree Key Value) items = .ok (tree, true) ∧
      Split M tree root x y (larger.take (M / 2)) larger[(M / 2 + 1) / 2]
        (larger.drop (M / 2 + 1)) ∧
      Increasing larger ∧ (∀ kv, kv ∈ larger ↔ kv ∈ items) ∧ larger.length = M := by
  cases items using List.reverseRecOn with
  | nil => simp at full; omega
  | append_singleton items kv =>
      rw [List.length_append, List.length_singleton] at full
      rw [List.map_append, List.nodup_append] at nodup
      have notEmpty : items ≠ [] := by
        intro equal
        simp [equal] at full
        omega
      have few : items.length < M := by omega
      have positive : 1 < M := by omega
      rcases run_single positive items notEmpty few nodup.1 fuel with
        ⟨tree, address, pairs, ran, single, increasing, same, lengthEq⟩
      have absent : kv.1 ∉ pairs.map Prod.fst := by
        intro member
        rcases List.mem_map.mp member with ⟨pair, member, equal⟩
        exact nodup.2.2 pair.1 (List.mem_map_of_mem ((same pair).mp member)) kv.1 (by simp) equal
      rcases single.split increasing absent (by omega) positive (fuel + 2) with
        ⟨after, larger, root, half, within, inserted, placed, split⟩
      refine ⟨after, root, address, half, larger, within, insertAll_concat ran inserted, split,
        placed.increasing, ?_, ?_⟩
      · intro pair
        rw [placed.mem_iff, same, List.mem_append, List.mem_singleton, or_comm]
      · rw [placed.length_eq, lengthEq, full]

/-- With an order above three the first split loses a key and doubles another. -/
theorem not_holds_of_four_le {M : Nat} (four : 4 ≤ M) (items : List (Key × Value))
    (full : items.length = M) (nodup : (items.map Prod.fst).Nodup) (fuel : Nat) :
    ¬ ∃ tree, insertAll (fuel + 4) M (.empty : BTree Key Value) items = .ok (tree, true) ∧
      Holds (fuel + 4) tree items := by
  intro meets
  rcases meets with ⟨tree, ran, holds⟩
  rcases run_split (by omega) items full nodup fuel with
    ⟨after, root, x, y, larger, within, ranSplit, split, _, _, lengthEq⟩
  rw [ran] at ranSplit
  cases ranSplit
  rcases holds.visited with ⟨keys, visited, increasing, _⟩
  rw [split.inOder (fuel + 1)] at visited
  cases visited
  have earlier : (M / 2 + 1) / 2 < M / 2 := by omega
  have member : larger[(M / 2 + 1) / 2].1 ∈ (larger.take (M / 2)).map Prod.fst :=
    List.mem_map_of_mem (List.mem_take_iff_getElem.mpr ⟨_, by omega, rfl⟩)
  rw [List.pairwise_append] at increasing
  exact lt_irrefl _ (increasing.2.2 _ member _ (by simp))

/-! ## Order three -/

/-- The state of a tree of order three between its first split and its first split
of a leaf: the key in the root and the sizes of the two leaves. -/
def Halves (fuel : Nat) (items : List (Key × Value)) (key : Key) (lefts rights : Nat) : Prop :=
  ∃ (tree : BTree Key Value) (root x y : Nat) (left : List (Key × Value)) (mid : Key × Value)
    (right : List (Key × Value)), insertAll fuel 3 .empty items = .ok (tree, true) ∧
    Split 3 tree root x y left mid right ∧ Increasing (left ++ mid :: right) ∧
    (∀ kv, kv ∈ left ++ mid :: right ↔ kv ∈ items) ∧ mid.1 = key ∧ left.length = lefts ∧
    right.length = rights

section Halves

variable {fuel : Nat} {items : List (Key × Value)} {key : Key} {lefts rights : Nat}
  {kv : Key × Value}

theorem Halves.holds (halves : Halves (fuel + 4) items key lefts rights) :
    ∃ tree, insertAll (fuel + 4) 3 (.empty : BTree Key Value) items = .ok (tree, true) ∧
      Holds (fuel + 4) tree items := by
  rcases halves with ⟨tree, root, x, y, left, mid, right, ran, split, increasing, same, _⟩
  exact ⟨tree, ran, split.holds increasing same fuel⟩

/-- A run whose last insertion leaves a key twice does not meet the contract. -/
theorem not_holds_of_repeated {M : Nat} {tree after : BTree Key Value} {visited : List Key}
    (ran : insertAll fuel M .empty items = .ok (tree, true))
    (inserted : insert fuel M tree kv = .ok (after, true))
    (listed : inOder fuel after.heap after.root = .ok visited)
    (repeated : ¬ visited.Pairwise (· < ·)) :
    ¬ ∃ tree, insertAll fuel M (.empty : BTree Key Value) (items ++ [kv]) = .ok (tree, true) ∧
      Holds fuel tree (items ++ [kv]) := by
  intro meets
  rcases meets with ⟨final, ranAll, holds⟩
  rw [insertAll_concat ran inserted] at ranAll
  cases ranAll
  rcases holds.visited with ⟨keys, keysListed, keysIncreasing, _⟩
  rw [listed] at keysListed
  cases keysListed
  exact repeated keysIncreasing

theorem Halves.grow_left (halves : Halves (fuel + 4) items key 1 rights) (less : kv.1 < key)
    (absent : kv.1 ∉ items.map Prod.fst) : Halves (fuel + 4) (items ++ [kv]) key 2 rights := by
  rcases halves with
    ⟨tree, root, x, y, left, mid, right, ran, split, increasing, same, rfl, lefts, rightsEq⟩
  have leftIncreasing := increasing
  rw [Increasing, List.map_append, List.pairwise_append] at leftIncreasing
  have absentLeft : kv.1 ∉ left.map Prod.fst :=
    absent_of_subset absent fun pair within => (same pair).mp (by simp [within])
  rcases split.insert_left leftIncreasing.1 absentLeft less (by omega) (fuel + 1) with
    ⟨after, larger, inserted, placed, afterSplit⟩
  refine ⟨after, root, x, y, larger, mid, right, insertAll_concat ran inserted, afterSplit,
    placed.increasing_left increasing less, ?_, rfl, by rw [placed.length_eq, lefts], rightsEq⟩
  intro pair
  simp only [List.mem_append, List.mem_cons, ← same, placed.mem_iff]
  tauto

theorem Halves.grow_right (halves : Halves (fuel + 4) items key lefts 1) (greater : key < kv.1)
    (absent : kv.1 ∉ items.map Prod.fst) : Halves (fuel + 4) (items ++ [kv]) key lefts 2 := by
  rcases halves with
    ⟨tree, root, x, y, left, mid, right, ran, split, increasing, same, rfl, leftsEq, rights⟩
  have rightIncreasing := increasing
  rw [Increasing, List.map_append, List.pairwise_append, List.map_cons,
    List.pairwise_cons] at rightIncreasing
  have absentRight : kv.1 ∉ right.map Prod.fst :=
    absent_of_subset absent fun pair within => (same pair).mp (by simp [within])
  rcases split.insert_right rightIncreasing.2.1.2 absentRight greater (by omega) (fuel + 1) with
    ⟨after, larger, inserted, placed, afterSplit⟩
  refine ⟨after, root, x, y, left, mid, larger, insertAll_concat ran inserted, afterSplit,
    placed.increasing_right increasing greater, ?_, rfl, leftsEq, by rw [placed.length_eq, rights]⟩
  intro pair
  simp only [List.mem_append, List.mem_cons, ← same, placed.mem_iff]
  tauto

theorem Halves.overflow_left (halves : Halves (fuel + 4) items key 2 rights) (less : kv.1 < key)
    (absent : kv.1 ∉ items.map Prod.fst) :
    ¬ ∃ tree, insertAll (fuel + 4) 3 (.empty : BTree Key Value) (items ++ [kv]) =
      .ok (tree, true) ∧ Holds (fuel + 4) tree (items ++ [kv]) := by
  rcases halves with
    ⟨tree, root, x, y, left, mid, right, ran, split, increasing, same, rfl, lefts, _⟩
  rw [Increasing, List.map_append, List.pairwise_append] at increasing
  have absentLeft : kv.1 ∉ left.map Prod.fst :=
    absent_of_subset absent fun pair within => (same pair).mp (by simp [within])
  have leftLess : ∀ pair ∈ left, pair.1 < mid.1 := fun pair within =>
    increasing.2.2 pair.1 (List.mem_map_of_mem within) mid.1 (by simp)
  rcases split.overflow_left increasing.1 absentLeft less leftLess lefts (fuel + 1) with
    ⟨after, visited, inserted, listed, repeated⟩
  exact not_holds_of_repeated ran inserted listed repeated

theorem Halves.overflow_right (halves : Halves (fuel + 4) items key lefts 2)
    (greater : key < kv.1) (absent : kv.1 ∉ items.map Prod.fst) :
    ¬ ∃ tree, insertAll (fuel + 4) 3 (.empty : BTree Key Value) (items ++ [kv]) =
      .ok (tree, true) ∧ Holds (fuel + 4) tree (items ++ [kv]) := by
  rcases halves with
    ⟨tree, root, x, y, left, mid, right, ran, split, increasing, same, rfl, _, rights⟩
  rw [Increasing, List.map_append, List.pairwise_append, List.map_cons,
    List.pairwise_cons] at increasing
  have absentRight : kv.1 ∉ right.map Prod.fst :=
    absent_of_subset absent fun pair within => (same pair).mp (by simp [within])
  have rightGreater : ∀ pair ∈ right, mid.1 < pair.1 := fun pair within =>
    increasing.2.1.1 pair.1 (List.mem_map_of_mem within)
  rcases split.overflow_right increasing.2.1.2 absentRight greater rightGreater rights (fuel + 1)
    with ⟨after, visited, inserted, listed, repeated⟩
  exact not_holds_of_repeated ran inserted listed repeated

end Halves

/-- The first split of a tree of order three: the median goes up. -/
theorem halves_three {a b c : Key × Value} (nodup : ([a, b, c].map Prod.fst).Nodup) (fuel : Nat) :
    Halves (fuel + 4) [a, b, c] (median a.1 b.1 c.1) 1 1 := by
  rcases run_split (Nat.le_refl 3) [a, b, c] rfl nodup fuel with
    ⟨tree, root, x, y, larger, within, ran, split, increasing, same, lengthEq⟩
  match larger, lengthEq with
  | [p, q, r], _ =>
      refine ⟨tree, root, x, y, [p], q, [r], ran, split, increasing, same, ?_, rfl, rfl⟩
      have pMem := (same p).mp (by simp)
      have qMem := (same q).mp (by simp)
      have rMem := (same r).mp (by simp)
      simp only [Increasing, List.map_cons, List.map_nil, List.pairwise_cons, List.mem_cons,
        List.nodup_cons] at increasing nodup pMem qMem rMem
      unfold median
      grind

theorem halves_four {a b c d : Key × Value} (nodup : ([a, b, c, d].map Prod.fst).Nodup)
    (fuel : Nat) :
    (d.1 < median a.1 b.1 c.1 ∧ Halves (fuel + 4) [a, b, c, d] (median a.1 b.1 c.1) 2 1) ∨
      (median a.1 b.1 c.1 < d.1 ∧
        Halves (fuel + 4) [a, b, c, d] (median a.1 b.1 c.1) 1 2) := by
  have absent : d.1 ∉ [a, b, c].map Prod.fst := last_absent nodup
  have first : ([a, b, c].map Prod.fst).Nodup :=
    nodup.sublist (by simp)
  have halves := halves_three first fuel
  have different : d.1 ≠ median a.1 b.1 c.1 := ne_median absent
  rcases lt_or_gt_of_ne different with less | greater
  · exact Or.inl ⟨less, halves.grow_left less absent⟩
  · exact Or.inr ⟨greater, halves.grow_right greater absent⟩

theorem halves_five {a b c d e : Key × Value} (nodup : ([a, b, c, d, e].map Prod.fst).Nodup)
    (apart : d.1 < median a.1 b.1 c.1 ↔ median a.1 b.1 c.1 < e.1) (fuel : Nat) :
    Halves (fuel + 4) [a, b, c, d, e] (median a.1 b.1 c.1) 2 2 := by
  have absent : e.1 ∉ [a, b, c, d].map Prod.fst := last_absent nodup
  have first : ([a, b, c, d].map Prod.fst).Nodup := nodup.sublist (by simp)
  have different : e.1 ≠ median a.1 b.1 c.1 := ne_median absent
  rcases halves_four first fuel with ⟨less, halves⟩ | ⟨greater, halves⟩
  · exact halves.grow_right (apart.mp less) absent
  · have notGreater : ¬ median a.1 b.1 c.1 < e.1 := fun other =>
      lt_asymm greater (apart.mpr other)
    exact halves.grow_left (lt_of_le_of_ne (not_lt.mp notGreater) different) absent

/-- The fifth key makes a leaf split when it goes where the fourth one went. -/
theorem not_holds_five {a b c d e : Key × Value} (nodup : ([a, b, c, d, e].map Prod.fst).Nodup)
    (together : ¬ (d.1 < median a.1 b.1 c.1 ↔ median a.1 b.1 c.1 < e.1)) (fuel : Nat) :
    ¬ ∃ tree, insertAll (fuel + 4) 3 (.empty : BTree Key Value) [a, b, c, d, e] =
      .ok (tree, true) ∧ Holds (fuel + 4) tree [a, b, c, d, e] := by
  have absent : e.1 ∉ [a, b, c, d].map Prod.fst := last_absent nodup
  have first : ([a, b, c, d].map Prod.fst).Nodup := nodup.sublist (by simp)
  have different : e.1 ≠ median a.1 b.1 c.1 := ne_median absent
  rcases halves_four first fuel with ⟨less, halves⟩ | ⟨greater, halves⟩
  · have notGreater : ¬ median a.1 b.1 c.1 < e.1 := fun other =>
      together (iff_of_true less other)
    exact halves.overflow_left (lt_of_le_of_ne (not_lt.mp notGreater) different) absent
  · have notLess : ¬ e.1 < median a.1 b.1 c.1 := fun other =>
      together (iff_of_false (lt_asymm greater) (lt_asymm other))
    exact halves.overflow_right (lt_of_le_of_ne (not_lt.mp notLess) different.symm) absent

/-- The sixth key makes a leaf split wherever it goes. -/
theorem not_holds_six {a b c d e f : Key × Value}
    (nodup : ([a, b, c, d, e, f].map Prod.fst).Nodup)
    (apart : d.1 < median a.1 b.1 c.1 ↔ median a.1 b.1 c.1 < e.1) (fuel : Nat) :
    ¬ ∃ tree, insertAll (fuel + 4) 3 (.empty : BTree Key Value) [a, b, c, d, e, f] =
      .ok (tree, true) ∧ Holds (fuel + 4) tree [a, b, c, d, e, f] := by
  have absent : f.1 ∉ [a, b, c, d, e].map Prod.fst := last_absent nodup
  have first : ([a, b, c, d, e].map Prod.fst).Nodup := nodup.sublist (by simp)
  have halves := halves_five first apart fuel
  have different : f.1 ≠ median a.1 b.1 c.1 := ne_median absent
  rcases lt_or_gt_of_ne different with less | greater
  · exact halves.overflow_left less absent
  · exact halves.overflow_right greater absent

theorem Fits.holds {M : Nat} (three : 3 ≤ M) {items : List (Key × Value)}
    (nodup : (items.map Prod.fst).Nodup) (fits : Fits M (items.map Prod.fst)) (fuel : Nat) :
    ∃ tree, insertAll (fuel + 4) M (.empty : BTree Key Value) items = .ok (tree, true) ∧
      Holds (fuel + 4) tree items := by
  have beforeSplit : items.length < M → ∃ tree,
      insertAll (fuel + 4) M (.empty : BTree Key Value) items = .ok (tree, true) ∧
        Holds (fuel + 4) tree items := by
    intro few
    by_cases empty : items = []
    · subst empty
      exact ⟨.empty, rfl, holds_empty fuel⟩
    · have positive : 1 < M := by omega
      rcases run_single positive items empty few nodup fuel with
        ⟨tree, address, pairs, ran, single, increasing, same, _⟩
      exact ⟨tree, ran, single.holds increasing same fuel⟩
  rcases fits with few | ⟨rfl, small | apart⟩
  · exact beforeSplit (by simpa using few)
  · match items, nodup, small, beforeSplit with
    | [], _, _, beforeSplit => exact beforeSplit (by simp)
    | [_], _, _, beforeSplit => exact beforeSplit (by simp)
    | [_, _], _, _, beforeSplit => exact beforeSplit (by simp)
    | [a, b, c], nodup, _, _ => exact (halves_three nodup fuel).holds
    | [a, b, c, d], nodup, _, _ =>
        rcases halves_four nodup fuel with ⟨_, halves⟩ | ⟨_, halves⟩
        · exact halves.holds
        · exact halves.holds
  · match items, nodup, apart with
    | [a, b, c, d, e], nodup, apart => exact (halves_five nodup apart fuel).holds

end Runs

end DataStructAlgorithm.DataStruct.BTree
