import DataStructAlgorithm.FileComPress.Merging

/-! # The tree that the constructor builds

The passes merge the root weights greedily, and the path lengths grow by the sums. -/

namespace DataStructAlgorithm.FileComPress.HuffmanTree

open Foundation DataStruct

variable {T : Type} {weight : Operators T}

theorem shape_ne_nil {tree : AddrTree T} {address : Nat} (isRoot : tree.pointer = some address) :
    shape tree ≠ .nil := by
  cases tree with
  | nil => cases isRoot
  | node left own data right => exact nofun

/-- The loop joins two trees with the smallest weights, as long as there are two. -/
inductive Merges (weight : Operators T) : List (AddrTree T) → AddrTree T → Prop
  | single (tree : AddrTree T) : Merges weight [tree] tree
  | join {trees others : List (AddrTree T)} {first second final : AddrTree T} {address : Nat}
      {data : T} (parts : trees.Perm (first :: second :: others))
      (firstRoot : shape first ≠ .nil) (secondRoot : shape second ≠ .nil)
      (firstLeast : rootWeight weight first ≤ rootWeight weight second)
      (secondLeast : ∀ other ∈ others, rootWeight weight second ≤ rootWeight weight other)
      (full : Full (shape (.node first address data second)))
      (combines : Combines weight.add (shape (.node first address data second)))
      (merges : Merges weight (.node first address data second :: others) final) :
      Merges weight trees final

theorem mergeLoop_spec (fuel : Nat) {count : Nat} {state : Building T} {trees : List (AddrTree T)}
    (forest : Forest weight state trees) (nonempty : trees ≠ []) (enough : trees.length < fuel)
    (passes : trees.length ≤ count) :
    ∃ after tree, repeatLoop (mergePass weight fuel) count state = .ok after ∧
      Forest weight after [tree] ∧ Merges weight trees tree := by
  induction count generalizing state trees with
  | zero =>
      have empty := List.eq_nil_of_length_eq_zero (Nat.le_zero.mp passes)
      exact absurd empty nonempty
  | succ count induction =>
      by_cases several : 1 < trees.length
      · rcases mergePass_spec forest several fuel enough with
          ⟨next, first, second, others, data, pass, parts, firstLeast, secondLeast, grown⟩
        have length := parts.length_eq
        rw [List.length_cons, List.length_cons] at length
        rcases induction grown (List.cons_ne_nil _ _) (by rw [List.length_cons]; omega)
          (by rw [List.length_cons]; omega) with ⟨after, tree, ran, done, merges⟩
        have firstMem : first ∈ trees := parts.mem_iff.mpr List.mem_cons_self
        have secondMem : second ∈ trees := parts.mem_iff.mpr (by simp)
        rcases forest.exists_root firstMem with ⟨left, _, isLeft⟩
        rcases forest.exists_root secondMem with ⟨right, _, isRight⟩
        have joined := grown.sound _ List.mem_cons_self
        refine ⟨after, tree, ?_, done, ?_⟩
        · rw [repeatLoop_again _ pass]
          exact ran
        · exact .join parts (shape_ne_nil isLeft) (shape_ne_nil isRight) firstLeast secondLeast
            joined.full joined.combines merges
      · have single : ∃ tree, trees = [tree] := by
          rcases trees with _ | ⟨tree, _ | ⟨next, rest⟩⟩
          · exact absurd rfl nonempty
          · exact ⟨tree, rfl⟩
          · exact absurd (by simp) several
        rcases single with ⟨tree, rfl⟩
        have few : ¬state.queue.length > 1 := by
          rw [forest.length_eq]
          exact several
        have pass : mergePass weight fuel state = .ok (.leave state) := if_neg few
        exact ⟨state, tree, repeatLoop_leave _ pass, forest, .single tree⟩

/-- The leaves stay. -/
theorem Merges.leaves_perm {trees : List (AddrTree T)} {final : AddrTree T}
    (merges : Merges weight trees final) :
    (leaves (shape final)).Perm (trees.flatMap fun tree => leaves (shape tree)) := by
  induction merges with
  | single tree => simp
  | @join trees others first second final address data parts firstRoot _ _ _ _ _ _ induction =>
      apply induction.trans
      have flat := parts.flatMap_right fun tree => leaves (shape tree)
      rw [List.flatMap_cons, List.flatMap_cons] at flat
      rw [List.flatMap_cons, shape, leaves_join data firstRoot, List.append_assoc]
      exact flat.symm

/-- The trees of the valid entries. -/
theorem pushEntries_spec (invalue : T) (fuel : Nat) (a : List T) {state : Building T}
    {trees : List (AddrTree T)} (forest : Forest weight state trees)
    (enough : trees.length + a.length < fuel) :
    ∃ after added, runAll (pushEntry weight fuel invalue) state a = .ok after ∧
      Forest weight after (added ++ trees) ∧
      (added.map shape).Perm ((a.filter fun entry => weight.ne entry invalue).map
        fun entry => .node entry .nil .nil) := by
  induction a generalizing state trees with
  | nil => exact ⟨state, [], rfl, forest, List.Perm.refl _⟩
  | cons entry rest induction =>
      rw [List.length_cons] at enough
      rcases pushEntry_spec forest invalue entry fuel (by omega) with ⟨next, pushed, grown⟩
      by_cases valid : weight.ne entry invalue = true
      · rw [if_pos valid] at grown
        rcases induction grown (by rw [List.length_cons]; omega) with ⟨after, added, ran, done, shapes⟩
        refine ⟨after, added ++ [.node .nil state.nodes.next entry .nil], ?_, ?_, ?_⟩
        · rw [runAll, pushed, Outcome.ok_bind]
          exact ran
        · rw [List.append_assoc]
          exact done
        · have taken : (entry :: rest).filter (fun entry => weight.ne entry invalue) =
              entry :: rest.filter (fun entry => weight.ne entry invalue) :=
            List.filter_cons_of_pos valid
          rw [taken, List.map_append, List.map_cons]
          exact (shapes.append_right _).trans (List.perm_append_singleton _ _)
      · rw [if_neg valid] at grown
        rcases induction grown (by omega) with ⟨after, added, ran, done, shapes⟩
        refine ⟨after, added, ?_, done, ?_⟩
        · rw [runAll, pushed, Outcome.ok_bind]
          exact ran
        · have left : (entry :: rest).filter (fun entry => weight.ne entry invalue) =
              rest.filter (fun entry => weight.ne entry invalue) :=
            List.filter_cons_of_neg valid
          rw [left]
          exact shapes

theorem forest_empty : Forest weight (⟨.empty, []⟩ : Building T) [] := by
  refine ⟨List.Perm.refl _, nofun, List.nodup_nil, ?_⟩
  intro child _ upper lower upperFound
  cases upperFound

/-- The first trees are leaves. -/
theorem leaves_of_shapes {trees : List (AddrTree T)} {entries : List T}
    (shapes : (trees.map shape).Perm (entries.map fun entry => .node entry .nil .nil)) :
    (trees.flatMap fun tree => leaves (shape tree)).Perm entries := by
  have each := shapes.flatMap_right leaves
  rw [List.flatMap_map, List.flatMap_map] at each
  apply each.trans
  rw [show (fun entry : T => leaves (.node entry .nil .nil)) = fun entry => [entry] from rfl,
    List.flatMap_singleton']

/-- The constructor merges the leaves of the valid entries to a tree. -/
theorem ofArray_merges (weight : Operators T) (a : List T) (invalue : T)
    (valid : ∃ entry ∈ a, weight.ne entry invalue = true) (fuel : Nat)
    (enough : a.length + 1 < fuel) :
    ∃ built tree trees, ofArray weight fuel a invalue = .ok built ∧
      Represents built.heap built.root tree ∧ Full (shape tree) ∧
      Combines weight.add (shape tree) ∧ Merges weight trees tree ∧
      (trees.map shape).Perm ((a.filter fun entry => weight.ne entry invalue).map
        fun entry => .node entry .nil .nil) := by
  rcases valid with ⟨entry, inArray, isValid⟩
  have kept : entry ∈ a.filter fun entry => weight.ne entry invalue :=
    List.mem_filter.mpr ⟨inArray, isValid⟩
  have notEmpty : ¬a.isEmpty = true := by
    intro isEmpty
    rw [List.isEmpty_iff] at isEmpty
    rw [isEmpty] at inArray
    cases inArray
  rcases pushEntries_spec invalue fuel a forest_empty (by simp; omega) with
    ⟨state, trees, pushed, forest, shapes⟩
  rw [List.append_nil] at forest
  have count : trees.length = (a.filter fun entry => weight.ne entry invalue).length := by
    have same := shapes.length_eq
    rw [List.length_map, List.length_map] at same
    exact same
  have few : trees.length ≤ a.length := by
    rw [count]
    exact List.length_filter_le _ a
  have nonempty : trees ≠ [] := by
    apply List.ne_nil_of_length_pos
    rw [count]
    exact List.length_pos_of_mem kept
  rcases mergeLoop_spec fuel forest nonempty (by omega) (show trees.length ≤ fuel by omega) with
    ⟨last, tree, merged, single, merges⟩
  rcases single.exists_root List.mem_cons_self with ⟨root, inQueue, isRoot⟩
  have sound := single.sound tree List.mem_cons_self
  have queueEq : last.queue = [root] := by
    have length := single.length_eq
    rcases isQueue : last.queue with _ | ⟨head, _ | ⟨next, rest⟩⟩
    · rw [isQueue] at inQueue
      cases inQueue
    · rw [isQueue, List.mem_singleton] at inQueue
      rw [inQueue]
    · rw [isQueue] at length
      simp at length
  refine ⟨⟨last.nodes, some root⟩, tree, trees, ?_, ⟨isRoot.symm, sound.linked, ?_⟩, sound.full,
    sound.combines, merges, shapes⟩
  · rw [ofArray, if_neg notEmpty, pushed, Outcome.ok_bind, merged, Outcome.ok_bind, queueEq]
    rfl
  · have nodup := single.nodup
    rw [List.flatMap_cons, List.flatMap_nil, List.append_nil] at nodup
    exact nodup

theorem pushEntries_unused {weight : Operators T} {invalue : T} (fuel : Nat) {a : List T}
    (unused : ∀ entry ∈ a, ¬weight.ne entry invalue = true) (state : Building T) :
    runAll (pushEntry weight fuel invalue) state a = .ok state := by
  induction a with
  | nil => rfl
  | cons entry rest induction =>
      rcases List.forall_mem_cons.mp unused with ⟨first, others⟩
      rw [runAll, pushEntry, if_neg first, Outcome.ok_bind]
      exact induction others

/-- Without a valid entry there is no root. -/
theorem ofArray_unused {weight : Operators T} {a : List T} {invalue : T}
    (unused : ∀ entry ∈ a, ¬weight.ne entry invalue = true) {fuel : Nat} (positive : 0 < fuel) :
    ofArray weight fuel a invalue = .error .assertion := by
  by_cases isEmpty : a.isEmpty = true
  · rw [ofArray, if_pos isEmpty]
  · rcases fuel with _ | fuel
    · omega
    have left : mergePass weight (fuel + 1) (⟨.empty, []⟩ : Building T) =
        .ok (.leave ⟨.empty, []⟩) := rfl
    rw [ofArray, if_neg isEmpty, pushEntries_unused (fuel + 1) unused, Outcome.ok_bind,
      repeatLoop_leave fuel left]
    rfl

/-! ## Weights -/

section Weights

variable {weight : Weight T}

theorem sum_leaves_eq {tree : AddrTree T} (full : Full (shape tree))
    (combines : Combines weight.add (shape tree)) (nonempty : shape tree ≠ .nil) :
    ((leaves (shape tree)).map weight.value).sum = rootWeight weight tree := by
  cases tree with
  | nil => exact absurd rfl nonempty
  | node left own data right => exact sum_leaves full (combines.sums weight.value_add) rfl

/-- The weight of two joined trees. -/
theorem rootWeight_join {first second : AddrTree T} {address : Nat} {data : T}
    (combines : Combines weight.add (shape (.node first address data second)))
    (firstRoot : shape first ≠ .nil) (secondRoot : shape second ≠ .nil) :
    rootWeight weight (.node first address data second) =
      rootWeight weight first + rootWeight weight second := by
  cases first with
  | nil => exact absurd rfl firstRoot
  | node firstLeft firstAddress firstData firstRight =>
      cases second with
      | nil => exact absurd rfl secondRoot
      | node secondLeft secondAddress secondData secondRight =>
          exact (congrArg weight.value (combines.1 firstData secondData rfl rfl)).trans
            (weight.value_add firstData secondData)

/-- Merging is greedy, and the path lengths grow by the sums. -/
theorem Merges.greedy {trees : List (AddrTree T)} {final : AddrTree T}
    (merges : Merges weight trees final) :
    ∃ cost, Greedy (trees.map (rootWeight weight)) cost ∧
      weightedPathLength weight.value (shape final) =
        (trees.map fun tree => weightedPathLength weight.value (shape tree)).sum + cost := by
  induction merges with
  | single tree => exact ⟨0, Greedy.single _, by simp⟩
  | @join trees others first second final address data parts firstRoot secondRoot firstLeast
      secondLeast full combines _ induction =>
      rcases induction with ⟨cost, greedy, total⟩
      have isSum := rootWeight_join combines firstRoot secondRoot
      refine ⟨cost + (rootWeight weight first + rootWeight weight second), ?_, ?_⟩
      · apply Greedy.perm _ (parts.map (rootWeight weight))
        apply Greedy.merge firstLeast
        · intro other member
          rcases List.mem_map.mp member with ⟨otherTree, otherMem, rfl⟩
          exact secondLeast otherTree otherMem
        · rw [List.map_cons, isSum] at greedy
          exact greedy
      · rw [total, List.map_cons, List.sum_cons, (parts.map _).sum_eq, List.map_cons,
          List.map_cons, List.sum_cons, List.sum_cons, shape,
          weightedPathLength_join weight.value data firstRoot,
          sum_leaves_eq full.2.1 combines.2.1 firstRoot,
          sum_leaves_eq full.2.2 combines.2.2 secondRoot]
        omega

/-- Merging single nodes is greedy merging of their weights. -/
theorem Merges.greedy_leaves {trees : List (AddrTree T)} {final : AddrTree T} {entries : List T}
    (merges : Merges weight trees final)
    (shapes : (trees.map shape).Perm (entries.map fun entry => .node entry .nil .nil)) :
    Greedy ((leaves (shape final)).map weight.value)
      (weightedPathLength weight.value (shape final)) := by
  rcases merges.greedy with ⟨cost, greedy, total⟩
  have finalLeaves := merges.leaves_perm.trans (leaves_of_shapes shapes)
  have firstWeights : (trees.map (rootWeight weight)).Perm (entries.map weight.value) := by
    have each := shapes.map fun tree => ((rootLabel tree).map weight.value).getD 0
    rw [List.map_map, List.map_map] at each
    have same : ((fun tree => ((rootLabel tree).map weight.value).getD 0) ∘ shape) =
        rootWeight weight := by
      funext tree
      cases tree <;> rfl
    rw [same] at each
    exact each
  have firstLengths : (trees.map fun tree => weightedPathLength weight.value (shape tree)).sum =
      0 := by
    have each := shapes.map (weightedPathLength weight.value)
    rw [List.map_map, List.map_map] at each
    rw [show (trees.map fun tree => weightedPathLength weight.value (shape tree)) =
      trees.map (weightedPathLength weight.value ∘ shape) from rfl, each.sum_eq]
    apply List.sum_eq_zero
    intro length member
    rcases List.mem_map.mp member with ⟨other, _, rfl⟩
    simp [weightedPathLength, leavesAt]
  rw [total, firstLengths, Nat.zero_add]
  exact greedy.perm ((finalLeaves.map weight.value).trans firstWeights.symm)

/-- The constructor builds a tree of the valid entries, and its path length is the one that
greedy merging of their weights adds. -/
theorem ofArray_spec (weight : Weight T) (a : List T) (invalue : T)
    (valid : ∃ entry ∈ a, weight.ne entry invalue = true) (fuel : Nat)
    (enough : a.length + 1 < fuel) :
    ∃ built tree, ofArray weight fuel a invalue = .ok built ∧
      Represents built.heap built.root tree ∧ Full (shape tree) ∧
      (leaves (shape tree)).Perm (a.filter fun entry => weight.ne entry invalue) ∧
      Sums weight.value (shape tree) ∧
      Greedy ((leaves (shape tree)).map weight.value)
        (weightedPathLength weight.value (shape tree)) := by
  rcases ofArray_merges weight a invalue valid fuel enough with
    ⟨built, tree, trees, made, represents, full, combines, merges, shapes⟩
  have finalLeaves := merges.leaves_perm.trans (leaves_of_shapes shapes)
  exact ⟨built, tree, made, represents, full, finalLeaves, combines.sums weight.value_add,
    merges.greedy_leaves shapes⟩

/-- The constructor builds a tree whose nodes have zero or two children, whose leaves are
the valid entries and whose inner weights are sums. No binary tree with these leaf weights
has a smaller weighted path length. -/
theorem ofArray_optimal (weight : Weight T) (a : List T) (invalue : T)
    (valid : ∃ entry ∈ a, weight.ne entry invalue = true) (fuel : Nat)
    (enough : a.length + 1 < fuel) :
    ∃ built tree, ofArray weight fuel a invalue = .ok built ∧
      Represents built.heap built.root tree ∧ Full (shape tree) ∧
      (leaves (shape tree)).Perm (a.filter fun entry => weight.ne entry invalue) ∧
      Sums weight.value (shape tree) ∧
      ∀ other : BinaryTree T, ((leaves other).map weight.value).Perm
          ((leaves (shape tree)).map weight.value) →
        weightedPathLength weight.value (shape tree) ≤ weightedPathLength weight.value other := by
  rcases ofArray_spec weight a invalue valid fuel enough with
    ⟨built, tree, made, represents, full, sameLeaves, sums, greedy⟩
  refine ⟨built, tree, made, represents, full, sameLeaves, sums, ?_⟩
  intro other same
  apply greedy.le_weightedPathLength weight.value _ same
  intro isNil
  have length := same.length_eq
  rw [isNil, List.length_map, List.length_map, sameLeaves.length_eq] at length
  have noEntry := List.eq_nil_of_length_eq_zero length.symm
  rcases valid with ⟨entry, inArray, isValid⟩
  have kept : entry ∈ a.filter fun entry => weight.ne entry invalue :=
    List.mem_filter.mpr ⟨inArray, isValid⟩
  rw [noEntry] at kept
  cases kept

end Weights

theorem ofArray_optimal_small :
    ∃ built tree, ofArray Weight.sizeT 9 [5, 0, 2, 1, 1] 0 = .ok built ∧
      Represents built.heap built.root tree ∧ Full (shape tree) ∧
      (leaves (shape tree)).Perm [5, 2, 1, 1] ∧ Sums id (shape tree) ∧
      ∀ other : BinaryTree Nat, ((leaves other).map id).Perm ((leaves (shape tree)).map id) →
        weightedPathLength id (shape tree) ≤ weightedPathLength id other :=
  ofArray_optimal .sizeT [5, 0, 2, 1, 1] 0 ⟨5, by decide, by decide⟩ 9 (by decide)

end DataStructAlgorithm.FileComPress.HuffmanTree
