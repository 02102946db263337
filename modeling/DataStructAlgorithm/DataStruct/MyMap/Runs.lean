import Mathlib.Data.List.Nodup
import DataStructAlgorithm.DataStruct.MyMap.MyMap

/-! # Runs of map operations

Where the layering goes wrong: a key whose stored pair is not the pair that is
inserted counts as absent, and after some fix-ups the iterator that `insert`
returns is not at the new node. In every other case the map is the finite map it
is meant to be. -/

namespace DataStructAlgorithm.DataStruct.MyMap

open Foundation RBTree ColouredTree

variable {Key Value : Type}

/-- A key can be present and yet be inserted a second time, and an assignment can
reach the value of another key. -/
theorem insert_duplicates_key :
    (do
      let (map, _, _) ← insert 10 (.empty : MyMap Nat Nat) 1 3
      let (map, _, flag) ← insert 10 map 1 4
      let listed ← iterate 10 map
      pure (flag, listed)) = .ok (true, [(1, 3), (1, 4)]) ∧
    (do
      let map ← run 10 (.empty : MyMap Nat Nat) [.assign 1 5, .assign 3 7, .assign 2 9]
      iterate 10 map) = .ok [(1, 5), (2, 0), (3, 9)] :=
  ⟨rfl, rfl⟩

/-! ## The invariant -/

/-- The keys of the stored pairs, in order. -/
def firsts (nodes : List (Nat × (Key ×ₗ Value))) : List Key :=
  nodes.map fun node => (ofLex node.2).1

/-- The tree stores the finite map `meaning`. -/
structure MapHolds [LinearOrder Key] (map : MyMap Key Value) (meaning : Key → Option Value)
    (whole : ColouredTree (Key ×ₗ Value)) : Prop where
  represents : Represents map.t.heap map.t.root whole
  redBlack : RedBlack whole
  increasing : (firsts (nodes whole)).Pairwise (· < ·)
  mem_iff : ∀ key value, (∃ address, (address, toLex (key, value)) ∈ nodes whole) ↔
    meaning key = some value

theorem height_le_nodes (tree : ColouredTree (Key ×ₗ Value)) :
    tree.height ≤ (nodes tree).length := by
  simpa [nodes, AddrTree.toList] using tree.height_le_length

variable [LinearOrder Key]

theorem mapHolds_empty : MapHolds (.empty : MyMap Key Value) (fun _ => none) .nil where
  represents := ⟨rfl, trivial, List.nodup_nil⟩
  redBlack := ⟨rfl, trivial, 0, by simp⟩
  increasing := List.Pairwise.nil
  mem_iff := fun key value => by simp [nodes, AddrTree.entries]

namespace MapHolds

variable {map : MyMap Key Value} {meaning : Key → Option Value}
  {whole : ColouredTree (Key ×ₗ Value)}

/-- The nodes of the tree are in the order that the standard comparison of pairs
asks for, since no two have the same key. -/
theorem sorted [LinearOrder Value] (holds : MapHolds map meaning whole) :
    Sorted RbData.value whole := by
  have increasing := holds.increasing
  rw [Sorted, ← map_snd_nodes]
  rw [firsts, List.pairwise_map] at increasing
  rw [List.pairwise_map]
  exact increasing.imp fun less => Prod.Lex.toLex_lt_toLex.mpr (Or.inl less)

/-- Two nodes with the same key are the same node. -/
theorem node_unique (holds : MapHolds map meaning whole) {first second : Nat × (Key ×ₗ Value)}
    (firstMem : first ∈ nodes whole) (secondMem : second ∈ nodes whole)
    (equal : (ofLex first.2).1 = (ofLex second.2).1) : first = second := by
  have nodup : (firsts (nodes whole)).Nodup := holds.increasing.imp fun less => ne_of_lt less
  exact List.inj_on_of_nodup_map nodup firstMem secondMem equal

theorem present_iff [LinearOrder Value] (holds : MapHolds map meaning whole) (key : Key)
    (value : Value) :
    toLex (key, value) ∈ keys RbData.value whole ↔ meaning key = some value := by
  rw [← holds.mem_iff, ← map_snd_nodes, List.mem_map]
  constructor
  · intro member
    rcases member with ⟨node, member, equal⟩
    exact ⟨node.1, equal ▸ member⟩
  · intro member
    rcases member with ⟨address, member⟩
    exact ⟨_, member, rfl⟩

theorem meaning_of_mem (holds : MapHolds map meaning whole) {node : Nat × (Key ×ₗ Value)}
    (member : node ∈ nodes whole) :
    meaning (ofLex node.2).1 = some (ofLex node.2).2 :=
  (holds.mem_iff _ _).mp ⟨node.1, member⟩

theorem found (holds : MapHolds map meaning whole) {address : Nat} {pair : Key ×ₗ Value}
    (member : (address, pair) ∈ nodes whole) :
    ∃ node, map.t.heap.cell address = some node ∧ node.data.value = pair := by
  rcases List.mem_map.mp member with ⟨entry, entryMem, equal⟩
  rcases holds.represents.linked.found entryMem with ⟨node, found, dataEq⟩
  cases equal
  exact ⟨node, found, congrArg RbData.value dataEq⟩

theorem iterate (holds : MapHolds map meaning whole) (fuel : Nat)
    (enough : (nodes whole).length < fuel) :
    MyMap.iterate fuel map = .ok ((nodes whole).map fun node => ofLex node.2) := by
  have length : (nodes whole).length = whole.toList.length := by
    simp [nodes, AddrTree.toList]
  have visited := traverse_spec holds.represents fuel (by omega)
  simp [MyMap.iterate, visited, nodes, AddrTree.toList]

/-- Inserting a pair with a new key. -/
theorem grown [LinearOrder Value] (holds : MapHolds map meaning whole) {key : Key}
    {value : Value} (absent : meaning key = none) {after : RbTree (Key ×ₗ Value)}
    {larger : ColouredTree (Key ×ₗ Value)} {address : Nat}
    (result : Grown whole after larger address (toLex (key, value))) :
    MapHolds ⟨after⟩ (fun other => if other = key then some value else meaning other) larger ∧
      (address, toLex (key, value)) ∈ nodes larger ∧
      (nodes larger).length = (nodes whole).length + 1 := by
  rcases result.nodes with ⟨first, second, wholeEq, largerEq⟩
  have keyFresh : ∀ node ∈ nodes whole, (ofLex node.2).1 ≠ key := by
    intro node member equal
    have known := holds.meaning_of_mem member
    rw [equal, absent] at known
    cases known
  have memIff : ∀ node, node ∈ nodes larger ↔
      node = (address, toLex (key, value)) ∨ node ∈ nodes whole := by
    intro node
    rw [largerEq, wholeEq]
    simp only [List.mem_append, List.mem_cons]
    grind
  refine ⟨⟨result.represents, result.redBlack, ?_, ?_⟩, (memIff _).mpr (Or.inl rfl), ?_⟩
  · -- the pairs are increasing and the keys differ, so the keys are increasing
    have distinct : (firsts (nodes larger)).Pairwise (· ≠ ·) := by
      have old : (firsts (nodes whole)).Pairwise (· ≠ ·) :=
        holds.increasing.imp fun less => ne_of_lt less
      rw [wholeEq] at old keyFresh
      rw [largerEq]
      simp only [firsts, List.map_append, List.map_cons, List.pairwise_append,
        List.pairwise_cons, List.mem_map, List.mem_append, List.mem_cons,
        ofLex_toLex] at old keyFresh ⊢
      grind
    have pairs := result.sorted
    rw [Sorted, ← map_snd_nodes, List.pairwise_map] at pairs
    rw [firsts, List.pairwise_map] at distinct ⊢
    refine (pairs.and distinct).imp ?_
    intro left right both
    rcases Prod.Lex.toLex_lt_toLex.mp both.1 with less | ⟨equal, _⟩
    · exact less
    · exact absurd equal both.2
  · intro queried stored
    constructor
    · intro member
      rcases member with ⟨place, member⟩
      rcases (memIff _).mp member with equal | member
      · cases equal
        simp
      · have different := keyFresh _ member
        have known := holds.meaning_of_mem member
        simp only [ofLex_toLex] at different known
        simp [different, known]
    · intro known
      by_cases equal : queried = key
      · subst equal
        rw [if_pos rfl] at known
        cases known
        exact ⟨address, (memIff _).mpr (Or.inl rfl)⟩
      · rw [if_neg equal] at known
        rcases (holds.mem_iff _ _).mpr known with ⟨place, member⟩
        exact ⟨place, (memIff _).mpr (Or.inr member)⟩
  · rw [largerEq, wholeEq]
    simp only [List.length_append, List.length_cons]
    omega

/-- Writing the second component of one stored pair. -/
theorem overwritten (holds : MapHolds map meaning whole) {key : Key} {old : Value}
    {address : Nat} (member : (address, toLex (key, old)) ∈ nodes whole) (value : Value) :
    MapHolds ⟨⟨map.t.heap.modify address (.updateData (setSecond value)), map.t.root⟩⟩
      (fun other => if other = key then some value else meaning other)
      (whole.updateAt address (setSecond value)) := by
  have nodesEq : nodes (whole.updateAt address (setSecond value)) =
      (nodes whole).map fun node => if node.1 = address
        then (node.1, toLex ((ofLex node.2).1, value)) else node := by
    simp only [nodes, AddrTree.entries_updateAt, List.map_map]
    apply List.map_congr_left
    intro entry _
    by_cases equal : entry.1 = address <;> simp [equal, setSecond]
  have addressUnique : ∀ node ∈ nodes whole, node.1 = address →
      node = (address, toLex (key, old)) := by
    intro node nodeMem equal
    have nodup := holds.represents.nodup
    rw [← map_fst_nodes] at nodup
    exact List.inj_on_of_nodup_map nodup nodeMem member equal
  refine ⟨holds.represents.updateAt address (setSecond value), ?_, ?_, ?_⟩
  · have kept : ∀ data : RbData (Key ×ₗ Value), (setSecond value data).col = data.col := fun _ => rfl
    exact RedBlack.updateAt address kept holds.redBlack
  · have firstsEq : firsts (nodes (whole.updateAt address (setSecond value))) =
        firsts (nodes whole) := by
      rw [nodesEq, firsts, firsts, List.map_map]
      apply List.map_congr_left
      intro node _
      by_cases equal : node.1 = address <;> simp [equal]
    rw [firstsEq]
    exact holds.increasing
  · intro queried stored
    rw [nodesEq]
    constructor
    · intro found
      rcases found with ⟨place, found⟩
      rcases List.mem_map.mp found with ⟨node, nodeMem, equal⟩
      by_cases here : node.1 = address
      · rw [if_pos here, addressUnique node nodeMem here] at equal
        cases equal
        simp
      · rw [if_neg here] at equal
        subst equal
        have different : queried ≠ key := by
          intro same
          subst same
          have unique := holds.node_unique nodeMem member rfl
          exact here (congrArg Prod.fst unique)
        rw [if_neg different]
        exact (holds.mem_iff _ _).mp ⟨place, nodeMem⟩
    · intro known
      by_cases equal : queried = key
      · subst equal
        rw [if_pos rfl] at known
        cases known
        exact ⟨address, List.mem_map.mpr ⟨_, member, by simp⟩⟩
      · rw [if_neg equal] at known
        rcases (holds.mem_iff _ _).mpr known with ⟨place, nodeMem⟩
        refine ⟨place, List.mem_map.mpr ⟨_, nodeMem, ?_⟩⟩
        rw [if_neg]
        intro here
        have unique := addressUnique _ nodeMem here
        cases unique
        exact equal rfl

end MapHolds

/-! ## Calls -/

variable [LinearOrder Value]

/-- The calls of `insert` that do what they should: the key is new, or the very
pair is already stored. -/
def InsertFits (meaning : Key → Option Value) (key : Key) (value : Value) : Prop :=
  meaning key = none ∨ meaning key = some value

/-- The uses of `operator[]` that do what they should: the key has the default
value, or it is new and the fix-up leaves `cur` at the new node. -/
def IndexFits [Inhabited Value] (fuel : Nat) (map : MyMap Key Value)
    (meaning : Key → Option Value) (key : Key) : Prop :=
  meaning key = some default ∨
    (meaning key = none ∧ keepsCur fuel map.t (toLex (key, default)) = .ok true)

section Calls

variable {map : MyMap Key Value} {meaning : Key → Option Value}
  {whole : ColouredTree (Key ×ₗ Value)}

theorem MapHolds.insert (holds : MapHolds map meaning whole) (key : Key) (value : Value)
    (fits : InsertFits meaning key value) (fuel : Nat) (enough : whole.height < fuel) :
    ∃ after it flag larger, MyMap.insert fuel map key value = .ok (after, it, flag) ∧
      MapHolds after (fun other => if other = key then some ((meaning key).getD value)
        else meaning other) larger ∧
      (nodes larger).length ≤ (nodes whole).length + 1 ∧
      (flag = false ↔ meaning key ≠ none) ∧ (flag = false → after = map) := by
  rcases fits with absent | present
  · have notStored : toLex (key, value) ∉ keys RbData.value whole := by
      rw [holds.present_iff, absent]
      exact fun equal => nomatch equal
    rcases insertCur_absent holds.represents holds.redBlack holds.sorted notStored fuel enough
      with ⟨after, cur, larger, returned, result, _⟩
    have grown := holds.grown absent result
    refine ⟨⟨after⟩, cur, true, larger, by simp [MyMap.insert, returned], ?_,
      le_of_eq grown.2.2, by simp [absent], fun equal => nomatch equal⟩
    rw [absent]
    exact grown.1
  · have stored := (holds.present_iff key value).mpr present
    rcases insertCur_found holds.represents holds.sorted stored fuel enough with
      ⟨address, member, returned⟩
    refine ⟨map, some address, false, whole, by simp [MyMap.insert, returned], ?_,
      Nat.le_succ _, by simp [present], fun _ => rfl⟩
    have same : (fun other => if other = key then some ((meaning key).getD value)
        else meaning other) = meaning := by
      funext other
      by_cases equal : other = key <;> simp [equal, present]
    rw [same]
    exact holds

variable [Inhabited Value]

theorem MapHolds.index (holds : MapHolds map meaning whole) (key : Key) (fuel : Nat)
    (fits : IndexFits fuel map meaning key) (enough : whole.height < fuel) :
    ∃ after address larger, MyMap.index fuel map key = .ok (after, some address) ∧
      MapHolds after (fun other => if other = key then some default else meaning other)
        larger ∧
      (address, toLex (key, default)) ∈ nodes larger ∧
      (nodes larger).length ≤ (nodes whole).length + 1 := by
  rcases fits with present | ⟨absent, keeps⟩
  · have stored := (holds.present_iff key default).mpr present
    rcases insertCur_found holds.represents holds.sorted stored fuel enough with
      ⟨address, member, returned⟩
    refine ⟨map, address, whole, by simp [MyMap.index, MyMap.insert, returned], ?_, member,
      Nat.le_succ _⟩
    have same : (fun other => if other = key then some default else meaning other) =
        meaning := by
      funext other
      by_cases equal : other = key <;> simp [equal, present]
    rw [same]
    exact holds
  · have notStored : toLex (key, default) ∉ keys RbData.value whole := by
      rw [holds.present_iff, absent]
      exact fun equal => nomatch equal
    rcases insertCur_absent holds.represents holds.redBlack holds.sorted notStored fuel enough
      with ⟨after, cur, larger, returned, result, kept⟩
    have grown := holds.grown absent result
    refine ⟨⟨after⟩, map.t.heap.next, larger, ?_, grown.1, grown.2.1, le_of_eq grown.2.2⟩
    simp [MyMap.index, MyMap.insert, returned, kept.mpr keeps]

theorem MapHolds.assign (holds : MapHolds map meaning whole) (key : Key) (value : Value)
    (fuel : Nat) (fits : IndexFits fuel map meaning key) (enough : whole.height < fuel) :
    ∃ after larger, MyMap.assign fuel map key value = .ok after ∧
      MapHolds after (fun other => if other = key then some value else meaning other) larger ∧
      (nodes larger).length ≤ (nodes whole).length + 1 := by
  rcases holds.index key fuel fits enough with
    ⟨middle, address, larger, returned, middleHolds, member, sizeLe⟩
  have written := middleHolds.overwritten member value
  have assigned : ∃ heap, middle.t.heap.assign (some address) (.updateData (setSecond value)) =
      .ok heap ∧ heap = middle.t.heap.modify address (.updateData (setSecond value)) := by
    rcases middleHolds.found member with ⟨node, found, _⟩
    exact ⟨_, Store.assign_some _ found, rfl⟩
  rcases assigned with ⟨heap, assigned, heapEq⟩
  have sameMeaning : (fun other => if other = key then some value
      else if other = key then some default else meaning other) =
      fun other => if other = key then some value else meaning other := by
    funext other
    by_cases equal : other = key <;> simp [equal]
  have sameSize : (nodes (larger.updateAt address (setSecond value))).length =
      (nodes larger).length := by
    simp only [nodes, AddrTree.entries_updateAt, List.length_map]
  rw [sameMeaning, ← heapEq] at written
  refine ⟨⟨⟨heap, middle.t.root⟩⟩, _, ?_, written, by omega⟩
  simp [MyMap.assign, returned, assigned]

theorem MapHolds.lookup (holds : MapHolds map meaning whole) (key : Key) (fuel : Nat)
    (fits : IndexFits fuel map meaning key) (enough : whole.height < fuel) :
    ∃ after larger, MyMap.lookup fuel map key = .ok (after, (meaning key).getD default) ∧
      MapHolds after (fun other => if other = key then some ((meaning key).getD default)
        else meaning other) larger ∧
      (nodes larger).length ≤ (nodes whole).length + 1 := by
  have valueEq : (meaning key).getD default = default := by
    rcases fits with present | ⟨absent, _⟩
    · simp [present]
    · simp [absent]
  rcases holds.index key fuel fits enough with
    ⟨after, address, larger, returned, afterHolds, member, sizeLe⟩
  rcases afterHolds.found member with ⟨node, found, stored⟩
  rw [valueEq]
  refine ⟨after, larger, ?_, afterHolds, sizeLe⟩
  simp [MyMap.lookup, returned, Store.load_some found, stored]

end Calls

/-! ## Runs -/

variable [Inhabited Value]

/-- The calls that do what they should in a state that stores `meaning`. -/
def Fits (fuel : Nat) (map : MyMap Key Value) (meaning : Key → Option Value) :
    MapOp Key Value → Prop
  | .insert key value => InsertFits meaning key value
  | .assign key _ => IndexFits fuel map meaning key
  | .lookup key => IndexFits fuel map meaning key

/-- Every call of the sequence fits the state it is made in. -/
def AllFit (fuel : Nat) : MyMap Key Value → (Key → Option Value) → List (MapOp Key Value) → Prop
  | _, _, [] => True
  | map, meaning, op :: rest => Fits fuel map meaning op ∧
      ∀ after, step fuel map op = .ok after → AllFit fuel after (op.apply meaning) rest

theorem AllFit.cons {fuel : Nat} {map after : MyMap Key Value} {meaning : Key → Option Value}
    {op : MapOp Key Value} {rest : List (MapOp Key Value)} (fits : Fits fuel map meaning op)
    (returned : step fuel map op = .ok after) (others : AllFit fuel after (op.apply meaning) rest) :
    AllFit fuel map meaning (op :: rest) := by
  refine ⟨fits, fun result equal => ?_⟩
  rw [returned] at equal
  cases equal
  exact others

/-- The map behaves as the finite map `meaning`. -/
structure Faithful (fuel : Nat) (map : MyMap Key Value) (meaning : Key → Option Value) :
    Prop where
  listed : ∃ pairs, iterate fuel map = .ok pairs ∧
    (pairs.map Prod.fst).Pairwise (· < ·) ∧
    ∀ key value, (key, value) ∈ pairs ↔ meaning key = some value
  inserted : ∀ key value, InsertFits meaning key value →
    ∃ after it flag, insert fuel map key value = .ok (after, it, flag) ∧
      (flag = false ↔ meaning key ≠ none) ∧ (flag = false → after = map)
  referred : ∀ key, IndexFits fuel map meaning key →
    ∃ after, lookup fuel map key = .ok (after, (meaning key).getD default)

theorem MapHolds.step {map : MyMap Key Value} {meaning : Key → Option Value}
    {whole : ColouredTree (Key ×ₗ Value)} (holds : MapHolds map meaning whole)
    (op : MapOp Key Value) (fuel : Nat) (fits : Fits fuel map meaning op)
    (enough : (nodes whole).length < fuel) :
    ∃ after larger, MyMap.step fuel map op = .ok after ∧
      MapHolds after (op.apply meaning) larger ∧
      (nodes larger).length ≤ (nodes whole).length + 1 := by
  have heightLt := (height_le_nodes whole).trans_lt enough
  cases op with
  | insert key value =>
      rcases holds.insert key value fits fuel heightLt with
        ⟨after, it, flag, larger, returned, afterHolds, sizeLe, _⟩
      exact ⟨after, larger, by simp [MyMap.step, returned], afterHolds, sizeLe⟩
  | assign key value =>
      rcases holds.assign key value fuel fits heightLt with
        ⟨after, larger, returned, afterHolds, sizeLe⟩
      exact ⟨after, larger, returned, afterHolds, sizeLe⟩
  | lookup key =>
      rcases holds.lookup key fuel fits heightLt with
        ⟨after, larger, returned, afterHolds, sizeLe⟩
      exact ⟨after, larger, by simp [MyMap.step, returned], afterHolds, sizeLe⟩

theorem MapHolds.run {map : MyMap Key Value} {meaning : Key → Option Value}
    {whole : ColouredTree (Key ×ₗ Value)} (holds : MapHolds map meaning whole)
    (ops : List (MapOp Key Value)) (fuel : Nat) (fits : AllFit fuel map meaning ops)
    (enough : (nodes whole).length + ops.length < fuel) :
    ∃ after larger, MyMap.run fuel map ops = .ok after ∧
      MapHolds after (ops.foldl MapOp.apply meaning) larger ∧ (nodes larger).length < fuel := by
  induction ops generalizing map meaning whole with
  | nil => exact ⟨map, whole, rfl, holds, by simpa using enough⟩
  | cons op rest induction =>
      rw [List.length_cons] at enough
      rcases holds.step op fuel fits.1 (by omega) with
        ⟨middle, larger, returned, middleHolds, sizeLe⟩
      rcases induction middleHolds (fits.2 middle returned) (by omega) with
        ⟨after, final, finished, finalHolds, finalSize⟩
      refine ⟨after, final, ?_, finalHolds, finalSize⟩
      rw [MyMap.run, returned, Outcome.ok_bind, finished]

theorem MapHolds.faithful {map : MyMap Key Value} {meaning : Key → Option Value}
    {whole : ColouredTree (Key ×ₗ Value)} (holds : MapHolds map meaning whole) {fuel : Nat}
    (enough : (nodes whole).length < fuel) : Faithful fuel map meaning where
  listed := by
    refine ⟨_, holds.iterate fuel enough, ?_, ?_⟩
    · simpa [firsts, Function.comp_def] using holds.increasing
    · intro key value
      rw [← holds.mem_iff, List.mem_map]
      constructor
      · intro member
        rcases member with ⟨node, member, equal⟩
        exact ⟨node.1, (congrArg toLex equal) ▸ member⟩
      · intro member
        rcases member with ⟨address, member⟩
        exact ⟨_, member, rfl⟩
  inserted := by
    intro key value fits
    rcases holds.insert key value fits fuel ((height_le_nodes whole).trans_lt enough) with
      ⟨after, it, flag, _, returned, _, _, flagEq, kept⟩
    exact ⟨after, it, flag, returned, flagEq, kept⟩
  referred := by
    intro key fits
    rcases holds.lookup key fuel fits ((height_le_nodes whole).trans_lt enough) with
      ⟨after, _, returned, _⟩
    exact ⟨after, returned⟩

/-- A sequence of calls that all fit builds the finite map it is meant to build. -/
theorem run_faithful (ops : List (MapOp Key Value)) (fuel : Nat) (enough : ops.length < fuel)
    (fits : AllFit fuel (.empty : MyMap Key Value) (fun _ => none) ops) :
    ∃ map, run fuel .empty ops = .ok map ∧ Faithful fuel map (meaningOf ops) := by
  have start : (nodes (.nil : ColouredTree (Key ×ₗ Value))).length = 0 := rfl
  rcases mapHolds_empty.run ops fuel fits (by omega) with
    ⟨map, larger, returned, holds, sizeLt⟩
  exact ⟨map, returned, holds.faithful sizeLt⟩

theorem run_faithful_four :
    ∃ map, run 10 (.empty : MyMap Nat Nat)
        [MapOp.insert 1 3, .assign 6 7, .insert 1 3, .lookup 9] = .ok map ∧
      Faithful 10 map (meaningOf [MapOp.insert 1 3, .assign 6 7, .insert 1 3, .lookup 9]) :=
  run_faithful _ 10 (by decide)
    (.cons (Or.inl rfl) rfl
      (.cons (Or.inr ⟨rfl, rfl⟩) rfl
        (.cons (Or.inr rfl) rfl
          (.cons (Or.inr ⟨rfl, rfl⟩) rfl trivial))))

end DataStructAlgorithm.DataStruct.MyMap
