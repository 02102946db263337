import Mathlib.Data.List.Nodup
import Mathlib.Data.Set.Basic
import DataStructAlgorithm.DataStruct.BinarySearchTree.Removal

/-! # Runs of insertions and deletions

The keys of a tree evolve as a set. The values do not keep up with them: `erase`
moves the key of a successor without its value. -/

namespace DataStructAlgorithm.DataStruct.BinarySearchTree

open Foundation ForkTree

variable {T V : Type} [LinearOrder T]

/-! ## Searching -/

section Search

variable {tree : BinarySearchTree T V} {whole : Shape T V} {d : T}

/-- The node that `find` returns. -/
def locate (d : T) : Shape T V → Ptr
  | .nil => none
  | .node left address pair right =>
      if d < pair.data then locate d left
      else if pair.data < d then locate d right
      else some address

theorem findPass_ends {heap : Store (Node T V)} (held : Held heap whole) (fuel : Nat)
    (enough : whole.height < fuel) :
    repeatLoop (findPass heap d) fuel whole.pointer = .ok (locate d whole) := by
  induction whole generalizing fuel with
  | nil =>
      cases fuel with
      | zero => omega
      | succ fuel => exact repeatLoop_leave fuel rfl
  | node left address pair right leftInduction rightInduction =>
      rcases held with ⟨found, leftHeld, rightHeld⟩
      have loaded := Store.load_some found
      simp only [AddrTree.height] at enough
      cases fuel with
      | zero => omega
      | succ fuel =>
          rcases lt_trichotomy d pair.data with less | equal | greater
          · have pass : findPass heap d (some address) = .ok (.again left.pointer) := by
              simp [findPass, loaded, less]
            rw [AddrTree.pointer_node, repeatLoop_again fuel pass, locate, if_pos less]
            exact leftInduction leftHeld fuel (by omega)
          · apply repeatLoop_leave
            simp [findPass, loaded, locate, equal]
          · have pass : findPass heap d (some address) = .ok (.again right.pointer) := by
              simp [findPass, loaded, greater, not_lt_of_gt greater]
            rw [AddrTree.pointer_node, repeatLoop_again fuel pass, locate,
              if_neg (not_lt_of_gt greater), if_pos greater]
            exact rightInduction rightHeld fuel (by omega)

theorem find_eq_locate (shows : Shows tree whole) (fuel : Nat) (enough : whole.height < fuel) :
    find fuel tree d = .ok (locate d whole) := by
  have ended := findPass_ends (d := d) shows.held fuel enough
  rw [find, shows.root_eq]
  cases whole with
  | nil => rfl
  | node left address pair right => exact ended

theorem locate_eq_some {address : Nat} (located : locate d whole = some address) :
    ∃ pair, (address, pair) ∈ whole.entries ∧ pair.data = d := by
  induction whole with
  | nil => cases located
  | node left here pair right leftInduction rightInduction =>
      simp only [locate] at located
      simp only [AddrTree.entries, List.mem_append, List.mem_cons]
      rcases lt_trichotomy d pair.data with less | equal | greater
      · rw [if_pos less] at located
        rcases leftInduction located with ⟨given, member, keyEq⟩
        exact ⟨given, Or.inl member, keyEq⟩
      · simp only [equal, lt_irrefl, if_false, Option.some.injEq] at located
        exact ⟨pair, Or.inr (Or.inl (by rw [located])), equal.symm⟩
      · rw [if_neg (not_lt_of_gt greater), if_pos greater] at located
        rcases rightInduction located with ⟨given, member, keyEq⟩
        exact ⟨given, Or.inr (Or.inr member), keyEq⟩

theorem locate_eq_none (sorted : Sorted Pair.data whole) (located : locate d whole = none) :
    ∀ pair ∈ whole.toList, pair.data ≠ d := by
  induction whole with
  | nil => intro pair member; cases member
  | node left here pair right leftInduction rightInduction =>
      rcases sorted_node.mp sorted with ⟨leftSorted, rightSorted, below, above, _⟩
      simp only [locate] at located
      intro given member keyEq
      rw [AddrTree.toList_node, List.mem_append, List.mem_cons] at member
      rcases lt_trichotomy d pair.data with less | equal | greater
      · rw [if_pos less] at located
        rcases member with inLeft | rfl | inRight
        · exact leftInduction leftSorted located given inLeft keyEq
        · exact absurd keyEq (ne_of_gt less)
        · exact absurd (above given inRight) (not_lt_of_gt (keyEq ▸ less))
      · simp [equal] at located
      · rw [if_neg (not_lt_of_gt greater), if_pos greater] at located
        rcases member with inLeft | rfl | inRight
        · exact absurd (below given inLeft) (not_lt_of_gt (keyEq ▸ greater))
        · exact absurd keyEq (ne_of_lt greater)
        · exact rightInduction rightSorted located given inRight keyEq

/-- `find(d)->_value`, where there is such a node. -/
def findValue (fuel : Nat) (tree : BinarySearchTree T V) (d : T) : Outcome (Option V) := do
  match ← find fuel tree d with
  | none => pure none
  | some address => do
      let node ← tree.heap.load (some address)
      pure (some node.data.value)

/-- A pair is determined by its key. -/
theorem pair_unique (sorted : Sorted Pair.data whole) {pair other : Pair T V}
    (member : pair ∈ whole.toList) (otherMember : other ∈ whole.toList)
    (equal : pair.data = other.data) : pair = other := by
  have nodup : (whole.toList.map Pair.data).Nodup := by
    rw [← keys_eq]
    exact sorted.imp fun less => ne_of_lt less
  exact List.inj_on_of_nodup_map nodup member otherMember equal

/-- The value found under a key is the one that is paired with it. -/
theorem findValue_iff (shows : Shows tree whole) (sorted : Sorted Pair.data whole) (fuel : Nat)
    (enough : whole.height < fuel) (value : V) :
    findValue fuel tree d = .ok (some value) ↔ ⟨d, value⟩ ∈ whole.toList := by
  have found := find_eq_locate (d := d) shows fuel enough
  cases located : locate d whole with
  | none =>
      rw [located] at found
      constructor
      · intro returned
        simp [findValue, found] at returned
      · intro member
        exact absurd rfl (locate_eq_none sorted located _ member)
  | some address =>
      rw [located] at found
      rcases locate_eq_some located with ⟨pair, member, keyEq⟩
      rcases shows.held.found member with ⟨node, cell, dataEq⟩
      have listed : pair ∈ whole.toList := List.mem_map.mpr ⟨_, member, rfl⟩
      have value_eq : findValue fuel tree d = .ok (some pair.value) := by
        simp [findValue, found, Store.load_some cell, dataEq]
      rw [value_eq]
      constructor
      · intro equal
        simp only [Except.ok.injEq, Option.some.injEq] at equal
        subst d value
        exact listed
      · intro other
        rw [pair_unique sorted listed other keyEq]

end Search

/-! ## Insertion -/

section Insertion

variable {tree : BinarySearchTree T V} {whole : Shape T V} {d : T} {v : V}

/-- The loop of `insert` ends at the key, or below the node where it belongs. -/
theorem insertPass_ends (shows : Shows tree whole) (d : T) (fuel : Nat)
    (enough : whole.height < fuel) :
    ∃ result, repeatLoop (insertPass tree.heap d) fuel (tree.root, none) = .ok result ∧
      result.Locates (against Pair.data d) whole := by
  refine repeatLoop_total
    (fun bound state => ∃ focus context, state = (focus.pointer, Context.parent context) ∧
      whole = Context.plug focus context ∧ Follows (against Pair.data d) context ∧
      focus.height = bound)
    (fun result : Descent => result.Locates (against Pair.data d) whole) ?_ fuel whole.height
    (tree.root, none) ⟨whole, [], by rw [shows.root_eq]; rfl, rfl, follows_nil, rfl⟩ enough
  intro bound state holds
  rcases holds with ⟨focus, context, rfl, plugged, follows, rfl⟩
  cases focus with
  | nil => exact Or.inr ⟨_, rfl, context, rfl, plugged, follows⟩
  | node left address pair right =>
      have atFocus := (shows_plug _ _).mp (plugged ▸ shows)
      have loaded := Store.load_some atFocus.held.1
      simp only [AddrTree.height]
      rcases lt_trichotomy d pair.data with less | equal | greater
      · refine Or.inl ⟨(left.pointer, some address), left.height, ?_, by omega, left,
          ⟨.left, address, pair, right⟩ :: context, rfl, plugged,
          follows.cons (against_eq_lt.mpr less), rfl⟩
        simp [insertPass, loaded, less]
      · refine Or.inr ⟨.found (some address), ?_, left, address, pair, right, context, rfl,
          plugged, against_eq_eq.mpr equal.symm, follows⟩
        simp [insertPass, loaded, equal]
      · refine Or.inl ⟨(right.pointer, some address), right.height, ?_, by omega, right,
          ⟨.right, address, pair, left⟩ :: context, rfl, plugged,
          follows.cons (against_eq_gt.mpr greater), rfl⟩
        simp [insertPass, loaded, greater, not_lt_of_gt greater]

/-- What one call of `insert` does. -/
structure Inserted (tree : BinarySearchTree T V) (whole : Shape T V) (d : T) (v : V)
    (after : BinarySearchTree T V) (flag : Bool) (larger : Shape T V) : Prop where
  shows : Shows after larger
  sorted : Sorted Pair.data larger
  flag_iff : flag = true ↔ d ∉ keys Pair.data whole
  mem_iff : ∀ key, key ∈ keys Pair.data larger ↔ key = d ∨ key ∈ keys Pair.data whole
  length_le : larger.toList.length ≤ whole.toList.length + 1

/-- A key that is met stays as it is. -/
theorem inserted_found {left right : Shape T V} {address : Nat} {pair : Pair T V}
    {context : Context (Pair T V)}
    (shows : Shows tree (Context.plug (.node left address pair right) context))
    (sorted : Sorted Pair.data (Context.plug (.node left address pair right) context))
    (equal : pair.data = d) :
    Inserted tree (Context.plug (.node left address pair right) context) d v tree false
      (Context.plug (.node left address pair right) context) := by
  have member : d ∈ keys Pair.data (Context.plug (.node left address pair right) context) := by
    simp [keys, Context.entries_plug, AddrTree.entries, equal]
  refine ⟨shows, sorted, by simp [member], ?_, by omega⟩
  intro key
  constructor
  · exact Or.inr
  · intro either
    rcases either with rfl | present
    · exact member
    · exact present

/-- A new leaf, which `insert` has hung below the node where the loop ended. -/
theorem inserted_leaf {context : Context (Pair T V)} {after : BinarySearchTree T V}
    {address : Nat} (follows : Follows (against Pair.data d) context)
    (sorted : Sorted Pair.data (Context.plug .nil context))
    (shows : Shows after (Context.plug (.node .nil address ⟨d, v⟩ .nil) context)) :
    Inserted tree (Context.plug .nil context) d v after true
      (Context.plug (.node .nil address ⟨d, v⟩ .nil) context) := by
  refine ⟨shows, follows.sorted_leaf sorted ⟨d, v⟩ rfl address,
    by simp [follows.not_mem sorted], fun key => mem_keys_leaf key, ?_⟩
  simp only [AddrTree.toList, Context.entries_plug, AddrTree.entries, List.length_map,
    List.length_append, List.length_nil, List.length_cons]
  omega

/-- The end of `insert` hangs a new leaf below the node where the loop ended. -/
theorem hang_leaf {frame : Frame (Pair T V)} {rest : Context (Pair T V)}
    (shows : Shows tree (Context.plug .nil (frame :: rest)))
    (follows : Follows (against Pair.data d) (frame :: rest)) (v : V) :
    ∃ heap, (tree.heap.alloc ⟨⟨d, v⟩, none, none⟩).assign (some frame.address)
        (.setChild (if d < frame.data.data then .left else .right) (some tree.heap.next)) =
          .ok heap ∧
      Shows ⟨heap, tree.root⟩
        (Context.plug (.node .nil tree.heap.next ⟨d, v⟩ .nil) (frame :: rest)) := by
  have parts := (shows_plug _ _).mp shows
  have grown := parts.alloc ⟨⟨d, v⟩, none, none⟩
  have fresh : tree.heap.next ∉ Context.addresses (frame :: rest) := fun member =>
    Nat.lt_irrefl _ (parts.above.mem_lt_next _ member)
  have contextNodup := (List.nodup_append.mp parts.nodup).2.1
  have leafHeld : Held (tree.heap.alloc ⟨⟨d, v⟩, none, none⟩)
      (.node .nil tree.heap.next ⟨d, v⟩ .nil) :=
    ⟨Store.cell_alloc_next _ _, trivial, trivial⟩
  have side : (if d < frame.data.data then Side.left else Side.right) = frame.side := by
    have head := follows.head
    cases hangs : frame.side with
    | left =>
        rw [hangs] at head
        rw [if_pos (against_eq_lt.mp head)]
    | right =>
        rw [hangs] at head
        rw [if_neg (not_lt_of_gt (against_eq_gt.mp head))]
  rcases grown.redirect leafHeld (by simpa [AddrTree.addresses] using ⟨fresh, contextNodup⟩) with
    ⟨after, redirected, afterShows, _⟩
  rcases Outcome.bind_eq_ok redirected with ⟨heap, assigned, rebuilt⟩
  simp only [Outcome.pure_eq_ok, Except.ok.injEq] at rebuilt
  subst after
  rw [side]
  exact ⟨heap, assigned, (shows_plug _ _).mpr afterShows⟩

theorem insert_spec (shows : Shows tree whole) (sorted : Sorted Pair.data whole) (d : T) (v : V)
    (fuel : Nat) (enough : whole.height < fuel) :
    ∃ after flag larger, insert fuel tree d v = .ok (after, flag) ∧
      Inserted tree whole d v after flag larger := by
  cases root : tree.root with
  | none =>
      have empty : whole = .nil := by
        cases whole with
        | nil => rfl
        | node => simp [shows.root_eq] at root
      subst whole
      have planted : Shows ⟨tree.heap.alloc ⟨⟨d, v⟩, none, none⟩, some tree.heap.next⟩
          (.node .nil tree.heap.next ⟨d, v⟩ .nil : Shape T V) :=
        ⟨rfl, ⟨Store.cell_alloc_next _ _, trivial, trivial⟩, by simp [AddrTree.addresses]⟩
      exact ⟨_, true, _, by simp [insert, root], inserted_leaf follows_nil sorted planted⟩
  | some first =>
      rcases insertPass_ends shows d fuel enough with ⟨result, ended, located⟩
      rw [root] at ended
      cases result with
      | found cur =>
          rcases located with ⟨left, address, pair, right, context, rfl, rfl, equal, _⟩
          exact ⟨tree, false, _, by simp [insert, root, ended],
            inserted_found shows sorted (against_eq_eq.mp equal)⟩
      | missing prev =>
          rcases located with ⟨context, rfl, rfl, follows⟩
          cases context with
          | nil => simp [shows.root_eq] at root
          | cons frame rest =>
              rcases hang_leaf shows follows v with ⟨heap, assigned, afterShows⟩
              have loaded := Store.load_some ((shows_plug _ _).mp shows).above.1
              exact ⟨_, true, _, by simp [insert, root, ended, loaded, assigned],
                inserted_leaf follows sorted afterShows⟩

end Insertion

/-! ## Deletion -/

section Deletion

variable {tree : BinarySearchTree T V} {whole : Shape T V} {d : T}

theorem remove_sorted (sorted : Sorted Pair.data whole) :
    Sorted Pair.data (remove d whole) ∧
      (∀ key, key ∈ keys Pair.data (remove d whole) ↔ key ∈ keys Pair.data whole ∧ key ≠ d) ∧
      (remove d whole).toList.length ≤ whole.toList.length := by
  by_cases stored : ∃ pair ∈ whole.toList, pair.data = d
  · rcases toList_remove sorted stored with ⟨first, pair, second, listed, rfl, result⟩
    have removed : (remove pair.data whole).toList.map Pair.data =
        (first ++ second).map Pair.data := by
      rcases result with ⟨_, removed⟩ | ⟨_, next, rest, rfl, removed⟩
      · rw [removed]
      · rw [removed]
        simp
    have length := congrArg List.length removed
    simp only [List.length_map, List.length_append] at length
    unfold Sorted at sorted ⊢
    rw [keys_eq, listed] at sorted
    simp only [keys_eq, removed, listed]
    simp only [List.map_append, List.map_cons, List.pairwise_append, List.pairwise_cons] at sorted
    refine ⟨?_, ?_, ?_⟩
    · rw [List.map_append, List.pairwise_append]
      exact ⟨sorted.1, sorted.2.1.2, fun key member other further =>
        sorted.2.2 key member other (List.mem_cons_of_mem _ further)⟩
    · intro key
      simp only [List.map_append, List.map_cons, List.mem_append, List.mem_cons]
      constructor
      · intro member
        rcases member with member | member
        · exact ⟨Or.inl member, ne_of_lt (sorted.2.2 key member _ List.mem_cons_self)⟩
        · exact ⟨Or.inr (Or.inr member), ne_of_gt (sorted.2.1.1 key member)⟩
      · intro both
        rcases both with ⟨member | member | member, different⟩
        · exact Or.inl member
        · exact absurd member different
        · exact Or.inr member
    · simp only [List.length_append, List.length_cons]
      omega
  · have absent : ∀ pair ∈ whole.toList, pair.data ≠ d :=
      fun pair member equal => stored ⟨pair, member, equal⟩
    rw [remove_absent absent]
    refine ⟨sorted, ?_, Nat.le_refl _⟩
    intro key
    rw [keys_eq]
    constructor
    · intro member
      rcases List.mem_map.mp member with ⟨pair, pairMember, rfl⟩
      exact ⟨member, absent pair pairMember⟩
    · exact fun both => both.1

/-- Erasing a key that is absent writes nothing. -/
theorem erase_absent (shows : Shows tree whole) (absent : ∀ pair ∈ whole.toList, pair.data ≠ d)
    (fuel : Nat) (enough : whole.height < fuel) : erase fuel tree d = .ok tree := by
  suffices walked : ∀ (focus : Shape T V) (context : Context (Pair T V)) (left : Nat),
      ShowsAt tree focus context → (∀ pair ∈ focus.toList, pair.data ≠ d) →
      focus.height < left → repeatLoop (deletePass fuel) left ⟨tree, context.link, .given d⟩ =
        .ok (tree, none) by
    have ended := walked whole [] fuel ((shows_plug whole []).mp shows) absent enough
    rw [Context.link] at ended
    simp [erase, ended]
  intro focus
  induction focus with
  | nil =>
      intro context left shows _ enough
      have followed := shows.follow
      cases left with
      | zero => omega
      | succ left =>
          apply repeatLoop_leave
          simp [deletePass, followed]
  | node lower address pair upper lowerInduction upperInduction =>
      intro context left shows absent enough
      have followed := shows.follow
      have loaded := Store.load_some shows.held.1
      simp only [AddrTree.toList_node, List.mem_append, List.mem_cons] at absent
      simp only [AddrTree.height] at enough
      cases left with
      | zero => omega
      | succ left =>
          rcases lt_trichotomy pair.data d with less | equal | greater
          · have below := (showsAt_fill upper ⟨.right, address, pair, lower⟩ context).mp shows
            have pass : deletePass fuel ⟨tree, context.link, .given d⟩ =
                .ok (.again ⟨tree, .child .right address, .given d⟩) := by
              simp [deletePass, followed, loaded, Argument.read, less]
            rw [repeatLoop_again left pass]
            exact upperInduction _ left below
              (fun other member => absent other (Or.inr (Or.inr member))) (by omega)
          · exact absurd equal (absent pair (Or.inr (Or.inl rfl)))
          · have below := (showsAt_fill lower ⟨.left, address, pair, upper⟩ context).mp shows
            have pass : deletePass fuel ⟨tree, context.link, .given d⟩ =
                .ok (.again ⟨tree, .child .left address, .given d⟩) := by
              simp [deletePass, followed, loaded, Argument.read, greater, not_lt_of_gt greater]
            rw [repeatLoop_again left pass]
            exact lowerInduction _ left below (fun other member => absent other (Or.inl member))
              (by omega)

end Deletion

/-! ## Runs -/

inductive Operation (T V : Type)
  | insert (d : T) (v : V)
  | erase (d : T)

def perform (fuel : Nat) (tree : BinarySearchTree T V) :
    Operation T V → Outcome (BinarySearchTree T V)
  | .insert d v => do
      let (tree, _) ← insert fuel tree d v
      pure tree
  | .erase d => erase fuel tree d

def run (fuel : Nat) : BinarySearchTree T V → List (Operation T V) →
    Outcome (BinarySearchTree T V)
  | tree, [] => .ok tree
  | tree, operation :: rest => do
      let tree ← perform fuel tree operation
      run fuel tree rest

/-- What an operation makes of a set of keys. -/
def Operation.apply (keys : Set T) : Operation T V → Set T
  | .insert d _ => {key | key = d ∨ key ∈ keys}
  | .erase d => {key | key ∈ keys ∧ key ≠ d}

/-- The tree is a search tree of the keys of a set, no larger than a bound. -/
structure Holds (tree : BinarySearchTree T V) (whole : Shape T V) (stored : Set T)
    (bound : Nat) : Prop where
  shows : Shows tree whole
  sorted : Sorted Pair.data whole
  mem_iff : ∀ key, key ∈ keys Pair.data whole ↔ key ∈ stored
  length_le : whole.toList.length ≤ bound

theorem holds_empty : Holds (.empty : BinarySearchTree T V) .nil ∅ 0 :=
  ⟨shows_empty, List.Pairwise.nil, fun key => by simp [keys, AddrTree.entries], Nat.le_refl _⟩

section Run

variable {tree : BinarySearchTree T V} {whole : Shape T V} {stored : Set T} {bound fuel : Nat}

theorem Holds.height_lt (holds : Holds tree whole stored bound) (enough : bound < fuel) :
    whole.height < fuel := by
  have height := whole.height_le_length
  have length := holds.length_le
  omega

/-- One operation. -/
theorem Holds.perform (holds : Holds tree whole stored bound) (operation : Operation T V)
    (enough : bound < fuel) :
    ∃ after larger, BinarySearchTree.perform fuel tree operation = .ok after ∧
      Holds after larger (operation.apply stored) (bound + 1) := by
  have length := holds.length_le
  cases operation with
  | insert d v =>
      rcases insert_spec holds.shows holds.sorted d v fuel (holds.height_lt enough) with
        ⟨after, flag, larger, returned, result⟩
      refine ⟨after, larger, by simp [BinarySearchTree.perform, returned], result.shows,
        result.sorted, ?_, by have grown := result.length_le; omega⟩
      intro key
      rw [result.mem_iff, holds.mem_iff]
      rfl
  | erase d =>
      rcases erase_shows holds.shows d fuel (holds.height_lt enough) with
        ⟨after, returned, shows⟩
      have removed := remove_sorted (d := d) holds.sorted
      refine ⟨after, remove d whole, returned, shows, removed.1, ?_,
        by have smaller := removed.2.2; omega⟩
      intro key
      rw [removed.2.1, holds.mem_iff]
      rfl

theorem Holds.run (holds : Holds tree whole stored bound) (operations : List (Operation T V))
    (enough : bound + operations.length < fuel) :
    ∃ after larger, BinarySearchTree.run fuel tree operations = .ok after ∧
      Holds after larger (operations.foldl Operation.apply stored)
        (bound + operations.length) := by
  induction operations generalizing tree whole stored bound with
  | nil => exact ⟨tree, whole, rfl, holds⟩
  | cons operation rest induction =>
      simp only [List.length_cons] at enough
      rcases holds.perform operation (show bound < fuel by omega) with
        ⟨next, grown, performed, nextHolds⟩
      rcases induction nextHolds (by omega) with ⟨after, final, finished, finalHolds⟩
      refine ⟨after, final, by simp [BinarySearchTree.run, performed, finished],
        finalHolds.shows, finalHolds.sorted, finalHolds.mem_iff, ?_⟩
      have length := finalHolds.length_le
      simp only [List.length_cons]
      omega

end Run

/-- After every run of operations the in-order keys are strictly increasing and are
the set that the operations describe; and the next call of each operation ends and
treats the keys as that set. -/
theorem run_is_set (operations : List (Operation T V)) :
    ∃ enough, ∀ fuel, enough ≤ fuel → ∃ tree whole,
      run fuel .empty operations = .ok tree ∧ Shows tree whole ∧
      (keys Pair.data whole).Pairwise (· < ·) ∧
      (∀ key, key ∈ keys Pair.data whole ↔ key ∈ operations.foldl Operation.apply ∅) ∧
      (∀ d v, ∃ after flag larger, insert fuel tree d v = .ok (after, flag) ∧
        Shows after larger ∧ (keys Pair.data larger).Pairwise (· < ·) ∧
        (flag = true ↔ d ∉ keys Pair.data whole) ∧
        ∀ key, key ∈ keys Pair.data larger ↔ key = d ∨ key ∈ keys Pair.data whole) ∧
      (∀ d, ∃ after smaller, erase fuel tree d = .ok after ∧ Shows after smaller ∧
        (keys Pair.data smaller).Pairwise (· < ·) ∧
        (∀ key, key ∈ keys Pair.data smaller ↔ key ∈ keys Pair.data whole ∧ key ≠ d) ∧
        (d ∉ keys Pair.data whole → after = tree)) ∧
      ∀ d, ∃ pointer, find fuel tree d = .ok pointer ∧
        (pointer ≠ none ↔ d ∈ keys Pair.data whole) ∧
        ∀ address, pointer = some address →
          ∃ node, tree.heap.cell address = some node ∧ node.data.data = d := by
  refine ⟨operations.length + 1, ?_⟩
  intro fuel enough
  rcases holds_empty.run operations (show 0 + operations.length < fuel by omega) with
    ⟨tree, whole, returned, holds⟩
  have height : whole.height < fuel := holds.height_lt (by omega)
  have memKeys : ∀ d, d ∈ keys Pair.data whole ↔ ∃ pair ∈ whole.toList, pair.data = d := by
    intro d
    rw [keys_eq, List.mem_map]
  refine ⟨tree, whole, returned, holds.shows, holds.sorted, holds.mem_iff, ?_, ?_, ?_⟩
  · intro d v
    rcases insert_spec holds.shows holds.sorted d v fuel height with
      ⟨after, flag, larger, called, result⟩
    exact ⟨after, flag, larger, called, result.shows, result.sorted, result.flag_iff,
      result.mem_iff⟩
  · intro d
    rcases erase_shows holds.shows d fuel height with ⟨after, called, shows⟩
    have removed := remove_sorted (d := d) holds.sorted
    refine ⟨after, remove d whole, called, shows, removed.1, removed.2.1, ?_⟩
    intro absent
    have unchanged := erase_absent holds.shows
      (fun pair member equal => absent ((memKeys d).mpr ⟨pair, member, equal⟩)) fuel height
    rw [called] at unchanged
    exact Except.ok.inj unchanged
  · intro d
    refine ⟨locate d whole, find_eq_locate holds.shows fuel height, ?_, ?_⟩
    · rw [memKeys]
      cases located : locate d whole with
      | none =>
          have absent := locate_eq_none holds.sorted located
          simpa using absent
      | some address =>
          rcases locate_eq_some located with ⟨pair, member, keyEq⟩
          simp only [ne_eq, reduceCtorEq, not_false_eq_true, true_iff]
          exact ⟨pair, List.mem_map.mpr ⟨_, member, rfl⟩, keyEq⟩
    · intro address located
      rcases locate_eq_some located with ⟨pair, member, rfl⟩
      rcases holds.shows.held.found member with ⟨node, found, dataEq⟩
      exact ⟨node, found, congrArg Pair.data dataEq⟩

/-! ## Values -/

/-- The key of a successor moves without its value. -/
theorem erase_mixes_values :
    (do
      let tree ← run 10 (.empty : BinarySearchTree Nat Nat)
        [.insert 2 20, .insert 1 10, .insert 3 30]
      let before ← findValue 10 tree 3
      let tree ← erase 10 tree 2
      let after ← findValue 10 tree 3
      pure (before, after)) = .ok (some 30, some 20) :=
  rfl

/-- The pair with the next larger key than `d`. -/
structure Successor (d : T) (next : Pair T V) (whole : Shape T V) : Prop where
  member : next ∈ whole.toList
  larger : d < next.data
  least : ∀ other ∈ whole.toList, d < other.data → next.data ≤ other.data

/-- The node with key `d`, if it has two children, holds the same value as its
successor. -/
def Harmless (d : T) (whole : Shape T V) : Prop :=
  Branching d whole → ∀ v next, ⟨d, v⟩ ∈ whole.toList → Successor d next whole →
    next.value = v

section Values

variable {whole : Shape T V}

theorem successor_of_listed (sorted : Sorted Pair.data whole) {first rest : List (Pair T V)}
    {pair next : Pair T V} (listed : whole.toList = first ++ pair :: next :: rest) :
    Successor pair.data next whole := by
  unfold Sorted at sorted
  rw [keys_eq, listed, List.pairwise_map] at sorted
  simp only [List.pairwise_append, List.pairwise_cons, List.mem_cons] at sorted
  rcases sorted with ⟨_, ⟨above, nextAbove, _⟩, across⟩
  refine ⟨by simp [listed], above next (Or.inl rfl), ?_⟩
  intro other member larger
  rw [listed, List.mem_append, List.mem_cons, List.mem_cons] at member
  rcases member with member | rfl | rfl | member
  · exact absurd (across other member pair (Or.inl rfl)) (not_lt_of_gt larger)
  · exact absurd larger (lt_irrefl _)
  · exact le_refl _
  · exact le_of_lt (nextAbove other member)

/-- Deletion keeps the pairs with other keys exactly if it is harmless. -/
theorem remove_keeps_pairs_iff (sorted : Sorted Pair.data whole) (d : T) :
    (∀ k v, k ≠ d → ⟨k, v⟩ ∈ whole.toList → ⟨k, v⟩ ∈ (remove d whole).toList) ↔
      Harmless d whole := by
  have removedSorted := (remove_sorted (d := d) sorted).1
  by_cases stored : ∃ pair ∈ whole.toList, pair.data = d
  · rcases toList_remove sorted stored with ⟨first, pair, second, listed, rfl, result⟩
    rcases result with ⟨single, removed⟩ | ⟨double, next, rest, rfl, removed⟩
    · refine iff_of_true ?_ fun double => absurd double single
      intro k v different member
      rw [listed, List.mem_append, List.mem_cons] at member
      rw [removed, List.mem_append]
      rcases member with member | rfl | member
      · exact Or.inl member
      · exact absurd rfl different
      · exact Or.inr member
    · have successor := successor_of_listed sorted listed
      have pairMember : pair ∈ whole.toList := by simp [listed]
      constructor
      · intro keeps _ v other member otherSuccessor
        have pairEq := pair_unique sorted pairMember member rfl
        have otherEq := pair_unique sorted otherSuccessor.member successor.member
          (le_antisymm (otherSuccessor.least next successor.member successor.larger)
            (successor.least other otherSuccessor.member otherSuccessor.larger))
        have kept := keeps next.data next.value (ne_of_gt successor.larger) successor.member
        have moved : ⟨next.data, pair.value⟩ ∈ (remove pair.data whole).toList := by
          simp [removed]
        have same := pair_unique removedSorted kept moved rfl
        rw [otherEq, congrArg Pair.value same, pairEq]
      · intro harmless k v different member
        have same := harmless double pair.value next pairMember successor
        rw [listed, List.mem_append, List.mem_cons, List.mem_cons] at member
        rw [removed, List.mem_append, List.mem_cons, ← same]
        rcases member with member | rfl | member
        · exact Or.inl member
        · exact absurd rfl different
        · exact Or.inr member
  · have absent : ∀ pair ∈ whole.toList, pair.data ≠ d :=
      fun pair member equal => stored ⟨pair, member, equal⟩
    rw [remove_absent absent]
    refine iff_of_true (fun k v different member => member) ?_
    exact fun _ v _ member _ => absurd rfl (absent _ member)

end Values

/-- In every state that operations reach, `erase(d)` leaves the value found under
every other key unchanged if and only if it is harmless: the node with key `d` has
at most one child, or its successor holds the same value. -/
theorem erase_keeps_values_iff (operations : List (Operation T V)) :
    ∃ enough, ∀ fuel, enough ≤ fuel → ∃ tree whole,
      run fuel .empty operations = .ok tree ∧ Shows tree whole ∧ Sorted Pair.data whole ∧
      ∀ d, ∃ after, erase fuel tree d = .ok after ∧
        ((∀ k v, k ≠ d → findValue fuel tree k = .ok (some v) →
          findValue fuel after k = .ok (some v)) ↔ Harmless d whole) := by
  refine ⟨operations.length + 1, ?_⟩
  intro fuel enough
  rcases holds_empty.run operations (show 0 + operations.length < fuel by omega) with
    ⟨tree, whole, returned, holds⟩
  have height : whole.height < fuel := holds.height_lt (by omega)
  refine ⟨tree, whole, returned, holds.shows, holds.sorted, ?_⟩
  intro d
  rcases erase_shows holds.shows d fuel height with ⟨after, called, shows⟩
  have removed := remove_sorted (d := d) holds.sorted
  have length := holds.length_le
  have smaller : (remove d whole).height < fuel := by
    have bound := (remove d whole).height_le_length
    have shorter := removed.2.2
    omega
  refine ⟨after, called, ?_⟩
  rw [← remove_keeps_pairs_iff holds.sorted]
  constructor
  · intro keeps k v different member
    exact (findValue_iff shows removed.1 fuel smaller v).mp (keeps k v different
      ((findValue_iff holds.shows holds.sorted fuel height v).mpr member))
  · intro keeps k v different found
    exact (findValue_iff shows removed.1 fuel smaller v).mpr (keeps k v different
      ((findValue_iff holds.shows holds.sorted fuel height v).mp found))

end DataStructAlgorithm.DataStruct.BinarySearchTree
