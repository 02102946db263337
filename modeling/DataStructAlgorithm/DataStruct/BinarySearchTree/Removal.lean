import DataStructAlgorithm.DataStruct.BinarySearchTree.BinarySearchTree

/-! # What `erase` does to a tree

`remove` is the deletion as a function on shapes. `erase` computes it on the
nodes in memory, and on a search tree it takes out one key. -/

namespace DataStructAlgorithm.DataStruct.BinarySearchTree

open Foundation ForkTree

variable {T V : Type}

abbrev Shape (T V : Type) := AddrTree (Pair T V)

/-! ## The parts of `_delete` -/

section Parts

variable {heap : Store (Node T V)} {tree : BinarySearchTree T V} {context : Context (Pair T V)}

/-- The loop of `findMin` follows the left links to the first node. -/
theorem findMinPass_ends {shape : Shape T V} (held : Held heap shape) (notNil : shape ≠ .nil)
    (fuel : Nat) (enough : shape.height < fuel) :
    repeatLoop (findMinPass heap) fuel shape.pointer =
      .ok (shape.entries.head?.map Prod.fst) := by
  induction shape generalizing fuel with
  | nil => exact absurd rfl notNil
  | node left address pair right leftInduction _ =>
      rcases held with ⟨found, leftHeld, _⟩
      have loaded := Store.load_some found
      simp only [AddrTree.height] at enough
      cases fuel with
      | zero => omega
      | succ fuel =>
          cases left with
          | nil =>
              apply repeatLoop_leave
              simp [findMinPass, loaded, AddrTree.entries]
          | node inner lower lowerPair outer =>
              have pass : findMinPass heap (some address) = .ok (.again (some lower)) := by
                simp [findMinPass, loaded]
              have below := leftInduction leftHeld (by simp) fuel (by omega)
              rw [AddrTree.pointer_node, repeatLoop_again fuel pass, AddrTree.entries]
              simpa [AddrTree.entries, List.head?_append] using below

theorem findMin_spec {shape : Shape T V} (held : Held heap shape) (notNil : shape ≠ .nil)
    (fuel : Nat) (enough : shape.height < fuel) :
    findMin fuel heap shape.pointer = .ok (shape.entries.head?.map Prod.fst) := by
  have ended := findMinPass_ends held notNil fuel enough
  cases shape with
  | nil => exact absurd rfl notNil
  | node left address pair right => exact ended

/-- A node without a child on one side gives way to its other child. -/
theorem unlink_spec (side : Side) {far : Shape T V} {address : Nat} {pair : Pair T V}
    (shows : ShowsAt tree (.oriented side .nil address pair far) context) :
    ∃ after, unlink tree context.link far.pointer (some address) =
        .ok (.leave (after, far.pointer)) ∧ ShowsAt after far context := by
  have inside := List.nodup_append.mp shows.nodup
  have apart := (AddrTree.nodup_oriented ..).mp inside.1
  rcases (Held.oriented_iff ..).mp shows.held with ⟨found, _, farHeld⟩
  have nodup : (far.addresses ++ Context.addresses context).Nodup := by
    refine List.nodup_append.mpr ⟨apart.2.2.2.1, inside.2.1, ?_⟩
    intro queried member
    exact inside.2.2 queried ((AddrTree.mem_oriented ..).mpr (Or.inr (Or.inr member)))
  have elsewhere : address ∉ Context.addresses context := fun member =>
    inside.2.2 address ((AddrTree.mem_oriented ..).mpr (Or.inl rfl)) address member rfl
  rcases shows.redirect farHeld nodup with ⟨after, redirected, afterShows, same⟩
  have stillFound := (same address elsewhere).trans found
  have freed := afterShows.free apart.2.1 elsewhere
  refine ⟨_, ?_, freed⟩
  have followed := freed.follow
  simp [unlink, redirected, Store.release_some stillFound, followed]

/-- The first key of a tree, or `d` if there is none. -/
def leastKey (d : T) (tree : Shape T V) : T :=
  match tree.entries.head? with
  | none => d
  | some entry => entry.2.data

/-- The argument `d` of a call stands for a key. -/
def Reads (call : Call T V) (d : T) : Prop :=
  call.d.read call.tree.heap = .ok d

/-- Two children: the call goes on at the right child, with the successor's key. -/
theorem replace_spec {left right : Shape T V} {address : Nat} {pair : Pair T V}
    (shows : ShowsAt tree (.node left address pair right) context) (rightNode : right ≠ .nil)
    (fuel : Nat) (enough : right.height < fuel) :
    ∃ next, replace fuel tree address right.pointer = .ok (.again next) ∧
      ShowsAt next.tree right
        (⟨.right, address, { pair with data := leastKey pair.data right }, left⟩ :: context) ∧
      next.cur = .child .right address ∧ Reads next (leastKey pair.data right) := by
  rcases shows.held with ⟨found, _, rightHeld⟩
  have minimum := findMin_spec rightHeld rightNode fuel enough
  cases entries : right.entries with
  | nil =>
      cases right with
      | nil => exact absurd rfl rightNode
      | node => simp [AddrTree.entries] at entries
  | cons entry rest =>
      have member : entry ∈ right.entries := by simp [entries]
      rcases rightHeld.found member with ⟨successor, foundMin, successorEq⟩
      have least : leastKey pair.data right = entry.2.data := by simp [leastKey, entries]
      have written := shows.updateData fun pair => { pair with data := entry.2.data }
      have refocused := (showsAt_fill right
        ⟨.right, address, { pair with data := entry.2.data }, left⟩ context).mp written
      have different : entry.1 ≠ address := by
        intro equal
        have nodup := (List.nodup_append.mp shows.nodup).1
        have inRight : entry.1 ∈ right.addresses := by
          rw [← AddrTree.map_fst_entries]
          exact List.mem_map.mpr ⟨entry, member, rfl⟩
        rw [equal] at inRight
        simp only [AddrTree.addresses, List.nodup_append, List.nodup_cons] at nodup
        exact nodup.2.1.1 inRight
      rw [entries, List.head?_cons, Option.map_some] at minimum
      rw [least]
      refine ⟨⟨_, .child .right address, .dataOf (some entry.1)⟩, ?_, refocused, rfl, ?_⟩
      · simp [replace, minimum, Store.load_some foundMin, successorEq, Store.assign_some _ found]
      · simp [Reads, Argument.read, Store.load, Store.cell_modify_of_ne _ _ different, foundMin,
          successorEq]

/-- The keys of a tree are those of its pairs. -/
theorem keys_eq (tree : Shape T V) : keys Pair.data tree = tree.toList.map Pair.data := by
  simp [keys, AddrTree.toList]

end Parts

/-! ## Deletion as a function -/

variable [LinearOrder T]

/-- Delete the node with key `d`. -/
def remove (d : T) : Shape T V → Shape T V
  | .nil => .nil
  | .node left address pair right =>
      if pair.data < d then .node left address pair (remove d right)
      else if d < pair.data then .node (remove d left) address pair right
      else match left.pointer, right.pointer with
        | none, _ => right
        | some _, none => left
        | some _, some _ =>
            .node left address { pair with data := leastKey d right }
              (remove (leastKey d right) right)

/-- The node with key `d` has two children. -/
def Branching (d : T) : Shape T V → Prop
  | .nil => False
  | .node left _ pair right =>
      if pair.data < d then Branching d right
      else if d < pair.data then Branching d left
      else left ≠ .nil ∧ right ≠ .nil

section Remove

variable {left right : Shape T V} {address : Nat} {pair : Pair T V} {d : T}

theorem remove_right (less : pair.data < d) :
    remove d (.node left address pair right) = .node left address pair (remove d right) := by
  simp [remove, less]

theorem remove_left (less : d < pair.data) :
    remove d (.node left address pair right) = .node (remove d left) address pair right := by
  simp [remove, less, not_lt_of_gt less]

theorem remove_no_left :
    remove pair.data (.node .nil address pair right) = right := by
  simp [remove]

theorem remove_no_right :
    remove pair.data (.node left address pair .nil) = left := by
  cases left <;> simp [remove]

theorem remove_both (leftNode : left ≠ .nil) (rightNode : right ≠ .nil) :
    remove pair.data (.node left address pair right) =
      .node left address { pair with data := leastKey pair.data right }
        (remove (leastKey pair.data right) right) := by
  cases left with
  | nil => exact absurd rfl leftNode
  | node =>
      cases right with
      | nil => exact absurd rfl rightNode
      | node => simp [remove]

end Remove

/-! ## The pairs that are left -/

section Pairs

variable {whole : Shape T V} {d : T}

/-- In a search tree the keys of the left subtree are smaller than the root's and
those of the right subtree are larger. -/
theorem sorted_node {left right : Shape T V} {address : Nat} {pair : Pair T V} :
    Sorted Pair.data (.node left address pair right) ↔
      Sorted Pair.data left ∧ Sorted Pair.data right ∧
        (∀ other ∈ left.toList, other.data < pair.data) ∧
        (∀ other ∈ right.toList, pair.data < other.data) ∧
        ∀ other ∈ left.toList, ∀ another ∈ right.toList, other.data < another.data := by
  simp only [Sorted, keys_eq, AddrTree.toList_node, List.map_append, List.map_cons,
    List.pairwise_append, List.pairwise_cons, List.mem_map, List.mem_cons]
  constructor
  · intro sorted
    rcases sorted with ⟨leftSorted, ⟨above, rightSorted⟩, below⟩
    refine ⟨leftSorted, rightSorted, ?_, ?_, ?_⟩
    · exact fun other member => below _ ⟨other, member, rfl⟩ _ (Or.inl rfl)
    · exact fun other member => above _ ⟨other, member, rfl⟩
    · exact fun other member another further =>
        below _ ⟨other, member, rfl⟩ _ (Or.inr ⟨another, further, rfl⟩)
  · intro parts
    rcases parts with ⟨leftSorted, rightSorted, below, above, across⟩
    refine ⟨leftSorted, ⟨?_, rightSorted⟩, ?_⟩
    · intro key member
      rcases member with ⟨other, member, rfl⟩
      exact above other member
    · intro key member another further
      rcases member with ⟨other, member, rfl⟩
      rcases further with rfl | ⟨later, further, rfl⟩
      · exact below other member
      · exact across other member later further

/-- A key that is not stored is not deleted. -/
theorem remove_absent (absent : ∀ pair ∈ whole.toList, pair.data ≠ d) :
    remove d whole = whole := by
  induction whole with
  | nil => rfl
  | node left address pair right leftInduction rightInduction =>
      simp only [AddrTree.toList_node, List.mem_append, List.mem_cons] at absent
      rcases lt_trichotomy pair.data d with less | equal | greater
      · rw [remove_right less, rightInduction fun other member =>
          absent other (Or.inr (Or.inr member))]
      · exact absurd equal (absent pair (Or.inr (Or.inl rfl)))
      · rw [remove_left greater, leftInduction fun other member => absent other (Or.inl member)]

/-- Deleting the first key takes out the first pair. -/
theorem remove_first (sorted : Sorted Pair.data whole) {pair : Pair T V}
    {rest : List (Pair T V)} (listed : whole.toList = pair :: rest) :
    (remove pair.data whole).toList = rest := by
  induction whole generalizing rest with
  | nil => cases listed
  | node left address here right leftInduction _ =>
      rcases sorted_node.mp sorted with ⟨leftSorted, _, below, _⟩
      rw [AddrTree.toList_node] at listed
      cases leftList : left.toList with
      | nil =>
          cases left with
          | node _ _ _ _ => simp at leftList
          | nil =>
              rw [leftList, List.nil_append, List.cons.injEq] at listed
              rw [← listed.1, remove_no_left, listed.2]
      | cons first others =>
          rw [leftList, List.cons_append, List.cons.injEq] at listed
          rcases listed with ⟨rfl, rfl⟩
          have less := below first (by simp [leftList])
          rw [remove_left less, AddrTree.toList_node, leftInduction leftSorted leftList]

/-- Deleting a stored key takes out its pair; but if its node has two children, it
is the key of the pair and the value of the next one that go. -/
theorem toList_remove (sorted : Sorted Pair.data whole)
    (stored : ∃ pair ∈ whole.toList, pair.data = d) :
    ∃ first pair second, whole.toList = first ++ pair :: second ∧ pair.data = d ∧
      ((¬Branching d whole ∧ (remove d whole).toList = first ++ second) ∨
        (Branching d whole ∧ ∃ next rest, second = next :: rest ∧
          (remove d whole).toList = first ++ ⟨next.data, pair.value⟩ :: rest)) := by
  induction whole with
  | nil => simp at stored
  | node left address here right leftInduction rightInduction =>
      rcases sorted_node.mp sorted with ⟨leftSorted, rightSorted, below, above, _⟩
      rcases stored with ⟨given, member, keyEq⟩
      rw [AddrTree.toList_node, List.mem_append, List.mem_cons] at member
      rcases lt_trichotomy here.data d with less | equal | greater
      · have inRight : given ∈ right.toList := by
          rcases member with inLeft | rfl | inRight
          · exact absurd (below given inLeft) (not_lt_of_gt (keyEq ▸ less))
          · exact absurd keyEq (ne_of_lt less)
          · exact inRight
        rcases rightInduction rightSorted ⟨given, inRight, keyEq⟩ with
          ⟨first, pair, second, listed, pairKey, result⟩
        refine ⟨left.toList ++ here :: first, pair, second, by simp [listed], pairKey, ?_⟩
        rw [remove_right less]
        simp only [Branching, less, if_true, AddrTree.toList_node]
        rcases result with ⟨single, removed⟩ | ⟨double, next, rest, secondEq, removed⟩
        · exact Or.inl ⟨single, by simp [removed]⟩
        · exact Or.inr ⟨double, next, rest, secondEq, by simp [removed]⟩
      · subst equal
        refine ⟨left.toList, here, right.toList, AddrTree.toList_node .., rfl, ?_⟩
        simp only [Branching, lt_irrefl, if_false]
        by_cases leftNil : left = .nil
        · subst left
          exact Or.inl ⟨fun both => both.1 rfl, by rw [remove_no_left]; rfl⟩
        · by_cases rightNil : right = .nil
          · subst right
            exact Or.inl ⟨fun both => both.2 rfl, by simp [remove_no_right]⟩
          · refine Or.inr ⟨⟨leftNil, rightNil⟩, ?_⟩
            cases rightList : right.toList with
            | nil =>
                cases right with
                | nil => exact absurd rfl rightNil
                | node _ _ _ _ => simp at rightList
            | cons next rest =>
                have least : leastKey here.data right = next.data := by
                  unfold AddrTree.toList at rightList
                  rcases List.map_eq_cons_iff.mp rightList with ⟨entry, _, entriesEq, rfl, _⟩
                  simp [leastKey, entriesEq]
                refine ⟨next, rest, rfl, ?_⟩
                rw [remove_both leftNil rightNil, least, AddrTree.toList_node,
                  remove_first rightSorted rightList]
      · have inLeft : given ∈ left.toList := by
          rcases member with inLeft | rfl | inRight
          · exact inLeft
          · exact absurd keyEq (ne_of_gt greater)
          · exact absurd (above given inRight) (not_lt_of_gt (keyEq ▸ greater))
        rcases leftInduction leftSorted ⟨given, inLeft, keyEq⟩ with
          ⟨first, pair, second, listed, pairKey, result⟩
        refine ⟨first, pair, second ++ here :: right.toList, by simp [listed], pairKey, ?_⟩
        rw [remove_left greater]
        simp only [Branching, greater, not_lt_of_gt greater, if_true, if_false,
          AddrTree.toList_node]
        rcases result with ⟨single, removed⟩ | ⟨double, next, rest, secondEq, removed⟩
        · exact Or.inl ⟨single, by simp [removed]⟩
        · exact Or.inr ⟨double, next, rest ++ here :: right.toList, by simp [secondEq],
            by simp [removed]⟩

end Pairs

/-! ## Deletion in memory -/

section Memory

variable {tree : BinarySearchTree T V} {context : Context (Pair T V)} {d : T}

/-- What a call of `_delete` makes of the subtree it is called on: a further call
on a smaller subtree, or the result. -/
def Proceeds (call : Call T V) (d : T) (fuel : Nat) (focus : Shape T V)
    (context : Context (Pair T V)) : Prop :=
  (∃ next key below lower, deletePass fuel call = .ok (.again next) ∧
    ShowsAt next.tree below lower ∧ next.cur = lower.link ∧ Reads next key ∧
    Context.plug (remove key below) lower = Context.plug (remove d focus) context ∧
    below.height < focus.height) ∨
  (∃ after returned, deletePass fuel call = .ok (.leave (after, returned)) ∧
    Shows after (Context.plug (remove d focus) context))

/-- One call of `_delete`, whatever it does. -/
theorem deletePass_proceeds {call : Call T V} {focus : Shape T V}
    (shows : ShowsAt call.tree focus context) (atLink : call.cur = context.link)
    (reads : Reads call d) (fuel : Nat) (enough : focus.height < fuel) :
    Proceeds call d fuel focus context := by
  have followed := shows.follow
  rw [← atLink] at followed
  cases focus with
  | nil =>
      refine Or.inr ⟨call.tree, none, ?_, (shows_plug _ _).mpr shows⟩
      simp [deletePass, followed]
  | node left address pair right =>
      have loaded := Store.load_some shows.held.1
      have reading : call.d.read call.tree.heap = .ok d := reads
      simp only [AddrTree.height] at enough
      rcases lt_trichotomy pair.data d with less | equal | greater
      · have lower := (showsAt_fill right ⟨.right, address, pair, left⟩ context).mp shows
        refine Or.inl ⟨{ call with cur := .child .right address }, d, right, _, ?_, lower, rfl,
          reads, ?_, ?_⟩
        · simp [deletePass, followed, loaded, reading, less]
        · rw [remove_right less]
          rfl
        · simp only [AddrTree.height]
          omega
      · subst d
        by_cases noLeft : left = .nil
        · subst left
          rcases unlink_spec .left shows with ⟨after, unlinked, afterShows⟩
          refine Or.inr ⟨after, right.pointer, ?_, ?_⟩
          · rw [← atLink] at unlinked
            simpa [deletePass, followed, loaded, reading, lt_irrefl] using unlinked
          · rw [remove_no_left]
            exact (shows_plug _ _).mpr afterShows
        · by_cases noRight : right = .nil
          · subst right
            rcases unlink_spec .right shows with ⟨after, unlinked, afterShows⟩
            refine Or.inr ⟨after, left.pointer, ?_, ?_⟩
            · rw [← atLink] at unlinked
              cases left with
              | nil => exact absurd rfl noLeft
              | node => simpa [deletePass, followed, loaded, reading, lt_irrefl] using unlinked
            · rw [remove_no_right]
              exact (shows_plug _ _).mpr afterShows
          · rcases replace_spec shows noRight fuel (by omega) with
              ⟨next, replaced, lower, nextCur, nextReads⟩
            refine Or.inl ⟨next, _, right, _, ?_, lower, nextCur, nextReads, ?_, ?_⟩
            · cases left with
              | nil => exact absurd rfl noLeft
              | node =>
                  cases right with
                  | nil => exact absurd rfl noRight
                  | node => simpa [deletePass, followed, loaded, reading, lt_irrefl] using replaced
            · rw [remove_both noLeft noRight]
              rfl
            · simp only [AddrTree.height]
              omega
      · have lower := (showsAt_fill left ⟨.left, address, pair, right⟩ context).mp shows
        refine Or.inl ⟨{ call with cur := .child .left address }, d, left, _, ?_, lower, rfl,
          reads, ?_, ?_⟩
        · simp [deletePass, followed, loaded, reading, greater, not_lt_of_gt greater]
        · rw [remove_left greater]
          rfl
        · simp only [AddrTree.height]
          omega

/-- `erase` computes `remove`. -/
theorem erase_shows {whole : Shape T V} (shows : Shows tree whole) (d : T) (fuel : Nat)
    (enough : whole.height < fuel) :
    ∃ after, erase fuel tree d = .ok after ∧ Shows after (remove d whole) := by
  have looped : ∃ result, repeatLoop (deletePass fuel) fuel ⟨tree, .root, .given d⟩ =
      .ok result ∧ Shows result.1 (remove d whole) := by
    refine repeatLoop_total
      (fun bound (call : Call T V) => ∃ key focus context, ShowsAt call.tree focus context ∧
        call.cur = context.link ∧ Reads call key ∧
        Context.plug (remove key focus) context = remove d whole ∧
        focus.height = bound ∧ focus.height < fuel)
      (fun result : BinarySearchTree T V × Ptr => Shows result.1 (remove d whole))
      ?_ fuel whole.height _
      ⟨d, whole, [], (shows_plug whole []).mp shows, rfl, rfl, rfl, rfl, enough⟩ enough
    intro bound call holds
    rcases holds with ⟨key, focus, context, shows, atLink, reads, target, rfl, small⟩
    rcases deletePass_proceeds shows atLink reads fuel small with
      ⟨next, nextKey, below, lower, pass, nextShows, nextLink, nextReads, same, less⟩ |
      ⟨after, returned, pass, afterShows⟩
    · exact Or.inl ⟨next, below.height, pass, less, nextKey, below, lower, nextShows, nextLink,
        nextReads, same.trans target, rfl, by omega⟩
    · exact Or.inr ⟨(after, returned), pass, target ▸ afterShows⟩
  rcases looped with ⟨⟨after, returned⟩, ended, afterShows⟩
  exact ⟨after, by simp [erase, ended], afterShows⟩

end Memory

end DataStructAlgorithm.DataStruct.BinarySearchTree
