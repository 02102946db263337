import DataStructAlgorithm.FileComPress.Codes
import DataStructAlgorithm.FileComPress.Packing

/-! # Decoding

The decoding loop follows the bits of the file from the root to a leaf, once for every
byte. -/

namespace DataStructAlgorithm.FileComPress.FileCompress

open Foundation

/-! ## The next bit -/

section Refill

variable (state : Decoding)

@[simp] theorem cur_refill : (refill state).cur = state.cur := by
  rw [refill]
  split <;> rfl

@[simp] theorem totalNum_refill : (refill state).totalNum = state.totalNum := by
  rw [refill]
  split <;> rfl

@[simp] theorem output_refill : (refill state).output = state.output := by
  rw [refill]
  split <;> rfl

theorem pos_refill {state : Decoding} (used : state.pos < 0) : (refill state).pos = 7 := by
  rw [refill, if_pos used]

end Refill

/-- The bits that have not been used. -/
def upcoming (state : Decoding) : List Bool :=
  ahead state.value state.pos.toNat state.file.rest

/-- Some bits come next. -/
structure Available (state : Decoding) (ahead : List Bool) : Prop where
  nonneg : 0 ≤ state.pos
  within : state.pos ≤ 7
  isPrefix : ahead <+: upcoming state

/-- The loop takes the bit at the position, and reads a byte after the last bit. -/
theorem Available.next {state : Decoding} {bit : Bool} {ahead : List Bool}
    (available : Available state (bit :: ahead)) (after : Decoding) (value : after.value = state.value)
    (pos : after.pos = state.pos - 1) (file : after.file = state.file) :
    bitAt state.value state.pos.toNat = bit ∧ Available (refill after) ahead := by
  rcases available with ⟨nonneg, within, isPrefix⟩
  rw [upcoming, ahead_eq (by omega), List.cons_prefix_cons] at isPrefix
  refine ⟨isPrefix.1.symm, ?_⟩
  by_cases used : state.pos = 0
  · have negative : after.pos < 0 := by omega
    have seven := pos_refill negative
    rw [if_pos (by omega)] at isPrefix
    cases ended : state.file.rest with
    | nil =>
        rw [ended] at isPrefix
        rw [List.prefix_nil.mp isPrefix.2]
        exact ⟨by omega, by omega, List.nil_prefix⟩
    | cons byte rest =>
        rcases InFile.fgetc_of_cons ended with ⟨last, got, lastAhead, _⟩
        refine ⟨by omega, by omega, ?_⟩
        rw [ended] at isPrefix
        rw [upcoming, seven, refill, if_pos negative, file, got]
        simp only [toChar_toNat, lastAhead]
        rw [show (7 : Int).toNat = 7 from rfl, ahead_seven]
        exact isPrefix.2
  · have positive : ¬after.pos < 0 := by omega
    rw [if_neg (by omega)] at isPrefix
    rw [refill, if_neg positive]
    refine ⟨by omega, by omega, ?_⟩
    rw [upcoming, value, pos, file, show (state.pos - 1).toNat = state.pos.toNat - 1 by omega]
    exact isPrefix.2

/-! ## One symbol -/

variable {nodes : Store (HuffmanNode FileInformation)} (root : Ptr) {parent : Ptr}

/-- The state after a step down to an inner node. -/
def steppedDown (state : Decoding) (child : Ptr) : Decoding :=
  refill { state with cur := child, pos := state.pos - 1 }

/-- The state after a leaf has been reached. -/
def afterSymbol (state : Decoding) (byte : Byte) : Decoding :=
  refill { state with
    cur := root, totalNum := state.totalNum - 1, pos := state.pos - 1,
    output := state.output ++ [byte] }

/-- A pass that goes down to a leaf. -/
def symbolPass (state : Decoding) (byte : Byte) : Outcome (Pass Decoding (List Byte)) :=
  if state.totalNum = -2 ^ 63 then .error .outOfRange
  else if state.totalNum - 1 = 0 then .ok (.leave (state.output ++ [byte]))
  else .ok (.again (afterSymbol root state byte))

/-- The loop does not look whether it stands at a leaf before it goes down. -/
theorem decodePass_childless {state : Decoding} {node : HuffmanNode FileInformation}
    (found : nodes.load state.cur = .ok node) (noLeft : node.left = none)
    (noRight : node.right = none) : decodePass nodes root state = .error .nullPointer := by
  simp only [decodePass, found, Outcome.ok_bind, noLeft, noRight, ite_self]
  rfl

/-- The empty code is the one of a tree that is a leaf. -/
theorem leaf_of_mem {tree : AddrTree FileInformation} {byte : Byte}
    (member : (byte, []) ∈ codes tree) :
    ∃ address data, tree = .node .nil address data .nil ∧ data.ch = byte := by
  cases tree with
  | nil => cases member
  | node left address data right =>
      by_cases leaf : left.pointer = none ∧ right.pointer = none
      · cases AddrTree.eq_nil_of_pointer leaf.1
        cases AddrTree.eq_nil_of_pointer leaf.2
        rw [codes, List.mem_singleton, Prod.mk.injEq] at member
        exact ⟨address, data, rfl, member.1.symm⟩
      · rw [codes_inner leaf] at member
        simp [stepDown] at member

/-- A tree with a longer code is not a leaf. -/
theorem inner_of_mem {left right : AddrTree FileInformation} {address : Nat}
    {data : FileInformation} {byte : Byte} {code : List Char} (nonempty : code ≠ [])
    (member : (byte, code) ∈ codes (.node left address data right)) :
    ¬(left.pointer = none ∧ right.pointer = none) := by
  rintro ⟨leftNone, rightNone⟩
  cases AddrTree.eq_nil_of_pointer leftNone
  cases AddrTree.eq_nil_of_pointer rightNone
  rw [codes, List.mem_singleton, Prod.mk.injEq] at member
  exact nonempty member.2

section Symbol

variable {state : Decoding} {node : HuffmanNode FileInformation} {address : Nat}
  {data : FileInformation} (found : nodes.load state.cur = .ok node)
  (moves : (if bitAt state.value state.pos.toNat then node.right else node.left) = some address)

include found moves

theorem decodePass_leaf (leaf : nodes.cell address = some ⟨data, none, none, parent⟩) :
    decodePass nodes root state = symbolPass root state data.ch := by
  simp only [decodePass, found, Outcome.ok_bind, moves, Store.load_some leaf, and_self, if_true,
    countDown, symbolPass]
  split <;> rfl

theorem decodePass_inner {left right : Ptr}
    (child : nodes.cell address = some ⟨data, left, right, parent⟩)
    (inner : ¬(left = none ∧ right = none)) :
    decodePass nodes root state = .ok (.again (steppedDown state (some address))) := by
  simp only [decodePass, found, Outcome.ok_bind, moves, Store.load_some child, if_neg inner]
  rfl

end Symbol

/-- The bits of a code lead from the root of a tree to the leaf. -/
theorem decodeCode_spec {tree : AddrTree FileInformation} (linked : Linked nodes parent tree)
    {byte : Byte} {code : List Char} (member : (byte, code) ∈ codes tree) (nonempty : code ≠ [])
    {state : Decoding} (positive : 0 < state.totalNum) (atTree : state.cur = tree.pointer)
    {ahead : List Bool}
    (available : Available state (code.map isOne ++ ahead)) :
    ∃ next, next.cur = root ∧ next.totalNum = state.totalNum - 1 ∧
      next.output = state.output ++ [byte] ∧ Available next ahead ∧
      ∀ count, repeatLoop (decodePass nodes root) (count + code.length) state =
        if state.totalNum - 1 = 0 then .ok next.output
        else repeatLoop (decodePass nodes root) count next := by
  induction tree generalizing parent code state with
  | nil => cases member
  | node left address data right leftInduction rightInduction =>
      rcases linked with ⟨found, leftLinked, rightLinked⟩
      have loaded : nodes.load state.cur = .ok ⟨data, left.pointer, right.pointer, parent⟩ := by
        rw [atTree]
        exact Store.load_some found
      rw [codes_inner (inner_of_mem nonempty member)] at member
      have taken : ∃ digit child rest, code = digit :: rest ∧ (byte, rest) ∈ codes child ∧
          (if isOne digit then right.pointer else left.pointer) = child.pointer ∧
          Linked nodes (some address) child ∧ (child = left ∨ child = right) := by
        rcases List.mem_append.mp member with inLeft | inRight
        · rcases List.mem_map.mp inLeft with ⟨⟨other, rest⟩, inChild, same⟩
          cases same
          exact ⟨'0', left, rest, rfl, inChild, rfl, leftLinked, Or.inl rfl⟩
        · rcases List.mem_map.mp inRight with ⟨⟨other, rest⟩, inChild, same⟩
          cases same
          exact ⟨'1', right, rest, rfl, inChild, rfl, rightLinked, Or.inr rfl⟩
      rcases taken with ⟨digit, child, rest, rfl, inChild, moves, childLinked, side⟩
      rw [List.map_cons, List.cons_append] at available
      by_cases last : rest = []
      · subst last
        have stepped := available.next { state with
          cur := root, totalNum := state.totalNum - 1, pos := state.pos - 1,
          output := state.output ++ [byte] } rfl rfl rfl
        rw [← stepped.1] at moves
        rcases leaf_of_mem inChild with ⟨childAddress, childData, rfl, rfl⟩
        have pass := decodePass_leaf root loaded moves childLinked.1
        rw [symbolPass, if_neg (by omega)] at pass
        refine ⟨afterSymbol root state childData.ch, by simp [afterSymbol], by simp [afterSymbol],
          by simp [afterSymbol], stepped.2, ?_⟩
        intro count
        rw [List.length_singleton]
        by_cases done : state.totalNum - 1 = 0
        · rw [if_pos done] at pass
          rw [if_pos done, repeatLoop_leave count pass, afterSymbol, output_refill]
        · rw [if_neg done] at pass
          rw [if_neg done, repeatLoop_again count pass]
      · have stepped := available.next { state with
          cur := child.pointer, pos := state.pos - 1 } rfl rfl rfl
        rw [← stepped.1] at moves
        have pass : decodePass nodes root state =
            .ok (.again (steppedDown state child.pointer)) := by
          cases child with
          | nil => cases inChild
          | node childLeft childAddress childData childRight =>
              exact decodePass_inner root loaded moves childLinked.1 (inner_of_mem last inChild)
        have stillPositive : 0 < (steppedDown state child.pointer).totalNum := by
          rw [steppedDown, totalNum_refill]
          exact positive
        have later : ∃ next, next.cur = root ∧
            next.totalNum = (steppedDown state child.pointer).totalNum - 1 ∧
            next.output = (steppedDown state child.pointer).output ++ [byte] ∧
            Available next ahead ∧
            ∀ count, repeatLoop (decodePass nodes root) (count + rest.length)
                (steppedDown state child.pointer) =
              if (steppedDown state child.pointer).totalNum - 1 = 0 then .ok next.output
              else repeatLoop (decodePass nodes root) count next := by
          rcases side with rfl | rfl
          · exact leftInduction childLinked inChild last stillPositive (cur_refill _) stepped.2
          · exact rightInduction childLinked inChild last stillPositive (cur_refill _) stepped.2
        rcases later with ⟨next, atRoot, fewer, output, nextAvailable, run⟩
        rw [steppedDown, totalNum_refill] at fewer
        rw [steppedDown, output_refill] at output
        refine ⟨next, atRoot, fewer, output, nextAvailable, ?_⟩
        intro count
        rw [List.length_cons, ← Nat.add_assoc, repeatLoop_again _ pass, run count, steppedDown,
          totalNum_refill]

/-! ## All symbols -/

/-- The loop puts out the bytes whose codes come next, and stops after the last of them. -/
theorem decodeLoop_spec {tree : AddrTree FileInformation} (linked : Linked nodes none tree)
    {entries : Byte → FileInformation} {bytes : List Byte} (nonempty : bytes ≠ [])
    (known : ∀ byte ∈ bytes, (byte, (entries byte).huffmanCode) ∈ codes tree ∧
      (entries byte).huffmanCode ≠ [])
    {state : Decoding} (atRoot : state.cur = tree.pointer) (total : state.totalNum = bytes.length)
    {padding : List Bool} (available : Available state ((digits entries bytes).map isOne ++ padding))
    (fuel : Nat) (enough : (digits entries bytes).length ≤ fuel) :
    repeatLoop (decodePass nodes tree.pointer) fuel state = .ok (state.output ++ bytes) := by
  induction bytes generalizing state fuel with
  | nil => exact absurd rfl nonempty
  | cons byte rest induction =>
      rcases List.forall_mem_cons.mp known with ⟨⟨member, long⟩, restKnown⟩
      rw [digits, List.flatMap_cons, ← digits, List.length_append] at enough
      rw [digits, List.flatMap_cons, ← digits, List.map_append, List.append_assoc] at available
      have positive : 0 < state.totalNum := by
        rw [total, List.length_cons]
        omega
      rcases decodeCode_spec tree.pointer linked member long positive atRoot available with
        ⟨next, nextAtRoot, fewer, output, nextAvailable, run⟩
      have split : ∃ count, fuel = count + (entries byte).huffmanCode.length :=
        ⟨fuel - (entries byte).huffmanCode.length, by omega⟩
      rcases split with ⟨count, rfl⟩
      rw [run count]
      rw [total, List.length_cons] at fewer
      by_cases last : rest = []
      · subst last
        rw [if_pos (by rw [total]; rfl), output]
      · have more : 0 < rest.length := List.length_pos_iff.mpr last
        rw [if_neg (by rw [total, List.length_cons]; omega), induction last restKnown nextAtRoot
          (by rw [fewer]; omega) nextAvailable count (by omega), output, List.append_assoc]
        rfl

end DataStructAlgorithm.FileComPress.FileCompress
