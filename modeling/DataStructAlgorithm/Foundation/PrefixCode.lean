import Mathlib.Algebra.Order.BigOperators.Group.List
import DataStructAlgorithm.Foundation.OptimalTree

/-! # Prefix codes

A prefix code is a binary tree whose leaves are the symbols and whose depths are the lengths of
the codes. None is shorter than what greedy merging of the frequencies costs. -/

namespace DataStructAlgorithm.Foundation

variable {Symbol : Type}

/-- No code is the beginning of the code of another symbol. -/
def PrefixFree (code : Symbol → List Bool) (symbols : List Symbol) : Prop :=
  ∀ first ∈ symbols, ∀ second ∈ symbols, code first <+: code second → first = second

namespace PrefixFree

variable {code : Symbol → List Bool} {symbols : List Symbol}

/-- The empty code is the code of the only symbol. -/
theorem eq_singleton (prefixFree : PrefixFree code symbols) (nodup : symbols.Nodup)
    {symbol : Symbol} (member : symbol ∈ symbols) (empty : code symbol = []) :
    symbols = [symbol] := by
  have same : ∀ other ∈ symbols, symbol = other := fun other otherMem =>
    prefixFree symbol member other otherMem (empty ▸ List.nil_prefix)
  cases symbols with
  | nil => cases member
  | cons first rest =>
      cases same first List.mem_cons_self
      cases rest with
      | nil => rfl
      | cons second rest =>
          have equal := same second (List.mem_cons_of_mem _ List.mem_cons_self)
          rw [equal] at nodup
          exact absurd List.mem_cons_self (List.nodup_cons.mp nodup).1

/-- The symbols whose codes begin with the same bit, without that bit. -/
theorem tails (prefixFree : PrefixFree code symbols) (bit : Bool) {half : List Symbol}
    (part : ∀ symbol ∈ half, symbol ∈ symbols ∧ (code symbol).head? = some bit) :
    PrefixFree (fun symbol => (code symbol).tail) half := by
  intro first firstMem second secondMem begins
  rcases part first firstMem with ⟨firstIn, firstHead⟩
  rcases part second secondMem with ⟨secondIn, secondHead⟩
  apply prefixFree first firstIn second secondIn
  rw [← List.cons_head?_tail firstHead, ← List.cons_head?_tail secondHead]
  exact List.cons_prefix_cons.mpr ⟨rfl, begins⟩

/-- The tree of a prefix code. -/
theorem exists_tree (prefixFree : PrefixFree code symbols) (nodup : symbols.Nodup) {bound : Nat}
    (short : ∀ symbol ∈ symbols, (code symbol).length ≤ bound) :
    ∃ tree : BinaryTree Symbol, (tree = .nil → symbols = []) ∧ ∀ depth,
      (leavesAt depth tree).Perm
        (symbols.map fun symbol => (symbol, depth + (code symbol).length)) := by
  induction bound generalizing code symbols with
  | zero =>
      cases symbols with
      | nil => exact ⟨.nil, fun _ => rfl, fun _ => List.Perm.nil⟩
      | cons symbol rest =>
          have empty := List.eq_nil_of_length_eq_zero
            (Nat.le_zero.mp (short symbol List.mem_cons_self))
          rw [prefixFree.eq_singleton nodup List.mem_cons_self empty]
          refine ⟨.node symbol .nil .nil, nofun, fun depth => ?_⟩
          rw [List.map_singleton, empty]
          exact List.Perm.refl _
  | succ bound induction =>
      by_cases single : ∃ symbol ∈ symbols, code symbol = []
      · rcases single with ⟨symbol, member, empty⟩
        rw [prefixFree.eq_singleton nodup member empty]
        refine ⟨.node symbol .nil .nil, nofun, fun depth => ?_⟩
        rw [List.map_singleton, empty]
        exact List.Perm.refl _
      · have bits : ∀ symbol ∈ symbols, (code symbol).head? ≠ none := fun symbol member empty =>
          single ⟨symbol, member, List.head?_eq_none_iff.mp empty⟩
        have halves := List.filter_append_perm
          (fun symbol => decide ((code symbol).head? = some false)) symbols
        have zeros : ∀ symbol ∈ symbols.filter fun symbol =>
            decide ((code symbol).head? = some false),
            symbol ∈ symbols ∧ (code symbol).head? = some false := fun symbol member =>
          ⟨List.mem_of_mem_filter member, of_decide_eq_true (List.mem_filter.mp member).2⟩
        have ones : ∀ symbol ∈ symbols.filter fun symbol =>
            !decide ((code symbol).head? = some false),
            symbol ∈ symbols ∧ (code symbol).head? = some true := by
          intro symbol member
          rcases List.mem_filter.mp member with ⟨inSymbols, notZero⟩
          refine ⟨inSymbols, ?_⟩
          cases head : (code symbol).head? with
          | none => exact absurd head (bits symbol inSymbols)
          | some bit =>
              cases bit with
              | true => rfl
              | false =>
                  rw [head] at notZero
                  cases notZero
        have shorter : ∀ symbol ∈ symbols, (code symbol).tail.length ≤ bound := by
          intro symbol member
          have length := short symbol member
          rw [List.length_tail]
          omega
        rcases induction (prefixFree.tails false zeros) (nodup.filter _)
          (fun symbol member => shorter symbol (zeros symbol member).1) with
          ⟨left, leftNil, leftLeaves⟩
        rcases induction (prefixFree.tails true ones) (nodup.filter _)
          (fun symbol member => shorter symbol (ones symbol member).1) with
          ⟨right, rightNil, rightLeaves⟩
        cases symbols with
        | nil => exact ⟨.nil, fun _ => rfl, fun _ => List.Perm.nil⟩
        | cons label rest =>
            refine ⟨.node label left right, nofun, fun depth => ?_⟩
            have inner : ¬(left = .nil ∧ right = .nil) := by
              intro both
              have none := halves.length_eq
              rw [leftNil both.1, rightNil both.2] at none
              cases none
            have lengthened : ∀ symbol ∈ label :: rest,
                depth + 1 + (code symbol).tail.length = depth + (code symbol).length := by
              intro symbol member
              have positive : (code symbol).length ≠ 0 := fun empty =>
                single ⟨symbol, member, List.eq_nil_of_length_eq_zero empty⟩
              rw [List.length_tail]
              omega
            rw [leavesAt_inner inner]
            refine ((leftLeaves (depth + 1)).append (rightLeaves (depth + 1))).trans ?_
            rw [← List.map_append]
            refine (halves.map _).trans (List.Perm.of_eq (List.map_congr_left ?_))
            intro symbol member
            rw [lengthened symbol member]

end PrefixFree

/-- Greedy merging does not cost more than any prefix code. -/
theorem Greedy.le_prefixCode {frequency : Symbol → Nat} {symbols : List Symbol} {cost : Nat}
    (greedy : Greedy (symbols.map frequency) cost) (nonempty : symbols ≠ [])
    (nodup : symbols.Nodup) {code : Symbol → List Bool} (prefixFree : PrefixFree code symbols) :
    cost ≤ (symbols.map fun symbol => frequency symbol * (code symbol).length).sum := by
  have short : ∀ symbol ∈ symbols, (code symbol).length ≤
      (symbols.map fun symbol => (code symbol).length).sum := fun symbol member =>
    List.single_le_sum (fun _ _ => Nat.zero_le _) _ (List.mem_map_of_mem member)
  rcases prefixFree.exists_tree nodup short with ⟨tree, notNil, leaves⟩
  have atRoot := leaves 0
  have names := (atRoot.map Prod.fst).map frequency
  have costs := atRoot.map fun leaf => frequency leaf.1 * leaf.2
  rw [List.map_map, List.map_map, List.map_map] at names
  rw [List.map_map] at costs
  have bounded := greedy.le_weightedPathLength frequency (fun isNil => nonempty (notNil isNil))
    (by
      rw [Foundation.leaves, List.map_map]
      exact names)
  rw [weightedPathLength, costs.sum_eq] at bounded
  simpa [Function.comp_def] using bounded

end DataStructAlgorithm.Foundation
