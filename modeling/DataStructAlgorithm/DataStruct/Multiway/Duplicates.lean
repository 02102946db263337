import Mathlib.Order.Nat
import DataStructAlgorithm.DataStruct.Multiway.Leaf

/-! # Inserting a key that is stored already

`Find` answers with the index of the key in its node and with -1 when it meets the key
nowhere, but `Insert` takes the index 0 for an absent key, too. -/

namespace DataStructAlgorithm.DataStruct.BTree

open Foundation

variable {Key Value : Type} [LinearOrder Key]

/-! ## The search path -/

/-- The pairs of a node from one index to another one have smaller keys. -/
def Passed (kvs : List (Key × Value)) (key : Key) (first last : Nat) : Prop :=
  ∀ index, first ≤ index → index < last → ∃ kv, kvs[index]? = some kv ∧ kv.1 < key

/-- The path of a key from a pointer meets the key in a node at an index. In every node
on the way it takes the child in front of the first greater key. -/
inductive OnPath (heap : Store (BTreeNode Key Value)) (key : Key) :
    Ptr → (address index : Nat) → Prop
  | here {address index : Nat} {node : BTreeNode Key Value} {kv : Key × Value}
      (found : heap.cell address = some node) (within : index < node.size)
      (passed : Passed node.kvs key 0 index) (stored : node.kvs[index]? = some kv)
      (equal : kv.1 = key) : OnPath heap key (some address) address index
  | descend {address child index target place : Nat} {node : BTreeNode Key Value}
      (found : heap.cell address = some node) (within : index ≤ node.size)
      (passed : Passed node.kvs key 0 index)
      (stops : index < node.size → ∃ kv, node.kvs[index]? = some kv ∧ key < kv.1)
      (stored : node.subs[index]? = some (some child))
      (rest : OnPath heap key (some child) target place) :
      OnPath heap key (some address) target place

section Scan

variable {kvs : List (Key × Value)} {key : Key}

theorem Passed.cons {first last : Nat} {kv : Key × Value} (stored : kvs[first]? = some kv)
    (less : kv.1 < key) (passed : Passed kvs key (first + 1) last) :
    Passed kvs key first last := by
  intro index low high
  rcases Nat.eq_or_lt_of_le low with equal | later
  · exact ⟨kv, equal ▸ stored, less⟩
  · exact passed index later high

theorem Passed.first_cases {first last : Nat} (passed : Passed kvs key first last)
    (low : first ≤ last) : first = last ∨ first + 1 ≤ last ∧
      ∃ kv, kvs[first]? = some kv ∧ kv.1 < key := by
  rcases Nat.eq_or_lt_of_le low with equal | later
  · exact Or.inl equal
  · exact Or.inr ⟨later, passed first (Nat.le_refl _) later⟩

theorem Passed.tail {first last : Nat} (passed : Passed kvs key first last) :
    Passed kvs key (first + 1) last :=
  fun index low => passed index (by omega)

/-- Nothing is passed between an index and itself. -/
theorem passed_self (first : Nat) : Passed kvs key first first := by
  intro index low high
  omega

/-- How the scan ends: at the key, or in front of the first greater key, and in either
case behind smaller keys. -/
def Scan.Ends (kvs : List (Key × Value)) (key : Key) (first limit : Nat) : Scan → Prop
  | .here last => first ≤ last ∧ last < limit ∧ Passed kvs key first last ∧
      ∃ kv, kvs[last]? = some kv ∧ kv.1 = key
  | .before last => first ≤ last ∧ last ≤ limit ∧ Passed kvs key first last ∧
      (last < limit → ∃ kv, kvs[last]? = some kv ∧ key < kv.1)

/-- A scan that ends behind its first index passes the first pair. -/
theorem Scan.ends_cons_iff {first limit : Nat} {kv : Key × Value}
    (stored : kvs[first]? = some kv) (less : kv.1 < key) (room : first < limit) (result : Scan) :
    result.Ends kvs key (first + 1) limit ↔ result.Ends kvs key first limit := by
  cases result with
  | here last =>
      constructor
      · rintro ⟨low, high, passed, found⟩
        exact ⟨by omega, high, passed.cons stored less, found⟩
      · rintro ⟨low, high, passed, found⟩
        rcases passed.first_cases low with equal | ⟨later, _⟩
        · rcases found with ⟨other, otherStored, same⟩
          rw [← equal, stored] at otherStored
          cases otherStored
          exact absurd same (ne_of_lt less)
        · exact ⟨later, high, passed.tail, found⟩
  | before last =>
      constructor
      · rintro ⟨low, high, passed, stops⟩
        exact ⟨by omega, high, passed.cons stored less, stops⟩
      · rintro ⟨low, high, passed, stops⟩
        rcases passed.first_cases low with equal | ⟨later, _⟩
        · rcases stops (by omega) with ⟨other, otherStored, larger⟩
          rw [← equal, stored] at otherStored
          cases otherStored
          exact absurd larger (lt_asymm less)
        · exact ⟨later, high, passed.tail, stops⟩

/-- At a first pair with a key that is not smaller the scan ends at once. -/
theorem Scan.ends_first_iff {first limit : Nat} (kv : Key × Value)
    (stored : kvs[first]? = some kv) (notLess : ¬kv.1 < key) (room : first < limit)
    (result : Scan) : result.Ends kvs key first limit ↔
      result = if key < kv.1 then .before first else .here first := by
  constructor
  · cases result with
    | here last =>
        rintro ⟨low, _, passed, other, otherStored, same⟩
        rcases passed.first_cases low with equal | ⟨_, third, thirdStored, smaller⟩
        · subst equal
          rw [stored] at otherStored
          cases otherStored
          rw [if_neg (by rw [same]; exact lt_irrefl _)]
        · rw [stored] at thirdStored
          cases thirdStored
          exact absurd smaller notLess
    | before last =>
        rintro ⟨low, _, passed, stops⟩
        rcases passed.first_cases low with equal | ⟨_, third, thirdStored, smaller⟩
        · subst equal
          rcases stops room with ⟨other, otherStored, larger⟩
          rw [stored] at otherStored
          cases otherStored
          rw [if_pos larger]
        · rw [stored] at thirdStored
          cases thirdStored
          exact absurd smaller notLess
  · intro equal
    subst equal
    split
    · rename_i larger
      exact ⟨Nat.le_refl _, by omega, passed_self first, fun _ => ⟨kv, stored, larger⟩⟩
    · rename_i notLarger
      exact ⟨Nat.le_refl _, room, passed_self first, kv, stored,
        le_antisymm (not_lt.mp notLarger) (not_lt.mp notLess)⟩

/-- Behind the last pair the scan ends in front of nothing. -/
theorem Scan.ends_limit_iff (limit : Nat) (result : Scan) :
    result.Ends kvs key limit limit ↔ result = .before limit := by
  constructor
  · cases result with
    | here last =>
        rintro ⟨low, high, _⟩
        omega
    | before last =>
        rintro ⟨low, high, _⟩
        rw [show last = limit by omega]
  · intro equal
    subst equal
    exact ⟨Nat.le_refl _, Nat.le_refl _, passed_self limit, fun less => by omega⟩

theorem scan_iff (remaining first : Nat) (result : Scan) :
    scan kvs key remaining first = .ok result ↔
      result.Ends kvs key first (first + remaining) := by
  induction remaining generalizing first with
  | zero =>
      rw [scan, Nat.add_zero, Scan.ends_limit_iff, Except.ok.injEq, eq_comm]
  | succ remaining induction =>
      rw [scan]
      cases read : kvs[first]? with
      | none =>
          simp only [readAt, read, Outcome.error_bind]
          refine iff_of_false (fun equal => by cases equal) fun ends => ?_
          have nothing : ∀ kv, kvs[first]? ≠ some kv := fun kv stored => by
            rw [read] at stored
            cases stored
          cases result with
          | here last =>
              rcases ends with ⟨low, _, passed, kv, stored, _⟩
              rcases passed.first_cases low with equal | ⟨_, other, otherStored, _⟩
              · exact nothing kv (equal ▸ stored)
              · exact nothing other otherStored
          | before last =>
              rcases ends with ⟨low, _, passed, stops⟩
              rcases passed.first_cases low with equal | ⟨_, other, otherStored, _⟩
              · rcases stops (by omega) with ⟨kv, stored, _⟩
                exact nothing kv (equal ▸ stored)
              · exact nothing other otherStored
      | some kv =>
          rw [readAt_of_getElem? read, Outcome.ok_bind]
          have limit : first + (remaining + 1) = first + 1 + remaining := by omega
          by_cases less : kv.1 < key
          · rw [if_neg (lt_asymm less), if_pos less, induction, limit,
              Scan.ends_cons_iff read less (by omega)]
          · rw [Scan.ends_first_iff kv read less (by omega)]
            split
            · rw [Outcome.pure_eq_ok, Except.ok.injEq, eq_comm]
            · rw [Outcome.pure_eq_ok, Except.ok.injEq, eq_comm]

end Scan

/-! ## Search -/

section Find

variable {heap : Store (BTreeNode Key Value)} {key : Key}

/-- The search finds what the path of the key meets. -/
theorem OnPath.findPass {pointer : Ptr} {address index : Nat}
    (path : OnPath heap key pointer address index) (parent : Ptr) :
    ∃ fuel, repeatLoop (BTree.findPass heap key) fuel (pointer, parent) =
      .ok (some address, (index : Int)) := by
  induction path generalizing parent with
  | @here address index node kv found within passed stored equal =>
      have scanned : scan node.kvs key node.size 0 = .ok (.here index) := by
        rw [scan_iff, Nat.zero_add]
        exact ⟨Nat.zero_le _, within, passed, kv, stored, equal⟩
      have pass : BTree.findPass heap key (some address, parent) =
          .ok (.leave (some address, (index : Int))) := by
        simp [BTree.findPass, Store.load_some found, scanned]
      exact ⟨1, repeatLoop_leave 0 pass⟩
  | @descend address child index target place node found within passed stops stored rest
      induction =>
      have scanned : scan node.kvs key node.size 0 = .ok (.before index) := by
        rw [scan_iff, Nat.zero_add]
        exact ⟨Nat.zero_le _, within, passed, stops⟩
      have pass : BTree.findPass heap key (some address, parent) =
          .ok (.again (some child, some address)) := by
        simp [BTree.findPass, Store.load_some found, scanned, readAt_of_getElem? stored]
      rcases induction (some address) with ⟨fuel, ended⟩
      exact ⟨fuel + 1, (repeatLoop_again fuel pass).trans ended⟩

/-- What the search finds is on the path of the key. -/
theorem onPath_of_findPass (fuel : Nat) {pointer parent result : Ptr} {index : Int}
    (ended : repeatLoop (findPass heap key) fuel (pointer, parent) = .ok (result, index))
    (known : 0 ≤ index) :
    ∃ address, result = some address ∧ OnPath heap key pointer address index.toNat := by
  induction fuel generalizing pointer parent with
  | zero => cases ended
  | succ fuel induction =>
      cases pointer with
      | none =>
          cases ended
          omega
      | some cur =>
          cases pass : findPass heap key (some cur, parent) with
          | error fault => simp [repeatLoop, pass] at ended
          | ok next =>
              have passed := pass
              simp only [findPass] at passed
              rcases Outcome.bind_eq_ok passed with ⟨node, loaded, passed⟩
              rcases Outcome.bind_eq_ok passed with ⟨result, scanned, passed⟩
              have found : heap.cell cur = some node := by
                cases cell : heap.cell cur with
                | none => simp [Store.load, cell] at loaded
                | some stored =>
                    rw [Store.load_some cell] at loaded
                    rw [Except.ok.inj loaded]
              rw [scan_iff, Nat.zero_add] at scanned
              cases result with
              | here place =>
                  cases passed
                  rw [repeatLoop_leave _ pass] at ended
                  cases ended
                  rcases scanned with ⟨_, within, smaller, kv, stored, equal⟩
                  exact ⟨cur, rfl, .here found within smaller stored equal⟩
              | before place =>
                  rcases Outcome.bind_eq_ok passed with ⟨sub, read, passed⟩
                  cases passed
                  rw [repeatLoop_again _ pass] at ended
                  rcases induction ended with ⟨address, isResult, rest⟩
                  rcases scanned with ⟨_, within, smaller, stops⟩
                  have stored : node.subs[place]? = some sub := by
                    cases entry : node.subs[place]? with
                    | none => simp [readAt, entry] at read
                    | some other =>
                        rw [readAt_of_getElem? entry] at read
                        rw [Except.ok.inj read]
                  cases sub with
                  | none => cases rest
                  | some child =>
                      exact ⟨address, isResult, .descend found within smaller stops stored rest⟩

end Find

variable [Inhabited Key] [Inhabited Value]

end DataStructAlgorithm.DataStruct.BTree
