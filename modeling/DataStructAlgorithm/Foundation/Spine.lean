import DataStructAlgorithm.Foundation.ForkTree

/-! # Left spines

Trees of any height whose nodes have at most a left child. -/

namespace DataStructAlgorithm.Foundation

variable {Data : Type u}

/-- Nodes from an address on, each the left child of the one before. -/
def leftSpine (data : Data) : (length first : Nat) → AddrTree Data
  | 0, _ => .nil
  | length + 1, first => .node (leftSpine data length (first + 1)) first data .nil

variable (data : Data) (length first : Nat)

theorem pointer_leftSpine :
    (leftSpine data length first).pointer = if 0 < length then some first else none := by
  cases length with
  | zero => rfl
  | succ length => rfl

theorem height_leftSpine : (leftSpine data length first).height = length := by
  induction length generalizing first with
  | zero => rfl
  | succ length induction =>
      rw [leftSpine, AddrTree.height, induction, AddrTree.height]
      omega

theorem addresses_leftSpine : ∀ address ∈ (leftSpine data length first).addresses,
    first ≤ address := by
  induction length generalizing first with
  | zero => exact nofun
  | succ length induction =>
      intro address member
      rcases AddrTree.mem_node.mp member with below | rfl | nothing
      · exact Nat.le_of_succ_le (induction (first + 1) address below)
      · exact Nat.le_refl _
      · cases nothing

theorem nodup_leftSpine : (leftSpine data length first).addresses.Nodup := by
  induction length generalizing first with
  | zero => exact List.nodup_nil
  | succ length induction =>
      rw [leftSpine, AddrTree.addresses, List.nodup_append]
      refine ⟨induction (first + 1), List.nodup_cons.mpr ⟨List.not_mem_nil, List.nodup_nil⟩, ?_⟩
      intro address member other otherMember
      have above := addresses_leftSpine data length (first + 1) address member
      cases List.mem_singleton.mp otherMember
      omega

/-- The first addresses hold a left spine. -/
def spineTree : ForkTree Data where
  heap := {
    cell := fun address =>
      if address < length then
        some ⟨data, if address + 1 < length then some (address + 1) else none, none⟩
      else none
    next := length
    fresh := fun _ beyond => if_neg (Nat.not_lt.mpr beyond) }
  root := if 0 < length then some 0 else none

theorem held_leftSpine (whole : Nat) (all : first + length = whole) :
    Held (spineTree data whole).heap (leftSpine data length first) := by
  induction length generalizing first with
  | zero => trivial
  | succ length induction =>
      refine ⟨?_, induction (first + 1) (by omega), trivial⟩
      simp only [spineTree, pointer_leftSpine, AddrTree.pointer_nil]
      rw [if_pos (show first < whole by omega)]
      by_cases more : 0 < length
      · rw [if_pos more, if_pos (show first + 1 < whole by omega)]
      · rw [if_neg more, if_neg (show ¬first + 1 < whole by omega)]

theorem spineTree_shows : (spineTree data length).Shows (leftSpine data length 0) :=
  ⟨(pointer_leftSpine data length 0).symm,
    held_leftSpine data length 0 length (Nat.zero_add length), nodup_leftSpine data length 0⟩

end DataStructAlgorithm.Foundation
