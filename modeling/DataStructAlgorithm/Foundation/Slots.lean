import DataStructAlgorithm.Foundation.Outcome

/-! # Arrays with checked access

An array is a list of its slots. Reading or writing beyond the last slot is a
fault. -/

namespace DataStructAlgorithm.Foundation

variable {Entry : Type u}

def readAt (slots : List Entry) (index : Nat) : Outcome Entry :=
  match slots[index]? with
  | some entry => .ok entry
  | none => .error .outOfRange

def writeAt (slots : List Entry) (index : Nat) (entry : Entry) : Outcome (List Entry) :=
  if index < slots.length then .ok (slots.set index entry) else .error .outOfRange

theorem readAt_of_getElem? {slots : List Entry} {index : Nat} {entry : Entry}
    (found : slots[index]? = some entry) : readAt slots index = .ok entry := by
  simp [readAt, found]

theorem readAt_of_lt {slots : List Entry} {index : Nat} (within : index < slots.length) :
    readAt slots index = .ok slots[index] :=
  readAt_of_getElem? (List.getElem?_eq_getElem within)

theorem writeAt_of_lt {slots : List Entry} {index : Nat} (entry : Entry)
    (within : index < slots.length) : writeAt slots index entry = .ok (slots.set index entry) :=
  if_pos within

theorem readAt_eq_ok {slots : List Entry} {index : Nat} {entry : Entry}
    (read : readAt slots index = .ok entry) : slots[index]? = some entry := by
  rw [readAt] at read
  split at read
  · cases read
    assumption
  · cases read

theorem writeAt_eq_ok {slots after : List Entry} {index : Nat} {entry : Entry}
    (written : writeAt slots index entry = .ok after) :
    index < slots.length ∧ after = slots.set index entry := by
  rw [writeAt] at written
  split at written
  · cases written
    exact ⟨‹_›, rfl⟩
  · cases written

end DataStructAlgorithm.Foundation
