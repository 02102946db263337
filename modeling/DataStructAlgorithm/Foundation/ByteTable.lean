import Mathlib.Data.List.Nodup
import Mathlib.Logic.Function.Basic
import DataStructAlgorithm.Foundation.Slots
import DataStructAlgorithm.Foundation.Text

/-! # Tables with an entry for every byte

An array of 256 slots is the function that it tabulates. -/

namespace DataStructAlgorithm.Foundation

def allBytes : List Byte := (List.range 256).map UInt8.ofNat

theorem nodup_allBytes : allBytes.Nodup := by
  apply List.Nodup.map_on
  · intro first firstMem second secondMem same
    rw [List.mem_range] at firstMem secondMem
    rw [← UInt8.toNat_inj, UInt8.toNat_ofNat', UInt8.toNat_ofNat'] at same
    omega
  · exact List.nodup_range

theorem getElem?_allBytes (byte : Byte) : allBytes[byte.toNat]? = some byte := by
  rw [allBytes, List.getElem?_map, List.getElem?_range byte.toNat_lt, Option.map_some,
    UInt8.ofNat_toNat]

@[simp] theorem mem_allBytes (byte : Byte) : byte ∈ allBytes :=
  List.mem_of_getElem? (getElem?_allBytes byte)

variable {Entry Item : Type}

def tableOf (entries : Byte → Entry) : List Entry := allBytes.map entries

section Access

variable (entries : Byte → Entry) (byte : Byte)

@[simp] theorem length_tableOf : (tableOf entries).length = 256 := by
  rw [tableOf, allBytes, List.length_map, List.length_map, List.length_range]

@[simp] theorem readAt_tableOf : readAt (tableOf entries) byte.toNat = .ok (entries byte) := by
  apply readAt_of_getElem?
  rw [tableOf, List.getElem?_map, getElem?_allBytes, Option.map_some]

@[simp] theorem writeAt_tableOf (entry : Entry) :
    writeAt (tableOf entries) byte.toNat entry =
      .ok (tableOf (Function.update entries byte entry)) := by
  have within : byte.toNat < (tableOf entries).length := by
    rw [length_tableOf]
    exact byte.toNat_lt
  rw [writeAt_of_lt entry within]
  apply congrArg
  apply List.ext_getElem
  · rw [List.length_set, length_tableOf, length_tableOf]
  · intro index indexWithin _
    have named : ∃ other : Byte, index = other.toNat := by
      rw [List.length_set, length_tableOf] at indexWithin
      refine ⟨UInt8.ofNat index, ?_⟩
      rw [UInt8.toNat_ofNat']
      omega
    rcases named with ⟨other, rfl⟩
    have found : ∀ table : Byte → Entry, (tableOf table)[other.toNat]? = some (table other) :=
      fun table => by rw [tableOf, List.getElem?_map, getElem?_allBytes, Option.map_some]
    rw [← Option.some.injEq, ← List.getElem?_eq_getElem, ← List.getElem?_eq_getElem, found,
      List.getElem?_set]
    by_cases same : other = byte
    · subst same
      simp [other.toNat_lt]
    · have apart : byte.toNat ≠ other.toNat := fun equal => same (UInt8.toNat_inj.mp equal).symm
      rw [if_neg apart, found, Function.update_of_ne same]

end Access

theorem map_tableOf {Other : Type} (change : Entry → Other) (entries : Byte → Entry) :
    (tableOf entries).map change = tableOf fun byte => change (entries byte) := by
  rw [tableOf, tableOf, List.map_map]
  rfl

/-! ## Entries that are changed one after the other -/

section Changes

variable (key : Item → Byte) (change : Item → Entry → Entry)

def changeAll (entries : Byte → Entry) (items : List Item) : Byte → Entry :=
  items.foldl (fun entries item =>
    Function.update entries (key item) (change item (entries (key item)))) entries

theorem changeAll_append (entries : Byte → Entry) (first second : List Item) :
    changeAll key change entries (first ++ second) =
      changeAll key change (changeAll key change entries first) second := by
  rw [changeAll, List.foldl_append]
  rfl

variable {key change} {entries : Byte → Entry} {items : List Item} {byte : Byte}

theorem changeAll_of_not_mem (absent : byte ∉ items.map key) :
    changeAll key change entries items byte = entries byte := by
  induction items generalizing entries with
  | nil => rfl
  | cons item rest induction =>
      rw [List.map_cons, List.mem_cons, not_or] at absent
      rw [changeAll, List.foldl_cons, ← changeAll, induction absent.2,
        Function.update_of_ne absent.1]

theorem changeAll_of_mem {item : Item} (nodup : (items.map key).Nodup) (member : item ∈ items) :
    changeAll key change entries items (key item) = change item (entries (key item)) := by
  induction items generalizing entries with
  | nil => cases member
  | cons head rest induction =>
      rw [List.map_cons, List.nodup_cons] at nodup
      rw [changeAll, List.foldl_cons, ← changeAll]
      rcases List.mem_cons.mp member with rfl | later
      · rw [changeAll_of_not_mem nodup.1, Function.update_self]
      · have apart : key item ≠ key head := by
          intro same
          apply nodup.1
          rw [← same]
          exact List.mem_map_of_mem later
        rw [induction nodup.2 later, Function.update_of_ne apart]

/-- What no change touches stays. -/
theorem changeAll_keeps {View : Type} (view : Entry → View)
    (keeps : ∀ item entry, view (change item entry) = view entry) :
    view (changeAll key change entries items byte) = view (entries byte) := by
  induction items generalizing entries with
  | nil => rfl
  | cons item rest induction =>
      rw [changeAll, List.foldl_cons, ← changeAll, induction]
      by_cases same : byte = key item
      · rw [same, Function.update_self, keeps]
      · rw [Function.update_of_ne same]

end Changes

end DataStructAlgorithm.Foundation
