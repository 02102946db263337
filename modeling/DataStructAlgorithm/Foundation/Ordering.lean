import Mathlib.Order.Antisymmetrization
import DataStructAlgorithm.Foundation.Contents

/-! # Putting an array in order

What the steps of sorting in place keep: an entry that is inserted into a sorted part, a part
that is divided at a pivot, and a stack of parts that are still to be sorted. -/

namespace DataStructAlgorithm.Foundation

variable {Entry : Type u} [LinearOrder Entry] {low high : Int} {a b : Contents Entry}

theorem monotoneOn_single (a : Contents Entry) (short : high ≤ low) :
    MonotoneOn a (Set.Icc low high) := by
  intro x xInside y yInside _
  have same : x = y := by
    rw [Set.mem_Icc] at xInside yInside
    omega
  rw [same]

/-! ## Insertion -/

/-- The entries from `low` to `high` are in order but for a hole, and behind the hole they are
not less than the entry that is held. -/
structure Opened (low high : Int) (a : Contents Entry) (hole : Int) (held : Entry) : Prop where
  ordered : ∀ x y, low ≤ x → x ≤ y → y ≤ high → x ≠ hole → y ≠ hole → a x ≤ a y
  behind : ∀ y, hole < y → y ≤ high → held ≤ a y

theorem Opened.move {hole : Int} {held : Entry} (opened : Opened low high a hole held)
    (above : low < hole) (below : hole ≤ high) (greater : held < a (hole - 1)) :
    Opened low high (Function.update a hole (a (hole - 1))) (hole - 1) held := by
  have apart : hole - 1 ≠ hole := by omega
  constructor
  · intro x y xLow le yHigh xNe yNe
    by_cases atX : x = hole
    · by_cases atY : y = hole
      · rw [atX, atY]
      · rw [atX, Function.update_self, Function.update_of_ne atY]
        exact opened.ordered _ _ (by omega) (by omega) yHigh apart atY
    · rw [Function.update_of_ne atX]
      by_cases atY : y = hole
      · rw [atY, Function.update_self]
        exact opened.ordered _ _ xLow (by omega) (by omega) atX apart
      · rw [Function.update_of_ne atY]
        exact opened.ordered _ _ xLow le yHigh atX atY
  · intro y behind yHigh
    by_cases atY : y = hole
    · rw [atY, Function.update_self]
      exact le_of_lt greater
    · rw [Function.update_of_ne atY]
      exact opened.behind y (by omega) yHigh

theorem Opened.finish {hole : Int} {held : Entry} (opened : Opened low high a hole held)
    (stops : low < hole → a (hole - 1) ≤ held) :
    MonotoneOn (Function.update a hole held) (Set.Icc low high) := by
  intro x xInside y yInside le
  by_cases atX : x = hole
  · by_cases atY : y = hole
    · rw [atX, atY]
    · rw [atX, Function.update_self, Function.update_of_ne atY]
      exact opened.behind y (by omega) yInside.2
  · rw [Function.update_of_ne atX]
    by_cases atY : y = hole
    · rw [atY, Function.update_self]
      have xBefore : x < hole := by omega
      have previous := opened.ordered x (hole - 1) xInside.1 (by omega) (by
        have := yInside.2
        omega) atX (by omega)
      exact previous.trans (stops (Int.lt_of_le_of_lt xInside.1 xBefore))
    · rw [Function.update_of_ne atY]
      exact opened.ordered x y xInside.1 le yInside.2 atX atY

/-! ## Division -/

theorem monotoneOn_of_parts {middle : Int} (first : MonotoneOn a (Set.Icc low (middle - 1)))
    (second : MonotoneOn a (Set.Icc middle high))
    (across : ∀ x y, low ≤ x → x < middle → middle ≤ y → y ≤ high → a x ≤ a y) :
    MonotoneOn a (Set.Icc low high) := by
  intro x xInside y yInside le
  rcases Int.lt_or_le y middle with yBefore | yBehind
  · exact first ⟨xInside.1, by omega⟩ ⟨yInside.1, by omega⟩ le
  · rcases Int.lt_or_le x middle with xBefore | xBehind
    · exact across x y xInside.1 xBefore yBehind yInside.2
    · exact second ⟨xBehind, xInside.2⟩ ⟨yBehind, yInside.2⟩ le

/-- No entry before the pivot is greater than it, and none behind is less. -/
structure Partitioned (left right : Int) (a : Contents Entry) (pivot : Int) : Prop where
  inside : left ≤ pivot ∧ pivot ≤ right
  before : ∀ place, left ≤ place → place < pivot → a place ≤ a pivot
  behind : ∀ place, pivot < place → place ≤ right → a pivot ≤ a place

/-- Sorting the entries that are not greater than a key and then those that are not less. The two
parts may overlap. -/
theorem SortedFrom.join {middle top : Int} {key : Entry} {c d : Contents Entry}
    (first : SortedFrom low top b c) (second : SortedFrom middle high c d) (inside : low ≤ middle)
    (near : middle ≤ top + 1) (topLe : top ≤ high)
    (lower : ∀ place, low ≤ place → place ≤ top → b place ≤ key)
    (upper : ∀ place, middle ≤ place → place ≤ high → key ≤ b place) : SortedFrom low high b d := by
  have stays : ∀ place, place < middle → d place = c place := fun place before =>
    second.rearranges.unchanged (Or.inl before)
  have notGreater : ∀ place, low ≤ place → place ≤ top → c place ≤ key :=
    first.rearranges.forall_inside (fun entry => entry ≤ key) lower
  refine ⟨(first.rearranges.mono (le_refl _) topLe).trans
    (second.rearranges.mono inside (le_refl _)), monotoneOn_of_parts ?_ second.monotone ?_⟩
  · intro x xInside y yInside le
    rw [Set.mem_Icc] at xInside yInside
    rw [stays x (by omega), stays y (by omega)]
    exact first.monotone ⟨xInside.1, by omega⟩ ⟨yInside.1, by omega⟩ le
  · intro x y above before behind below
    rw [stays x before]
    refine second.rearranges.forall_inside (fun entry => c x ≤ entry) ?_ y behind below
    intro source sourceAbove sourceBelow
    rcases Int.lt_or_le top source with outside | overlap
    · rw [first.rearranges.unchanged (Or.inr outside)]
      exact (notGreater x above (by omega)).trans (upper source sourceAbove sourceBelow)
    · exact first.monotone ⟨above, by omega⟩ ⟨by omega, overlap⟩ (by omega)

theorem SortedFrom.single (a : Contents Entry) (place : Int) : SortedFrom place place a a :=
  ⟨.refl _ _ a, monotoneOn_single a (le_refl _)⟩

/-- Sorting what is before the pivot and then what is behind it sorts the part. -/
theorem Partitioned.sorted {left right pivot : Int} {c d : Contents Entry}
    (partitioned : Partitioned left right b pivot) (first : SortedFrom left (pivot - 1) b c)
    (second : SortedFrom (pivot + 1) right c d) : SortedFrom left right b d := by
  have between := partitioned.inside
  have upper : ∀ place, pivot ≤ place → place ≤ right → b pivot ≤ b place := by
    intro place above below
    rcases eq_or_lt_of_le above with rfl | behind
    · exact le_refl _
    · exact partitioned.behind place behind below
  have lower : ∀ place, left ≤ place → place ≤ pivot → b place ≤ b pivot := by
    intro place above below
    rcases eq_or_lt_of_le below with rfl | before
    · exact le_refl _
    · exact partitioned.before place above before
  have withPivot : SortedFrom left pivot b c :=
    first.join (.single c pivot) between.1 (by omega) (by omega)
      (fun place above below => lower place above (by omega))
      (fun place above below => upper place above (by omega))
  exact withPivot.join second (by omega) (le_refl _) between.2 lower
    (fun place above => upper place (by omega))

/-- The parts of an array that a stack still has to sort: any two entries are in order, or lie
in one of the parts. -/
structure Pending (low high : Int) (a : Contents Entry) (parts : List (Int × Int)) : Prop where
  inside : ∀ part ∈ parts, low ≤ part.1 ∧ part.1 < part.2 ∧ part.2 ≤ high
  apart : parts.Pairwise fun part other => part.2 < other.1 ∨ other.2 < part.1
  ordered : ∀ x y, low ≤ x → x ≤ y → y ≤ high →
    a x ≤ a y ∨ ∃ part ∈ parts, part.1 ≤ x ∧ y ≤ part.2

/-- The part from `left` to `right`, if there is something to sort in it. -/
def unsorted (left right : Int) : List (Int × Int) :=
  if left < right then [(left, right)] else []

/-- What is left of a part that has been divided. -/
def halves (left pivot right : Int) : List (Int × Int) :=
  unsorted (pivot + 1) right ++ unsorted left (pivot - 1)

theorem mem_unsorted {left right : Int} {part : Int × Int} :
    part ∈ unsorted left right ↔ part = (left, right) ∧ left < right := by
  rw [unsorted]
  split
  next proper => simp [proper]
  next short => simp [short]

theorem mem_halves {left pivot right : Int} {part : Int × Int} :
    part ∈ halves left pivot right ↔
      part = (pivot + 1, right) ∧ pivot + 1 < right ∨ part = (left, pivot - 1) ∧ left < pivot - 1 := by
  rw [halves, List.mem_append, mem_unsorted, mem_unsorted]

def work (parts : List (Int × Int)) : Nat := (parts.map fun part => (part.2 - part.1).toNat).sum

theorem work_cons (part : Int × Int) (parts : List (Int × Int)) :
    work (part :: parts) = (part.2 - part.1).toNat + work parts := rfl

theorem work_unsorted_append (left right : Int) (parts : List (Int × Int)) :
    work (unsorted left right ++ parts) = (right - left).toNat + work parts := by
  rw [unsorted]
  split
  · rfl
  · rw [List.nil_append]
    omega

theorem work_halves_append {left pivot right : Int} (within : left ≤ pivot ∧ pivot ≤ right)
    (proper : left < right) (parts : List (Int × Int)) :
    work (halves left pivot right ++ parts) < work ((left, right) :: parts) := by
  rw [halves, List.append_assoc, work_unsorted_append, work_unsorted_append, work_cons]
  omega

namespace Pending

theorem whole (low high : Int) (a : Contents Entry) : Pending low high a (unsorted low high) := by
  refine ⟨?_, ?_, ?_⟩
  · intro part member
    rcases mem_unsorted.mp member with ⟨rfl, proper⟩
    exact ⟨le_refl _, proper, le_refl _⟩
  · rw [unsorted]
    split <;> simp
  · intro x y above le below
    rcases eq_or_lt_of_le le with rfl | less
    · exact Or.inl (le_refl _)
    · exact Or.inr ⟨(low, high), mem_unsorted.mpr ⟨rfl, by omega⟩, above, below⟩

theorem monotone (pending : Pending low high a []) : MonotoneOn a (Set.Icc low high) := by
  intro x xInside y yInside le
  rcases pending.ordered x y xInside.1 le yInside.2 with fine | ⟨part, member, _⟩
  · exact fine
  · cases member

variable {left right pivot : Int} {parts : List (Int × Int)}

theorem monotone_of_part (pending : Pending low high a [(left, right)])
    (monotone : MonotoneOn a (Set.Icc left right)) : MonotoneOn a (Set.Icc low high) := by
  intro x xInside y yInside le
  rcases pending.ordered x y xInside.1 le yInside.2 with fine | ⟨part, member, above, below⟩
  · exact fine
  · cases List.mem_singleton.mp member
    exact monotone ⟨above, le.trans below⟩ ⟨above.trans le, below⟩ le

/-- The entries of the first part are in order with all entries outside. -/
theorem ordered_outside (pending : Pending low high a ((left, right) :: parts)) {x y : Int}
    (above : low ≤ x) (le : x ≤ y) (below : y ≤ high)
    (touches : left ≤ x ∧ x ≤ right ∧ right < y ∨ x < left ∧ left ≤ y ∧ y ≤ right) : a x ≤ a y := by
  rcases pending.ordered x y above le below with fine | ⟨part, member, first, last⟩
  · exact fine
  · rcases List.mem_cons.mp member with rfl | other
    · simp only at first last
      omega
    · have apart := (List.pairwise_cons.mp pending.apart).1 part other
      simp only at apart
      omega

/-- Dividing the first part. -/
theorem divide (pending : Pending low high a ((left, right) :: parts))
    (rearranges : Rearranges left right a b) (partitioned : Partitioned left right b pivot) :
    Pending low high b (halves left pivot right ++ parts) := by
  have outer := pending.inside _ List.mem_cons_self
  have between := partitioned.inside
  simp only at outer
  refine ⟨?_, ?_, ?_⟩
  · intro part member
    rcases List.mem_append.mp member with half | other
    · rcases mem_halves.mp half with ⟨rfl, proper⟩ | ⟨rfl, proper⟩
      · exact ⟨by omega, proper, outer.2.2⟩
      · exact ⟨outer.1, proper, by omega⟩
    · exact pending.inside part (List.mem_cons_of_mem _ other)
  · rw [List.pairwise_append]
    have others := List.pairwise_cons.mp pending.apart
    refine ⟨?_, others.2, ?_⟩
    · rw [halves, unsorted, unsorted]
      split
      · split
        · simp only [List.cons_append, List.nil_append, List.pairwise_pair]
          omega
        · simp
      · split <;> simp
    · intro part half other member
      have apart := others.1 other member
      simp only at apart
      rcases mem_halves.mp half with ⟨rfl, _⟩ | ⟨rfl, _⟩
      · show right < other.1 ∨ other.2 < pivot + 1
        omega
      · show pivot - 1 < other.1 ∨ other.2 < left
        omega
  · intro x y above le below
    by_cases xInside : left ≤ x ∧ x ≤ right
    · by_cases yInside : y ≤ right
      · rcases Int.lt_or_le pivot x with xBehind | xBefore
        · rcases eq_or_lt_of_le le with rfl | less
          · exact Or.inl (le_refl _)
          · exact Or.inr ⟨(pivot + 1, right), List.mem_append_left _
              (mem_halves.mpr (Or.inl ⟨rfl, by omega⟩)), xBehind, yInside⟩
        · rcases Int.lt_or_le y pivot with yBefore | yBehind
          · rcases eq_or_lt_of_le le with rfl | less
            · exact Or.inl (le_refl _)
            · exact Or.inr ⟨(left, pivot - 1), List.mem_append_left _
                (mem_halves.mpr (Or.inr ⟨rfl, by omega⟩)), xInside.1, by show y ≤ pivot - 1; omega⟩
          · have first : b x ≤ b pivot := by
              rcases eq_or_lt_of_le xBefore with rfl | less
              · exact le_refl _
              · exact partitioned.before x xInside.1 less
            have second : b pivot ≤ b y := by
              rcases eq_or_lt_of_le yBehind with rfl | less
              · exact le_refl _
              · exact partitioned.behind y less yInside
            exact Or.inl (first.trans second)
      · left
        have yStays : b y = a y := rearranges.unchanged (by omega)
        rw [yStays]
        refine rearranges.forall_inside (fun entry => entry ≤ a y) ?_ x xInside.1 xInside.2
        intro place placeAbove placeBelow
        exact pending.ordered_outside (by omega) (by omega) below (by omega)
    · by_cases yInside : left ≤ y ∧ y ≤ right
      · left
        have xStays : b x = a x := rearranges.unchanged (by omega)
        rw [xStays]
        refine rearranges.forall_inside (fun entry => a x ≤ entry) ?_ y yInside.1 yInside.2
        intro place placeAbove placeBelow
        exact pending.ordered_outside above (by omega) (by omega) (by omega)
      · have xStays : b x = a x := rearranges.unchanged (by omega)
        have yStays : b y = a y := rearranges.unchanged (by omega)
        rw [xStays, yStays]
        rcases pending.ordered x y above le below with fine | ⟨part, member, first, last⟩
        · exact Or.inl fine
        · rcases List.mem_cons.mp member with rfl | other
          · simp only at first last
            omega
          · exact Or.inr ⟨part, List.mem_append_right _ other, first, last⟩

/-- Taking the least and the greatest entry to the ends of the first part. -/
theorem shrink (pending : Pending low high a ((left, right) :: parts))
    (rearranges : Rearranges left right a b)
    (least : ∀ place, left ≤ place → place ≤ right → b left ≤ b place)
    (greatest : ∀ place, left ≤ place → place ≤ right → b place ≤ b right) :
    Pending low high b (unsorted (left + 1) (right - 1) ++ parts) := by
  have proper := (pending.inside _ List.mem_cons_self).2.1
  simp only at proper
  have atLeft : Partitioned left right b left :=
    ⟨⟨le_refl _, by omega⟩, fun _ above before => by omega,
      fun place behind below => least place (by omega) below⟩
  have nothing : unsorted left (left - 1) = [] := if_neg (by omega)
  have first := pending.divide rearranges atLeft
  rw [halves, nothing, List.append_nil] at first
  by_cases more : left + 1 < right
  · rw [unsorted, if_pos more, List.singleton_append] at first
    have atRight : Partitioned (left + 1) right b right :=
      ⟨⟨by omega, le_refl _⟩, fun place above before => greatest place (by omega) (by omega),
        fun _ behind below => by omega⟩
    have nothingMore : unsorted (right + 1) right = [] := if_neg (by omega)
    have second := first.divide (.refl _ _ b) atRight
    rw [halves, nothingMore, List.nil_append] at second
    exact second
  · rw [unsorted, if_neg more, List.nil_append] at first
    rw [unsorted, if_neg (by omega), List.nil_append]
    exact first

end Pending

end DataStructAlgorithm.Foundation

/-! ## Strict weak orders

The values that a strict weak order does not tell apart form classes, and the classes are
linearly ordered. -/

namespace DataStructAlgorithm.Foundation

variable {Value : Type u}

/-- The values, ordered by a strict weak order: none is greater than one that it does not
follow. -/
def Weakly (_less : Value → Value → Prop) : Type u := Value

variable (less : Value → Value → Prop) [IsStrictWeakOrder Value less]

instance : Preorder (Weakly less) where
  le left right := ¬less right left
  lt left right := less left right
  le_refl := irrefl_of less
  le_trans a b c first second := by
    intro before
    have level : ¬less b c ∧ ¬less a b :=
      ⟨fun other => first (trans_of less other before),
        fun other => second (trans_of less before other)⟩
    have through : ∀ a b c : Value, ¬less a b ∧ ¬less b a → ¬less b c ∧ ¬less c b →
      ¬less a c ∧ ¬less c a := IsStrictWeakOrder.incomp_trans
    exact (through c b a ⟨second, level.1⟩ ⟨first, level.2⟩).1 before
  lt_iff_le_not_ge left right :=
    ⟨fun before => ⟨asymm_of less before, not_not_intro before⟩, fun both => not_not.mp both.2⟩

instance : @Std.Total (Weakly less) (· ≤ ·) where
  total left right := by
    by_cases before : less right left
    · exact Or.inr (asymm_of less before)
    · exact Or.inl before

/-- The classes of a strict weak order. -/
abbrev Rank : Type u := Antisymmetrization (Weakly less) (· ≤ ·)

open Classical in
noncomputable instance : LinearOrder (Rank less) := inferInstance

def rank (value : Value) : Rank less := toAntisymmetrization (· ≤ ·) (show Weakly less from value)

variable {less} {left right : Value}

theorem rank_le_iff : rank less left ≤ rank less right ↔ ¬less right left := Iff.rfl

end DataStructAlgorithm.Foundation
