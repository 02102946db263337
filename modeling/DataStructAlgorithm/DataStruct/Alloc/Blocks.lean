import DataStructAlgorithm.DataStruct.Alloc.DefaultAlloc

/-! # The owners of the memory

Every byte that `malloc` has returned belongs to at most one of the client, a free
list and the pool. The last block of a chunk that `Refill` has cut belongs to none. -/

namespace DataStructAlgorithm.DataStruct.DefaultAlloc

open Foundation

/-! ## Sizes -/

theorem sizeT_of_lt {value : Nat} (small : value < 2 ^ 64) : sizeT value = value :=
  Nat.mod_eq_of_lt small

theorem roundUp_eq {bytes : Nat} (small : bytes < 2 ^ 63) :
    roundUp bytes = (bytes + 7) / 8 * 8 := by
  rw [roundUp, align, sizeT_of_lt (by omega)]
  rfl

theorem freeListIndex_eq {bytes : Nat} (positive : 0 < bytes) (small : bytes < 2 ^ 63) :
    freeListIndex bytes = (bytes + 7) / 8 - 1 := by
  have rounded : sizeT (bytes + 8 - 1) = bytes + 7 := sizeT_of_lt (by omega)
  rw [freeListIndex, align, rounded]
  exact if_pos (by omega)

theorem roundUp_eq_index {bytes : Nat} (positive : 0 < bytes) (small : bytes < 2 ^ 63) :
    roundUp bytes = (freeListIndex bytes + 1) * align := by
  rw [roundUp_eq small, freeListIndex_eq positive small, align]
  omega

theorem dvd_roundUp (bytes : Nat) : align ∣ roundUp bytes :=
  Nat.dvd_mul_left ..

/-! ## Chains of free blocks -/

/-- The blocks that a pointer leads to. -/
def Threaded (links : Nat → Ptr) : Ptr → List Nat → Prop
  | pointer, [] => pointer = none
  | pointer, block :: rest => pointer = some block ∧ Threaded links (links block) rest

theorem Threaded.congr {links others : Nat → Ptr} {pointer : Ptr} {blocks : List Nat}
    (threaded : Threaded links pointer blocks)
    (same : ∀ block ∈ blocks, others block = links block) : Threaded others pointer blocks := by
  induction blocks generalizing pointer with
  | nil => exact threaded
  | cons block rest induction =>
      refine ⟨threaded.1, ?_⟩
      rw [same block (List.mem_cons_self ..)]
      exact induction threaded.2 fun other member => same other (List.mem_cons_of_mem _ member)

theorem Threaded.push {links : Nat → Ptr} {head : Ptr} {blocks : List Nat}
    (threaded : Threaded links head blocks) {block : Nat} (fresh : block ∉ blocks) :
    Threaded (setLink links block head) (some block) (block :: blocks) := by
  refine ⟨rfl, ?_⟩
  have linked : setLink links block head block = head := if_pos rfl
  rw [linked]
  apply threaded.congr
  intro other member
  have different : other ≠ block := fun equal => fresh (equal ▸ member)
  exact if_neg different

/-- The areas of the blocks on free lists, the first of which has the given index. -/
def freeAreas : Nat → List (List Nat) → List Area
  | _, [] => []
  | index, chain :: rest =>
      (chain.map fun block => ⟨block, (index + 1) * align⟩) ++ freeAreas (index + 1) rest

theorem freeAreas_set_perm (chains : List (List Nat)) (start index : Nat) {chain : List Nat}
    (stored : chains[index]? = some chain) (blocks : List Nat) :
    (freeAreas start (chains.set index (blocks ++ chain))).Perm
      ((blocks.map fun block => ⟨block, (start + index + 1) * align⟩) ++
        freeAreas start chains) := by
  induction chains generalizing start index with
  | nil => cases stored
  | cons first rest induction =>
      cases index with
      | zero =>
          have equal : first = chain := Option.some.inj stored
          subst equal
          simp only [List.set_cons_zero, freeAreas, List.map_append, Nat.add_zero,
            List.append_assoc]
          exact List.Perm.refl _
      | succ index =>
          have later := induction (start + 1) index stored
          rw [List.set_cons_succ, freeAreas, freeAreas]
          refine (later.append_left _).trans ?_
          rw [← List.append_assoc, ← List.append_assoc, Nat.add_right_comm start 1 index]
          exact List.perm_append_comm.append_right _

theorem mem_freeAreas {chains : List (List Nat)} (start index : Nat) {chain : List Nat}
    (stored : chains[index]? = some chain) {block : Nat} (member : block ∈ chain) :
    (⟨block, (start + index + 1) * align⟩ : Area) ∈ freeAreas start chains := by
  induction chains generalizing start index with
  | nil => cases stored
  | cons first rest induction =>
      rw [freeAreas, List.mem_append]
      cases index with
      | zero =>
          have equal : first = chain := Option.some.inj stored
          subst equal
          exact Or.inl (List.mem_map_of_mem member)
      | succ index =>
          have later := induction (start + 1) index stored
          rw [Nat.add_right_comm start 1 index] at later
          exact Or.inr later

/-- The invariant, with the blocks of each free list and the areas of the other
owners. -/
structure Owned (alloc : DefaultAlloc) (chains : List (List Nat)) (others : List Area) :
    Prop where
  listLength : alloc.freeList.length = nFreeLists
  chainLength : chains.length = nFreeLists
  threaded : ∀ (index : Nat) (head : Ptr) (chain : List Nat),
    alloc.freeList[index]? = some head → chains[index]? = some chain →
      Threaded alloc.links head chain
  apart : (freeAreas 0 chains ++ others).Pairwise Area.Apart
  inside : ∀ area ∈ freeAreas 0 chains ++ others, area.size = 0 ∨
    ∃ region ∈ alloc.regions, Area.Inside area region

namespace Owned

variable {alloc : DefaultAlloc} {chains : List (List Nat)} {others : List Area}

theorem chain_at (owned : Owned alloc chains others) {index : Nat} (within : index < nFreeLists) :
    ∃ head chain, alloc.freeList[index]? = some head ∧ chains[index]? = some chain ∧
      Threaded alloc.links head chain := by
  have headWithin : index < alloc.freeList.length := by rw [owned.listLength]; exact within
  have chainWithin : index < chains.length := by rw [owned.chainLength]; exact within
  have headFound := List.getElem?_eq_getElem headWithin
  have chainFound := List.getElem?_eq_getElem chainWithin
  exact ⟨_, _, headFound, chainFound, owned.threaded index _ _ headFound chainFound⟩

/-- The invariant for the same free lists and the same areas in another order, or
with some of the other areas cut into pieces. -/
theorem rearrange (owned : Owned alloc chains others) {areas : List Area}
    (apart : (freeAreas 0 chains ++ areas).Pairwise Area.Apart)
    (inside : ∀ area ∈ areas, ∃ whole ∈ others, Area.Inside area whole) :
    Owned alloc chains areas where
  listLength := owned.listLength
  chainLength := owned.chainLength
  threaded := owned.threaded
  apart := apart
  inside := by
    intro area member
    rcases List.mem_append.mp member with isFree | isOther
    · exact owned.inside area (List.mem_append_left _ isFree)
    · rcases inside area isOther with ⟨whole, wholeMember, areaInside⟩
      rcases owned.inside whole (List.mem_append_right _ wholeMember) with empty | found
      · unfold Area.Inside at areaInside
        omega
      · rcases found with ⟨region, regionMember, wholeInside⟩
        exact Or.inr ⟨region, regionMember, areaInside.trans wholeInside⟩

theorem perm (owned : Owned alloc chains others) {areas : List Area} (same : others.Perm areas) :
    Owned alloc chains areas := by
  apply owned.rearrange
  · exact Area.apart_perm owned.apart (same.append_left _)
  · intro area member
    exact ⟨area, same.mem_iff.mpr member, Area.Inside.refl area⟩

/-- An owner divides an area. -/
theorem cut {area : Area} (owned : Owned alloc chains (area :: others)) {pieces : List Area}
    (apart : pieces.Pairwise Area.Apart) (inside : ∀ piece ∈ pieces, Area.Inside piece area) :
    Owned alloc chains (pieces ++ others) := by
  apply owned.rearrange
  · have cut := Area.apart_cut (Area.apart_perm owned.apart List.perm_middle) apart inside
    apply Area.apart_perm cut
    rw [← List.append_assoc, ← List.append_assoc]
    exact List.perm_append_comm.append_right _
  · intro piece member
    rcases List.mem_append.mp member with isPiece | isOther
    · exact ⟨area, List.mem_cons_self .., inside piece isPiece⟩
    · exact ⟨piece, List.mem_cons_of_mem _ isOther, Area.Inside.refl piece⟩

/-- An owner loses an area. -/
theorem drop {area : Area} (owned : Owned alloc chains (area :: others)) :
    Owned alloc chains others :=
  owned.cut List.Pairwise.nil fun _ member => nomatch member

/-- The fields of the pool have no part in the invariant. -/
theorem setPool (owned : Owned alloc chains others) (startFree endFree heapSize : Nat) :
    Owned { alloc with startFree := startFree, endFree := endFree, heapSize := heapSize }
      chains others :=
  ⟨owned.listLength, owned.chainLength, owned.threaded, owned.apart, owned.inside⟩

/-- Links change anywhere but in free blocks. -/
theorem relink (owned : Owned alloc chains others) {links : Nat → Ptr}
    (same : ∀ (index : Nat) (chain : List Nat), chains[index]? = some chain →
      ∀ block ∈ chain, links block = alloc.links block) :
    Owned { alloc with links := links } chains others where
  listLength := owned.listLength
  chainLength := owned.chainLength
  threaded := by
    intro index head chain headFound chainFound
    exact (owned.threaded index head chain headFound chainFound).congr (same index chain chainFound)
  apart := owned.apart
  inside := owned.inside

/-- A block outside the free lists is none of the free blocks. -/
theorem not_free (owned : Owned alloc chains others) {area : Area} (member : area ∈ others)
    (positive : 0 < area.size) {index : Nat} {chain : List Nat}
    (stored : chains[index]? = some chain) : area.base ∉ chain := by
  intro inChain
  have isFree := mem_freeAreas 0 index stored inChain
  have apart := (List.pairwise_append.mp owned.apart).2.2 _ isFree area member
  unfold Area.Apart align at apart
  dsimp only at apart
  omega

/-- Blocks move from other owners to the front of a free list. -/
theorem install {index : Nat} {chain blocks : List Nat} {head : Ptr} {links : Nat → Ptr}
    (owned : Owned alloc chains
      ((blocks.map fun block => ⟨block, (index + 1) * align⟩) ++ others))
    (stored : chains[index]? = some chain)
    (threaded : Threaded links head (blocks ++ chain))
    (same : ∀ address, address ∉ blocks → links address = alloc.links address) :
    Owned { alloc with freeList := alloc.freeList.set index head, links := links }
      (chains.set index (blocks ++ chain)) others where
  listLength := by rw [List.length_set]; exact owned.listLength
  chainLength := by rw [List.length_set]; exact owned.chainLength
  threaded := by
    intro other otherHead otherChain headFound chainFound
    rcases Nat.decEq index other with different | equal
    · rw [List.getElem?_set_ne different] at headFound chainFound
      apply (owned.threaded other otherHead otherChain headFound chainFound).congr
      intro block member
      apply same
      intro inBlocks
      have isOther : (⟨block, (index + 1) * align⟩ : Area) ∈
          (blocks.map fun block => (⟨block, (index + 1) * align⟩ : Area)) ++ others :=
        List.mem_append_left _ (List.mem_map_of_mem inBlocks)
      exact owned.not_free isOther (Nat.mul_pos (Nat.succ_pos _) (by decide)) chainFound member
    · subst equal
      have headWithin := (List.getElem?_eq_some_iff.mp headFound).1
      have chainWithin := (List.getElem?_eq_some_iff.mp chainFound).1
      rw [List.length_set] at headWithin chainWithin
      rw [List.getElem?_set_self headWithin] at headFound
      rw [List.getElem?_set_self chainWithin] at chainFound
      cases headFound
      cases chainFound
      exact threaded
  apart := by
    have moved := freeAreas_set_perm chains 0 index stored blocks
    rw [Nat.zero_add] at moved
    apply Area.apart_perm owned.apart
    refine List.Perm.trans ?_ (moved.symm.append_right others)
    rw [← List.append_assoc]
    exact List.perm_append_comm.append_right others
  inside := by
    intro area member
    have moved := freeAreas_set_perm chains 0 index stored blocks
    rw [Nat.zero_add] at moved
    apply owned.inside area
    rw [List.mem_append, moved.mem_iff] at member
    simp only [List.mem_append] at member ⊢
    tauto

/-- The first block of a free list gets another owner. -/
theorem take (owned : Owned alloc chains others) {index block : Nat}
    (found : alloc.freeList[index]? = some (some block)) :
    ∃ chain, chains[index]? = some (block :: chain) ∧
      Owned { alloc with freeList := alloc.freeList.set index (alloc.links block) }
        (chains.set index chain) (⟨block, (index + 1) * align⟩ :: others) := by
  have within := (List.getElem?_eq_some_iff.mp found).1
  rw [owned.listLength] at within
  rcases owned.chain_at within with ⟨head, chain, headFound, chainFound, threaded⟩
  rw [found] at headFound
  cases headFound
  cases chain with
  | nil => cases threaded
  | cons first rest =>
      have equal : some block = some first := threaded.1
      cases equal
      refine ⟨rest, chainFound, ?_⟩
      have chainWithin := (List.getElem?_eq_some_iff.mp chainFound).1
      have shorter : (chains.set index rest)[index]? = some rest :=
        List.getElem?_set_self chainWithin
      have back : (chains.set index rest).set index ([block] ++ rest) = chains := by
        rw [List.set_set]
        have self : chains[index] = block :: rest := (List.getElem?_eq_some_iff.mp chainFound).2
        have same := List.set_getElem_self chainWithin
        rwa [self] at same
      have moved := freeAreas_set_perm (chains.set index rest) 0 index shorter [block]
      rw [Nat.zero_add, back] at moved
      have same : (freeAreas 0 chains ++ others).Perm
          (freeAreas 0 (chains.set index rest) ++ ⟨block, (index + 1) * align⟩ :: others) :=
        (moved.append_right others).trans List.perm_middle.symm
      constructor
      · rw [List.length_set]
        exact owned.listLength
      · rw [List.length_set]
        exact owned.chainLength
      · intro other otherHead otherChain headFound otherFound
        rcases Nat.decEq index other with different | equal
        · rw [List.getElem?_set_ne different] at headFound otherFound
          exact owned.threaded other otherHead otherChain headFound otherFound
        · subst equal
          rw [List.getElem?_set_self (by rw [owned.listLength]; exact within)] at headFound
          rw [shorter] at otherFound
          cases headFound
          cases otherFound
          exact threaded.2
      · exact Area.apart_perm owned.apart same
      · intro area member
        exact owned.inside area (same.mem_iff.mpr member)

/-- `malloc` returns a region that is apart from all earlier ones. -/
theorem addRegion (owned : Owned alloc chains others) {region : Area}
    (fresh : ∀ other ∈ alloc.regions, Area.Apart region other) :
    Owned { alloc with regions := region :: alloc.regions } chains (region :: others) where
  listLength := owned.listLength
  chainLength := owned.chainLength
  threaded := owned.threaded
  apart := by
    refine Area.apart_perm (List.pairwise_cons.mpr ⟨?_, owned.apart⟩) List.perm_middle.symm
    intro area member
    rcases owned.inside area member with empty | ⟨other, otherMember, areaInside⟩
    · exact Or.inr (Or.inl empty)
    · exact (areaInside.apart (fresh other otherMember).symm).symm
  inside := by
    intro area member
    rcases List.mem_cons.mp (List.perm_middle.mem_iff.mp member) with isRegion | earlier
    · exact Or.inr ⟨region, List.mem_cons_self .., isRegion ▸ Area.Inside.refl region⟩
    · rcases owned.inside area earlier with empty | ⟨other, otherMember, areaInside⟩
      · exact Or.inl empty
      · exact Or.inr ⟨other, List.mem_cons_of_mem _ otherMember, areaInside⟩

/-- An empty area belongs to whoever wants it. -/
theorem addEmpty (owned : Owned alloc chains others) (base : Nat) :
    Owned alloc chains (⟨base, 0⟩ :: others) where
  listLength := owned.listLength
  chainLength := owned.chainLength
  threaded := owned.threaded
  apart := by
    apply Area.apart_perm (List.pairwise_cons.mpr ⟨?_, owned.apart⟩) List.perm_middle.symm
    intro area member
    exact Or.inl rfl
  inside := by
    intro area member
    rcases List.mem_cons.mp (List.perm_middle.mem_iff.mp member) with isEmpty | earlier
    · exact Or.inl (isEmpty ▸ rfl)
    · exact owned.inside area earlier

end Owned

end DataStructAlgorithm.DataStruct.DefaultAlloc
