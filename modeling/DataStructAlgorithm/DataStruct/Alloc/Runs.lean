import DataStructAlgorithm.DataStruct.Alloc.Calls
import DataStructAlgorithm.DataStruct.Alloc.Refills
import DataStructAlgorithm.Foundation.Transition

/-! # Runs of the allocator

A client allocates blocks, writes to them and gives them back, and `malloc` answers
as it likes. -/

namespace DataStructAlgorithm.DataStruct.DefaultAlloc

open Foundation

/-- The allocator and the blocks that the client has, with the sizes it asked for. -/
structure Session where
  alloc : DefaultAlloc
  live : List (Nat × Nat)

inductive Action
  | allocate (n : Nat) (answers : List (Option Nat))
  | deallocate (address n : Nat)
  | write (links : Nat → Ptr)

namespace Session

def initial : Session := ⟨DefaultAlloc.initial, []⟩

/-- A block that could not be allocated is not added to those of the client. -/
def act (session : Session) : Action → Outcome Session
  | .allocate n answers => do
      let (result, alloc, _) ← session.alloc.allocate n answers
      pure ⟨alloc, (result.toList.map fun block => (block, n)) ++ session.live⟩
  | .deallocate address n => do
      let alloc ← session.alloc.deallocate address n
      pure ⟨alloc, session.live.erase (address, n)⟩
  | .write links => pure { session with alloc := { session.alloc with links := links } }

/-- The client asks for small blocks, gives back what it has, and writes to its own
blocks only. -/
def Permitted (session : Session) : Action → Prop
  | .allocate n _ => 1 ≤ n ∧ n ≤ maxBytes
  | .deallocate address n => 1 ≤ n ∧ n ≤ maxBytes ∧ (address, n) ∈ session.live
  | .write links => ∀ address, (∀ block ∈ session.live,
      Area.Apart ⟨address, align⟩ ⟨block.1, roundUp block.2⟩) →
        links address = session.alloc.links address

/-- The action does not bring `ChunkAlloc` to its second case. -/
def Spared (session : Session) : Action → Prop
  | .allocate n answers => session.alloc.freeList[freeListIndex n]? = some none →
      ¬TakesSecondCase session.alloc (roundUp n) answers
  | .deallocate _ _ => True
  | .write _ => True

/-- The invariant of a session. -/
structure Sound (session : Session) : Prop where
  formed : PoolFormed session.alloc
  separate : Separate session.alloc session.live

theorem initial_sound : Sound initial where
  formed := ⟨Nat.le_refl 0, ⟨0, rfl⟩⟩
  separate := by
    refine ⟨List.replicate nFreeLists [], rfl, rfl, ?_, ?_, ?_⟩
    · intro index head chain headFound chainFound
      have headMember := List.mem_of_getElem? headFound
      have chainMember := List.mem_of_getElem? chainFound
      cases List.eq_of_mem_replicate headMember
      cases List.eq_of_mem_replicate chainMember
      rfl
    · exact List.pairwise_singleton ..
    · intro area member
      cases List.mem_singleton.mp member
      exact Or.inl rfl

theorem act_sound {session : Session} {action : Action} (sound : Sound session)
    (permitted : Permitted session action) (spared : Spared session action) :
    ∃ after, session.act action = .ok after ∧ Sound after := by
  cases action with
  | allocate n answers =>
      rcases allocate_spec answers sound.formed permitted.1 permitted.2 spared sound.separate with
        ⟨result, after, rest, allocated, formed, separate⟩
      exact ⟨_, by rw [act, allocated]; rfl, formed, separate⟩
  | deallocate address n =>
      rcases deallocate_spec sound.formed permitted.1 permitted.2.1 permitted.2.2
          sound.separate with ⟨after, returned, formed, separate⟩
      exact ⟨_, by rw [act, returned]; rfl, formed, separate⟩
  | write links =>
      rcases sound.separate with ⟨chains, owned⟩
      refine ⟨_, rfl, ⟨sound.formed.ends, sound.formed.aligned⟩, chains, ?_⟩
      apply owned.relink
      intro index chain stored block inChain
      apply permitted
      intro liveBlock member
      have isFree := mem_freeAreas 0 index stored inChain
      have isLive : (⟨liveBlock.1, roundUp liveBlock.2⟩ : Area) ∈
          session.live.map fun block => ⟨block.1, roundUp block.2⟩ := List.mem_map_of_mem member
      have apart := (List.pairwise_append.mp owned.apart).2.2 _ isFree _
        (List.mem_cons_of_mem _ isLive)
      refine Area.Inside.apart ?_ apart
      right
      unfold align
      dsimp only
      omega

/-- As long as no call comes to the second case of `ChunkAlloc`, every sequence of
calls returns, and the owners of the memory stay apart. -/
theorem run_separate (actions : List Action)
    (permitted : EveryStep act Permitted initial actions)
    (spared : EveryStep act Spared initial actions) :
    ∃ session, runAll act initial actions = .ok session ∧
      Separate session.alloc session.live := by
  rcases runAll_total Sound (fun session action sound allowed => act_sound sound allowed.1 allowed.2)
      actions initial initial_sound (permitted.and spared) with ⟨session, ran, sound⟩
  exact ⟨session, ran, sound.separate⟩

/-- A block that is given back is the next one of its size. -/
theorem run_separate_reuse :
    ∃ session, runAll act initial [.allocate 8 [some 1000], .deallocate 1000 8, .allocate 8 []] =
      .ok session ∧ Separate session.alloc session.live :=
  run_separate _
    (.cons rfl (by decide : 1 ≤ 8 ∧ 8 ≤ maxBytes)
      (.cons rfl ⟨by decide, by decide, List.mem_cons_self ..⟩
        (.cons rfl (by decide : 1 ≤ 8 ∧ 8 ≤ maxBytes) trivial)))
    (.cons rfl (fun _ => by decide) (.cons rfl trivial
      (.cons rfl (fun _ => by decide) trivial)))

/-- The block of 16 bytes that the second case returns begins where the only region
ends. -/
theorem run_second_case_outside :
    EveryStep act Permitted initial [.allocate 8 [some 1000], .allocate 16 []] ∧
      ∃ session, runAll act initial [.allocate 8 [some 1000], .allocate 16 []] = .ok session ∧
        ¬Separate session.alloc session.live := by
  refine ⟨.cons rfl (by decide : 1 ≤ 8 ∧ 8 ≤ maxBytes)
    (.cons rfl (by decide : 1 ≤ 16 ∧ 16 ≤ maxBytes) trivial), _, rfl, ?_⟩
  rintro ⟨chains, owned⟩
  have inside := owned.inside ⟨1320, 16⟩
    (List.mem_append_right _ (List.mem_cons_of_mem _ (List.mem_cons_self ..)))
  rcases inside with empty | ⟨region, member, insideRegion⟩
  · cases empty
  · have regionEq : region = ⟨1000, 320⟩ := List.mem_singleton.mp member
    subst regionEq
    unfold Area.Inside at insideRegion
    exact absurd insideRegion (by decide)

end Session

end DataStructAlgorithm.DataStruct.DefaultAlloc

/-! ## The indices of the free lists

The index for no bytes wraps around, and so does not stand for a list. Both calls divide the
sizes at the same bound, but `Deallocate` goes on with a block of the first level. -/

namespace DataStructAlgorithm.DataStruct.DefaultAlloc

open Foundation

/-! ## The index of a size -/

theorem freeListIndex_zero : nFreeLists ≤ freeListIndex 0 := by
  decide

/-- A large size has no list, even if its rounding overflows. -/
theorem freeListIndex_large {n : Nat} (large : maxBytes < n) (isSize : n < 2 ^ 64) :
    nFreeLists ≤ freeListIndex n := by
  rw [maxBytes] at large
  rw [freeListIndex, sizeT, sizeSub, align, nFreeLists, maxBytes, align]
  rcases Nat.lt_or_ge (n + 8 - 1) (2 ^ 64) with fits | wraps
  · rw [Nat.mod_eq_of_lt fits, if_pos (by omega)]
    omega
  · rw [if_neg (by omega)]
    omega

theorem pushBlock_outOfRange {alloc : DefaultAlloc} {address n : Nat}
    (lists : alloc.freeList.length = nFreeLists) (outside : nFreeLists ≤ freeListIndex n) :
    alloc.pushBlock address n = .error .outOfRange := by
  have missing : alloc.freeList[freeListIndex n]? = none :=
    List.getElem?_eq_none (by rw [lists]; exact outside)
  rw [pushBlock, readAt, missing]
  rfl

/-! ## One call -/

section Calls

variable {alloc : DefaultAlloc} {n : Nat}

theorem blockSize_roundUp (positive : 0 < n) (small : n ≤ maxBytes) : BlockSize (roundUp n) := by
  refine ⟨?_, dvd_roundUp n, roundUp_le small⟩
  rw [roundUp_eq_index positive (Nat.lt_of_le_of_lt small (by decide))]
  exact Nat.mul_pos (Nat.succ_pos _) (by decide)

/-- `Refill` returns and leaves a formed state, or follows a null pointer. -/
theorem refill_formed (formed : Formed alloc) (blocks : BlockSize n)
    (answers : List (Option Nat)) :
    alloc.refill n answers = .error .nullPointer ∨
      ∃ answered, alloc.refill n answers = .ok answered ∧ Formed answered.2.1 := by
  have small := blocks.small
  rw [maxBytes] at small
  rcases counted_spec 1 answers formed blocks (show 1 ≤ 20 by decide) (by omega) with
    ⟨⟨supply, supplied, rest⟩, ran, counted, lists⟩
  have few : CountFits alloc n 20 := fun short available =>
    countFits_of_lt blocks.positive 20 (by omega) short available
  have kept := counted.mpr few
  cases supply with
  | none =>
      refine Or.inr ⟨(none, supplied, rest), ?_, lists, kept⟩
      rw [refill, ran]
      rfl
  | some pair =>
      rcases pair with ⟨chunk, nobjs⟩
      rcases kept with ⟨⟨one, _⟩, pool⟩
      rcases Nat.eq_or_lt_of_le one with rfl | several
      · refine Or.inr ⟨(some chunk, supplied, rest), ?_, lists, pool⟩
        rw [refill, ran]
        rfl
      · have linked := refill_eq ran several
        rcases Nat.eq_or_lt_of_le several with rfl | more
        · left
          rw [linked, linkBlocks_two lists blocks]
          rfl
        · rcases linkBlocks_more chunk lists blocks more with
            ⟨after, made, _, sameLists, samePool⟩
          refine Or.inr ⟨(some chunk, after, rest), ?_, sameLists, samePool pool⟩
          rw [linked, made]
          rfl

/-- Nothing has changed but the regions that `malloc` has returned. -/
def SameLists (alloc after : DefaultAlloc) : Prop := after = { alloc with regions := after.regions }

theorem SameLists.formed {after : DefaultAlloc} (same : SameLists alloc after)
    (formed : Formed alloc) : Formed after := by
  rw [same]
  exact ⟨formed.lists, formed.pool.ends, formed.pool.aligned⟩

theorem allocate_large (large : maxBytes < n) (answers : List (Option Nat)) :
    ∃ answered, alloc.allocate n answers = .ok answered ∧ SameLists alloc answered.2.1 := by
  rw [allocate, if_pos large, firstLevelAllocate]
  rcases malloc_cases alloc n answers with ⟨base, rest, _, answer⟩ | ⟨rest, answer⟩
  · exact ⟨_, rfl, by rw [answer]; rfl⟩
  · exact ⟨_, rfl, by rw [answer]; rfl⟩

theorem allocate_small (formed : Formed alloc) (positive : 0 < n) (small : n ≤ maxBytes)
    (answers : List (Option Nat)) :
    alloc.allocate n answers = .error .nullPointer ∨
      ∃ answered, alloc.allocate n answers = .ok answered ∧ Formed answered.2.1 := by
  have within : freeListIndex n < alloc.freeList.length := by
    rw [formed.lists]
    exact freeListIndex_lt positive small
  rw [allocate, if_neg (Nat.not_lt.mpr small), readAt_of_lt within, Outcome.ok_bind]
  cases alloc.freeList[freeListIndex n] with
  | none => exact refill_formed formed (blockSize_roundUp positive small) answers
  | some block =>
      right
      dsimp only
      rw [writeAt_of_lt _ within]
      refine ⟨_, rfl, ?_, formed.pool.ends, formed.pool.aligned⟩
      exact List.length_set.trans formed.lists

theorem allocate_zero (formed : Formed alloc) (answers : List (Option Nat)) :
    alloc.allocate 0 answers = .error .outOfRange := by
  have missing : alloc.freeList[freeListIndex 0]? = none := by
    apply List.getElem?_eq_none
    rw [formed.lists]
    exact freeListIndex_zero
  rw [allocate, if_neg (by decide), readAt, missing]
  rfl

theorem pushBlock_formed {address : Nat} {after : DefaultAlloc} (formed : Formed alloc)
    (pushed : alloc.pushBlock address n = .ok after) : Formed after := by
  rcases Outcome.bind_eq_ok pushed with ⟨head, _, rest⟩
  rcases Outcome.bind_eq_ok rest with ⟨freeList, written, made⟩
  cases made
  refine ⟨?_, formed.pool.ends, formed.pool.aligned⟩
  rw [(writeAt_eq_ok written).2, List.length_set]
  exact formed.lists

theorem deallocate_small (address : Nat) (formed : Formed alloc) (positive : 0 < n)
    (small : n ≤ maxBytes) : ∃ after, alloc.deallocate address n = .ok after := by
  have within : freeListIndex n < alloc.freeList.length := by
    rw [formed.lists]
    exact freeListIndex_lt positive small
  rcases pushBlock_eq address within with ⟨links, pushed⟩
  exact ⟨_, by rw [deallocate, if_neg (Nat.not_lt.mpr small), pushed]⟩

/-- The state before the block is put on a list. -/
theorem formed_freed (formed : Formed alloc) (address : Nat) :
    Formed (if maxBytes < n then alloc.free address else alloc) := by
  split
  · exact ⟨formed.lists, formed.pool.ends, formed.pool.aligned⟩
  · exact formed

theorem deallocate_outside {address : Nat} (formed : Formed alloc)
    (outside : nFreeLists ≤ freeListIndex n) :
    alloc.deallocate address n = .error .outOfRange :=
  pushBlock_outOfRange (formed_freed formed address).lists outside

end Calls

/-! ## Reachable states -/

theorem initial_formed : Formed initial := ⟨rfl, Nat.le_refl 0, ⟨0, rfl⟩⟩

theorem Session.act_formed {session after : Session} {action : Action}
    (formed : Formed session.alloc) (acted : session.act action = .ok after) :
    Formed after.alloc := by
  cases action with
  | allocate n answers =>
      rcases Outcome.bind_eq_ok acted with ⟨answered, allocated, made⟩
      cases made
      rcases Nat.lt_or_ge maxBytes n with large | small
      · rcases allocate_large large answers with ⟨other, returned, same⟩
        cases allocated.symm.trans returned
        exact same.formed formed
      · rcases Nat.eq_zero_or_pos n with rfl | positive
        · cases allocated.symm.trans (allocate_zero formed answers)
        · rcases allocate_small formed positive small answers with fault | ⟨other, returned, kept⟩
          · cases allocated.symm.trans fault
          · cases allocated.symm.trans returned
            exact kept
  | deallocate address n =>
      rcases Outcome.bind_eq_ok acted with ⟨alloc, returned, made⟩
      cases made
      exact pushBlock_formed (formed_freed formed address) returned
  | write links =>
      cases acted
      exact ⟨formed.lists, formed.pool.ends, formed.pool.aligned⟩

theorem Session.reached_formed {actions : List Action} {session : Session}
    (reached : runAll act initial actions = .ok session) : Formed session.alloc := by
  have every : EveryStep act (fun _ _ => True) initial actions :=
    .of_mem (fun _ _ _ => trivial) initial
  exact runAll_keeps (fun session => Formed session.alloc)
    (fun _ _ _ formed _ acted => act_formed formed acted) actions initial session
    initial_formed every reached

/-- `Allocate` uses an index outside the lists for no bytes only, and `Deallocate` for every
size that has no list, whatever has been called before. -/
theorem Session.indices_within_iff (actions : List Action) {session : Session}
    (reached : runAll act initial actions = .ok session) (n : Nat) (isSize : n < 2 ^ 64)
    (answers : List (Option Nat)) (address : Nat) :
    (session.alloc.allocate n answers ≠ .error .outOfRange ∧
        (maxBytes < n → ∃ answered, session.alloc.allocate n answers = .ok answered ∧
          SameLists session.alloc answered.2.1) ↔ n ≠ 0) ∧
    (session.alloc.deallocate address n ≠ .error .outOfRange ∧
        (maxBytes < n → ∃ after, session.alloc.deallocate address n = .ok after ∧
          SameLists session.alloc after) ↔ 1 ≤ n ∧ n ≤ maxBytes) := by
  have formed := reached_formed reached
  constructor
  · constructor
    · rintro ⟨within, _⟩ rfl
      exact within (allocate_zero formed answers)
    · intro positive
      refine ⟨?_, fun large => allocate_large large answers⟩
      rcases Nat.lt_or_ge maxBytes n with large | small
      · rcases allocate_large large answers with ⟨answered, returned, _⟩
        rw [returned]
        exact fun fault => by cases fault
      · rcases allocate_small formed (Nat.pos_of_ne_zero positive) small answers with
          fault | ⟨answered, returned, _⟩
        · rw [fault]
          decide
        · rw [returned]
          exact fun fault => by cases fault
  · constructor
    · rintro ⟨within, _⟩
      by_contra outside
      apply within
      apply deallocate_outside formed
      rcases Nat.eq_zero_or_pos n with rfl | positive
      · exact freeListIndex_zero
      · exact freeListIndex_large (by omega) isSize
    · rintro ⟨positive, small⟩
      rcases deallocate_small address formed positive small with ⟨after, returned⟩
      refine ⟨?_, fun large => ?_⟩
      · rw [returned]
        exact fun fault => by cases fault
      · omega

theorem Session.indices_within_initial :
    (initial.alloc.allocate 200 [none] ≠ .error .outOfRange ∧
        (maxBytes < 200 → ∃ answered, initial.alloc.allocate 200 [none] = .ok answered ∧
          SameLists initial.alloc answered.2.1) ↔ 200 ≠ 0) ∧
    (initial.alloc.deallocate 1000 200 ≠ .error .outOfRange ∧
        (maxBytes < 200 → ∃ after, initial.alloc.deallocate 1000 200 = .ok after ∧
          SameLists initial.alloc after) ↔ 1 ≤ 200 ∧ 200 ≤ maxBytes) :=
  indices_within_iff [] rfl 200 (by decide) [none] 1000

/-- A request for no bytes, and a large block that is given back. -/
theorem Session.indices_outside :
    runAll act initial [.allocate 0 []] = .error .outOfRange ∧
      runAll act initial [.allocate 200 [some 1000], .deallocate 1000 200] =
        .error .outOfRange := by
  decide

end DataStructAlgorithm.DataStruct.DefaultAlloc
