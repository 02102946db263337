import DataStructAlgorithm.Foundation.Connectivity

/-! # Cycles through one vertex

A vertex is on a cycle when two of its edges lead to vertices that are joined by
edges which do not touch it. -/

namespace DataStructAlgorithm.Foundation

variable {Vertex : Type u} [DecidableEq Vertex]

def Touches (v : Vertex) (link : Vertex × Vertex) : Prop :=
  link.1 = v ∨ link.2 = v

instance (v : Vertex) (link : Vertex × Vertex) : Decidable (Touches v link) :=
  inferInstanceAs (Decidable (_ ∨ _))

def touching (v : Vertex) (links : List (Vertex × Vertex)) : List (Vertex × Vertex) :=
  links.filter fun link => Touches v link

def avoiding (v : Vertex) (links : List (Vertex × Vertex)) : List (Vertex × Vertex) :=
  links.filter fun link => ¬Touches v link

/-- The other end of an edge that touches `v`. -/
def far (v : Vertex) (link : Vertex × Vertex) : Vertex :=
  if link.1 = v then link.2 else link.1

def OnNoCycle (v : Vertex) (links : List (Vertex × Vertex)) : Prop :=
  (touching v links).Pairwise fun f g => ¬Joined (avoiding v links) (far v f) (far v g)

instance (v : Vertex) (links : List (Vertex × Vertex)) : Decidable (OnNoCycle v links) :=
  inferInstanceAs (Decidable (List.Pairwise _ _))

variable {v : Vertex} {links : List (Vertex × Vertex)}

theorem mem_touching {link : Vertex × Vertex} :
    link ∈ touching v links ↔ link ∈ links ∧ Touches v link := by
  simp [touching]

theorem mem_avoiding {link : Vertex × Vertex} :
    link ∈ avoiding v links ↔ link ∈ links ∧ ¬Touches v link := by
  simp [avoiding]

theorem avoiding_cons_of_touches {link : Vertex × Vertex} (touches : Touches v link) :
    avoiding v (link :: links) = avoiding v links :=
  List.filter_cons_of_neg (by simpa using touches)

theorem avoiding_cons_of_misses {link : Vertex × Vertex} (misses : ¬Touches v link) :
    avoiding v (link :: links) = link :: avoiding v links :=
  List.filter_cons_of_pos (by simpa using misses)

theorem avoiding_subset : avoiding v links ⊆ links :=
  List.filter_subset_self _

theorem joined_far {link : Vertex × Vertex} (member : link ∈ links) (touches : Touches v link) :
    Joined links v (far v link) := by
  rw [far]
  split
  · rename_i first
    rw [← first]
    exact Joined.of_mem member
  · rename_i other
    have second : link.2 = v := touches.resolve_left other
    rw [← second]
    exact (Joined.of_mem member).symm

theorem OnNoCycle.mono {fewer : List (Vertex × Vertex)} (none : OnNoCycle v links)
    (sublist : fewer.Sublist links) : OnNoCycle v fewer := by
  refine (List.Pairwise.sublist (sublist.filter _) none).imp ?_
  intro f g apart joined
  exact apart (joined.mono (sublist.filter _).subset)

/-- No vertex of an acyclic graph is on a cycle. -/
theorem Acyclic.onNoCycle (acyclic : Acyclic links) (v : Vertex) : OnNoCycle v links := by
  rw [OnNoCycle, List.pairwise_iff_forall_sublist]
  intro f g both joined
  have fTouches : Touches v f := (mem_touching.mp (both.subset (by simp))).2
  have gTouches : Touches v g := (mem_touching.mp (both.subset (by simp))).2
  have within : [f, g].Sublist links := both.trans List.filter_sublist
  rcases List.cons_sublist_iff.mp within with ⟨first, second, split, fMem, gSub⟩
  rcases List.append_of_mem (List.singleton_sublist.mp gSub) with ⟨middle, after, secondEq⟩
  have whole : links = (first ++ middle) ++ g :: after := by
    rw [split, secondEq, List.append_assoc]
  apply acyclic (first ++ middle) g after whole
  have kept : avoiding v links ⊆ (first ++ middle) ++ after := by
    intro link member
    rcases mem_avoiding.mp member with ⟨member, misses⟩
    rw [whole] at member
    simp only [List.mem_append, List.mem_cons] at member ⊢
    rcases member with member | equal | member
    · exact Or.inl member
    · rw [equal] at misses
      exact absurd gTouches misses
    · exact Or.inr member
  have fKept : f ∈ (first ++ middle) ++ after := by simp [fMem]
  have reaches := (joined_far fKept fTouches).trans (joined.mono kept)
  rw [far] at reaches
  split at reaches
  · rename_i equal
    rw [equal]
    exact reaches
  · rename_i other
    rw [gTouches.resolve_left other]
    exact reaches.symm

/-- The vertex `u` reaches `v` by an edge of `v`, after edges that avoid `v`. -/
def Meets (v : Vertex) (links : List (Vertex × Vertex)) (u : Vertex) : Prop :=
  u = v ∨ ∃ link ∈ links, Touches v link ∧ Joined (avoiding v links) u (far v link)

/-- A path that avoids `v` ends at `v` only if it starts there. -/
theorem eq_iff_of_avoiding {u w : Vertex} (joined : Joined (avoiding v links) u w) :
    u = v ↔ w = v := by
  induction joined with
  | rel first second member =>
      have misses := (mem_avoiding.mp member).2
      exact ⟨fun equal => absurd (Or.inl equal) misses, fun equal => absurd (Or.inr equal) misses⟩
  | refl => exact Iff.rfl
  | symm _ _ _ induction => exact induction.symm
  | trans _ _ _ _ _ first second => exact first.trans second

theorem Meets.of_joined {u w : Vertex} (meets : Meets v links u)
    (joined : Joined (avoiding v links) w u) : Meets v links w := by
  rcases meets with equal | ⟨link, member, touches, reaches⟩
  · exact Or.inl ((eq_iff_of_avoiding joined).mpr equal)
  · exact Or.inr ⟨link, member, touches, joined.trans reaches⟩

/-- A path avoids `v` or goes through it. -/
theorem joined_avoiding_or {u w : Vertex} (joined : Joined links u w) :
    Joined (avoiding v links) u w ∨ (Meets v links u ∧ Meets v links w) := by
  induction joined with
  | rel first second member =>
      by_cases touches : Touches v (first, second)
      · right
        by_cases start : first = v
        · refine ⟨Or.inl start, Or.inr ⟨_, member, touches, ?_⟩⟩
          simpa [far, start] using Joined.refl _ _
        · refine ⟨Or.inr ⟨_, member, touches, ?_⟩, Or.inl (touches.resolve_left start)⟩
          simpa [far, start] using Joined.refl _ _
      · exact Or.inl (Joined.of_mem (mem_avoiding.mpr ⟨member, touches⟩))
  | refl => exact Or.inl (Joined.refl _ _)
  | symm _ _ _ induction =>
      rcases induction with avoids | ⟨first, second⟩
      · exact Or.inl avoids.symm
      · exact Or.inr ⟨second, first⟩
  | trans _ _ _ _ _ firstPart secondPart =>
      rcases firstPart with avoids | ⟨first, middle⟩
      · rcases secondPart with avoidsToo | ⟨middle, second⟩
        · exact Or.inl (avoids.trans avoidsToo)
        · exact Or.inr ⟨middle.of_joined avoids, second⟩
      · rcases secondPart with avoids | ⟨_, second⟩
        · exact Or.inr ⟨first, middle.of_joined avoids.symm⟩
        · exact Or.inr ⟨first, second⟩

/-- When `v` is on no cycle, an edge whose ends are joined already neither touches
`v` nor needs it. -/
theorem OnNoCycle.avoids {before after : List (Vertex × Vertex)} {link : Vertex × Vertex}
    (none : OnNoCycle v (before ++ link :: after)) (noLoop : link.1 ≠ link.2)
    (joined : Joined before link.1 link.2) :
    ¬Touches v link ∧ Joined (avoiding v before) link.1 link.2 := by
  have split : touching v (before ++ link :: after) =
      touching v before ++ touching v (link :: after) := List.filter_append ..
  have grows : avoiding v before ⊆ avoiding v (before ++ link :: after) := by
    rw [avoiding, avoiding, List.filter_append]
    exact List.subset_append_left _ _
  have pairs := none
  rw [OnNoCycle, split, List.pairwise_append] at pairs
  by_cases touches : Touches v link
  · -- the other end of the edge would be joined to an earlier edge of `v`
    exfalso
    have reaches : Joined before v (far v link) := by
      rw [far]
      split
      · rename_i first
        rw [← first]
        exact joined
      · rename_i other
        rw [← touches.resolve_left other]
        exact joined.symm
    have notSame : far v link ≠ v := by
      rw [far]
      split
      · rename_i first
        rw [← first]
        exact noLoop.symm
      · assumption
    have meets : Meets v before (far v link) := by
      rcases joined_avoiding_or (v := v) reaches with avoids | ⟨_, meets⟩
      · exact absurd ((eq_iff_of_avoiding avoids).mp rfl) notSame
      · exact meets
    rcases meets with same | ⟨f, fMem, fTouches, fJoined⟩
    · exact notSame same
    · exact pairs.2.2 f (mem_touching.mpr ⟨fMem, fTouches⟩) link
        (mem_touching.mpr ⟨List.mem_cons_self .., touches⟩) (fJoined.mono grows).symm
  · refine ⟨touches, ?_⟩
    rcases joined_avoiding_or (v := v) joined with avoids | ⟨first, second⟩
    · exact avoids
    · rcases first with equal | ⟨f, fMem, fTouches, fJoined⟩
      · exact absurd (Or.inl equal) touches
      · rcases second with equal | ⟨g, gMem, gTouches, gJoined⟩
        · exact absurd (Or.inr equal) touches
        · by_cases same : f = g
          · subst same
            exact fJoined.trans gJoined.symm
          · -- two edges of `v` would be joined through the new edge
            have symmetric : Std.Symm fun f g => ¬Joined (avoiding v (before ++ link :: after))
                (far v f) (far v g) := ⟨fun _ _ apart joined => apart joined.symm⟩
            have apart := List.Pairwise.forall pairs.1 (mem_touching.mpr ⟨fMem, fTouches⟩)
              (mem_touching.mpr ⟨gMem, gTouches⟩) same
            have new : Joined (avoiding v (before ++ link :: after)) link.1 link.2 :=
              Joined.of_mem (mem_avoiding.mpr ⟨by simp, touches⟩)
            exact absurd ((fJoined.mono grows).symm.trans (new.trans (gJoined.mono grows))) apart

end DataStructAlgorithm.Foundation
