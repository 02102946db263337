import DataStructAlgorithm.HTTPD.Relay

/-! # When `exec_cgi` comes to an end

The two processes always come to rest. Whether that is the end of `exec_cgi` depends on the
program: the father writes the whole body before it reads any output, it is killed when the
program exits before that, and its end of the pipe stays open until the program has exited. -/

namespace DataStructAlgorithm.HTTPD

open Foundation

/-- A bound on the steps of the father, but for the bytes that it has still to read. -/
def Father.work (unfed : Nat) : Father → Nat
  | .starting => 2 * unfed + 5
  | .receiving _ _ => 2 * unfed + 4
  | .writing _ _ => 2 * unfed + 3
  | .reading => 3
  | .sending _ => 4
  | .waiting => 2
  | .done => 1
  | .killed => 0

def Child.work (remaining : List Byte) : Child → Nat
  | .starting program => program.stepsOn remaining + 1
  | .running program => program.stepsOn remaining
  | .ended => 0

namespace Relay

/-- A bound on the steps that are left. -/
def work (relay : Relay) : Nat :=
  relay.father.work relay.unfed.length + relay.child.work relay.remaining +
    2 * (relay.output ++ relay.child.rest.outputOn relay.remaining).length

section Work

variable {capacity : Nat} {relay after : Relay} {sent : List Byte}

theorem FatherStepped.child_work (stepped : FatherStepped capacity relay after sent) :
    after.child.work after.remaining = relay.child.work relay.remaining := by
  rw [stepped.child_eq]
  rcases stepped.remaining_eq with same | ⟨_, ended⟩
  · rw [same]
  · rw [ended]
    rfl

theorem FatherStepped.work_lt (stepped : FatherStepped capacity relay after sent) :
    after.work < relay.work := by
  have sameChild := stepped.child_work
  have sameOutput := stepped.outputOn_eq
  have bound : after.father.work after.unfed.length + 2 * after.output.length <
      relay.father.work relay.unfed.length + 2 * relay.output.length := by
    cases stepped with
    | greet starting =>
        simp only [unfed, starting, bodyOf, Father.work, Int.natCast_zero, Int.sub_zero]
        omega
    | repeats receiving more closed =>
        simp only [unfed, receiving, closed, Father.work, toNat_receiving more, padded]
        omega
    | receive receiving more front =>
        simp only [unfed, receiving, front, Father.work, toNat_receiving more, padded]
        omega
    | fed receiving whole =>
        simp only [unfed, receiving, Father.work]
        omega
    | kill writing ended =>
        simp only [writing, Father.work]
        omega
    | feed writing reads room =>
        simp only [unfed, writing, Father.work, List.length_cons]
        omega
    | read reading front =>
        simp only [reading, front, Father.work, List.length_cons]
        omega
    | close reading empty ended =>
        simp only [reading, Father.work]
        omega
    | send sending =>
        simp only [sending, Father.work]
        omega
    | reap waiting ended =>
        simp only [waiting, Father.work]
        omega
  rw [Relay.work, Relay.work, List.length_append, List.length_append, sameChild, sameOutput]
  omega

theorem ChildStepped.unfed_eq (stepped : ChildStepped capacity relay after sent) :
    after.unfed = relay.unfed := by
  cases stepped <;> rfl

theorem ChildStepped.father_eq (stepped : ChildStepped capacity relay after sent) :
    after.father = relay.father := by
  cases stepped <;> rfl

theorem ChildStepped.work_lt (stepped : ChildStepped capacity relay after sent) :
    after.work < relay.work := by
  have sameUnfed := stepped.unfed_eq
  have sameFather := stepped.father_eq
  have bound : after.child.work after.remaining +
        2 * (after.output ++ after.child.rest.outputOn after.remaining).length <
      relay.child.work relay.remaining +
        2 * (relay.output ++ relay.child.rest.outputOn relay.remaining).length := by
    cases stepped with
    | greet starting =>
        simp only [starting, Child.work, Child.rest, remaining, unfed]
        omega
    | @read next byte rest running front =>
        have front : relay.remaining = byte :: (rest ++ relay.unfed) := by
          rw [remaining, front]
          rfl
        simp only [running, Child.work, Child.rest, front, ByteProgram.stepsOn,
          ByteProgram.outputOn]
        exact Nat.lt_of_lt_of_eq (Nat.lt_succ_self _) (Nat.succ_add _ _).symm
    | @write byte rest running room =>
        simp only [running, Child.work, Child.rest, ByteProgram.stepsOn, ByteProgram.outputOn,
          List.append_assoc, List.singleton_append]
        exact Nat.lt_of_lt_of_eq (Nat.lt_succ_self _) (Nat.succ_add _ _).symm
    | exit running =>
        simp only [running, Child.work, Child.rest, ByteProgram.stepsOn, ByteProgram.outputOn]
        omega
  rw [Relay.work, Relay.work, sameUnfed, sameFather]
  omega

theorem work_lt {process : Process} (stepped : relay.step capacity process = some (after, sent)) :
    after.work < relay.work := by
  cases process with
  | father => exact (stepped_of_fatherStep stepped).work_lt
  | child => exact (stepped_of_childStep stepped).work_lt

end Work

/-! ## Programs that complete -/

/-- The program of the child completes, and while the father feeds it, it does not hold him up. -/
structure Promising (capacity : Nat) (relay : Relay) : Prop where
  full : relay.output.length ≤ capacity
  feeding : relay.father.feeds = true →
    relay.child.rest.Completes capacity relay.output.length relay.remaining
  fed : relay.father.feeds = false → relay.child.rest.Ends relay.remaining
  reaping : relay.father.reaps = true → relay.child = .ended
  alive : relay.father ≠ .killed

theorem start_promising {capacity : Nat} {program : ByteProgram} {contentLen : Int}
    {sockfd : List Byte} (completes : program.Completes capacity 0 (bodyOf contentLen sockfd)) :
    Promising capacity (start program contentLen sockfd) where
  full := Nat.zero_le _
  feeding := fun _ => completes
  fed := nofun
  reaping := nofun
  alive := nofun

section Promising

variable {capacity : Nat} {relay after : Relay} {sent : List Byte}

theorem Promising.ends (promising : Promising capacity relay) :
    relay.child.rest.Ends relay.remaining := by
  cases feeds : relay.father.feeds with
  | true => exact (promising.feeding feeds).ends
  | false => exact promising.fed feeds

/-- A program that has exited in front of the father has read the whole body. -/
theorem Promising.remaining_eq_nil (promising : Promising capacity relay)
    (feeds : relay.father.feeds = true) (ended : relay.child = .ended) : relay.remaining = [] := by
  have completes := promising.feeding feeds
  rw [ended] at completes
  rcases completes with nothing | beyond
  · exact nothing
  · exact absurd promising.full (Nat.not_le.mpr beyond)

/-- A step of the father that feeds before and after it. -/
theorem Promising.feeds (promising : Promising capacity relay)
    (stepped : FatherStepped capacity relay after sent) (before : relay.father.feeds = true)
    (same : after.output = relay.output) (later : after.father.feeds = true)
    (working : after.father.reaps = false) : Promising capacity after where
  full := same ▸ promising.full
  feeding := by
    intro _
    rw [stepped.child_eq, same]
    rcases stepped.remaining_eq with sameRemaining | ⟨killed, _⟩
    · rw [sameRemaining]
      exact promising.feeding before
    · rw [killed] at later
      cases later
  fed := fun notFeeding => by
    rw [later] at notFeeding
    cases notFeeding
  reaping := fun reaps => by
    rw [working] at reaps
    cases reaps
  alive := fun killed => by
    rw [killed] at later
    cases later

/-- A step of the father after which he does not feed. -/
theorem Promising.reads (promising : Promising capacity relay)
    (stepped : FatherStepped capacity relay after sent)
    (shorter : after.output.length ≤ relay.output.length) (later : after.father.feeds = false)
    (reaping : after.father.reaps = true → relay.child = .ended)
    (alive : after.father ≠ .killed) : Promising capacity after where
  full := Nat.le_trans shorter promising.full
  feeding := fun feeds => by
    rw [later] at feeds
    cases feeds
  fed := by
    intro _
    rw [stepped.child_eq]
    rcases stepped.remaining_eq with same | ⟨killed, _⟩
    · rw [same]
      exact promising.ends
    · exact absurd killed alive
  reaping := fun reaps => stepped.child_eq.trans (reaping reaps)
  alive := alive

theorem Promising.father (promising : Promising capacity relay)
    (stepped : FatherStepped capacity relay after sent) : Promising capacity after := by
  cases stepped with
  | greet starting =>
      exact promising.feeds (.greet starting) (by rw [starting]; rfl) rfl rfl rfl
  | repeats receiving more closed =>
      exact promising.feeds (.repeats receiving more closed) (by rw [receiving]; rfl) rfl rfl rfl
  | receive receiving more front =>
      exact promising.feeds (.receive receiving more front) (by rw [receiving]; rfl) rfl rfl rfl
  | fed receiving whole =>
      exact promising.reads (.fed receiving whole) (Nat.le_refl _) rfl
        (fun reaps => (Bool.false_ne_true reaps).elim) (by simp)
  | kill writing ended =>
      have nothing := promising.remaining_eq_nil (by rw [writing]; rfl) (Child.eq_ended ended)
      rw [remaining, unfed, writing] at nothing
      exact absurd (List.append_eq_nil_iff.mp nothing).2 (List.cons_ne_nil _ _)
  | feed writing reads room =>
      exact promising.feeds (.feed writing reads room) (by rw [writing]; rfl) rfl rfl rfl
  | read reading front =>
      refine promising.reads (.read reading front) ?_ rfl
        (fun reaps => (Bool.false_ne_true reaps).elim) (by simp)
      rw [front]
      exact Nat.le_succ _
  | close reading empty ended =>
      exact promising.reads (.close reading empty ended) (Nat.le_refl _) rfl
        (fun _ => Child.eq_ended ended) (by simp)
  | send sending =>
      exact promising.reads (.send sending) (Nat.le_refl _) rfl
        (fun reaps => (Bool.false_ne_true reaps).elim) (by simp)
  | reap waiting ended =>
      exact promising.reads (.reap waiting ended) (Nat.le_refl _) rfl
        (fun _ => Child.eq_ended ended) (by simp)

theorem Promising.child (promising : Promising capacity relay)
    (stepped : ChildStepped capacity relay after sent) : Promising capacity after := by
  have sameFather := stepped.father_eq
  have going : relay.child ≠ .ended → relay.father.reaps = true → False :=
    fun going reaps => going (promising.reaping reaps)
  have completes := promising.feeding
  have ends := promising.fed
  cases stepped with
  | greet starting =>
      rw [starting] at completes ends
      exact ⟨promising.full, completes, ends,
        fun reaps => (going (by simp [starting]) reaps).elim, promising.alive⟩
  | read running front =>
      rw [running, remaining, front] at completes ends
      exact ⟨promising.full, completes, ends,
        fun reaps => (going (by simp [running]) reaps).elim, promising.alive⟩
  | write running room =>
      rw [running] at completes ends
      refine ⟨?_, ?_, ends, fun reaps => (going (by simp [running]) reaps).elim,
        promising.alive⟩
      · rw [List.length_append]
        exact room
      · intro feeds
        rw [List.length_append]
        exact (completes feeds).2
  | exit running =>
      rw [running] at completes ends
      exact ⟨promising.full, completes, ends,
        fun reaps => (going (by simp [running]) reaps).elim, promising.alive⟩

theorem Promising.step (promising : Promising capacity relay) {process : Process}
    (stepped : relay.step capacity process = some (after, sent)) : Promising capacity after := by
  cases process with
  | father => exact promising.father (stepped_of_fatherStep stepped)
  | child => exact promising.child (stepped_of_childStep stepped)

/-- A child that waits: for a byte in front of an empty pipe, or in front of a full one. -/
theorem child_atRest (still : relay.childStep capacity = none) :
    relay.child = .ended ∨
      (∃ next, relay.child = .running (.read next) ∧ relay.input = []) ∨
      ∃ byte rest, relay.child = .running (.write byte rest) ∧
        capacity ≤ relay.output.length := by
  rw [childStep] at still
  split at still
  · cases still
  · rename_i next running
    split at still
    · cases still
    · rename_i empty
      exact Or.inr (Or.inl ⟨next, running, empty⟩)
  · rename_i byte rest running
    split at still
    · cases still
    · rename_i noRoom
      exact Or.inr (Or.inr ⟨byte, rest, running, Nat.not_lt.mp noRoom⟩)
  · cases still
  · rename_i ended
    exact Or.inl ended

/-- The father at rest. -/
theorem father_atRest (still : relay.fatherStep capacity = none) :
    (∃ i c, relay.father = .writing i c ∧ relay.child.hasEnded = false ∧
        capacity ≤ relay.input.length) ∨
      (relay.father = .reading ∧ relay.output = [] ∧ relay.child.hasEnded = false) ∨
      (relay.father = .waiting ∧ relay.child.hasEnded = false) ∨
      relay.father = .done ∨ relay.father = .killed := by
  rw [fatherStep] at still
  split at still
  · cases still
  · split at still
    · split at still <;> cases still
    · cases still
  · rename_i i c writing
    split at still
    · cases still
    · rename_i reads
      split at still
      · cases still
      · rename_i noRoom
        exact Or.inl ⟨i, c, writing, Bool.eq_false_iff.mpr reads, Nat.not_lt.mp noRoom⟩
  · rename_i reading
    split at still
    · cases still
    · rename_i empty
      split at still
      · cases still
      · rename_i going
        exact Or.inr (Or.inl ⟨reading, empty, Bool.eq_false_iff.mpr going⟩)
  · cases still
  · rename_i waiting
    split at still
    · cases still
    · rename_i going
      exact Or.inr (Or.inr (Or.inl ⟨waiting, Bool.eq_false_iff.mpr going⟩))
  · rename_i done
    exact Or.inr (Or.inr (Or.inr (Or.inl done)))
  · rename_i killed
    exact Or.inr (Or.inr (Or.inr (Or.inr killed)))

theorem Promising.done (promising : Promising capacity relay) (room : 0 < capacity)
    (still : AtRest (Relay.step capacity) relay) : relay.father = .done := by
  have ends := promising.ends
  rcases father_atRest (still .father) with ⟨i, c, writing, going, noRoom⟩ |
    ⟨reading, empty, going⟩ | ⟨waiting, going⟩ | done | killed
  · rcases child_atRest (still .child) with ended | ⟨next, running, noInput⟩ |
      ⟨byte, rest, running, noSpace⟩
    · rw [ended] at going
      cases going
    · rw [noInput] at noRoom
      exact absurd room (Nat.not_lt.mpr noRoom)
    · -- both pipes are full
      have completes := promising.feeding (by rw [writing]; rfl)
      rw [running] at completes
      have fits := completes.1 (Nat.le_antisymm promising.full noSpace)
      rw [remaining, unfed, writing, List.length_append, List.length_cons] at fits
      omega
  · have nothing : relay.unfed = [] := by rw [unfed, reading]
    rcases child_atRest (still .child) with ended | ⟨next, running, noInput⟩ |
      ⟨byte, rest, running, noSpace⟩
    · rw [ended] at going
      cases going
    · rw [running, remaining, noInput, nothing] at ends
      exact ends.elim
    · rw [empty] at noSpace
      exact absurd room (Nat.not_lt.mpr noSpace)
  · rw [promising.reaping (by rw [waiting]; rfl)] at going
    cases going
  · exact done
  · exact absurd killed promising.alive

end Promising

/-! ## Programs that do not -/

/-- The father will not be done: he has been killed, or will be, or the child does not exit, or
both pipes are full or will be. -/
inductive Doomed (capacity : Nat) (relay : Relay) : Prop
  | killed (killed : relay.father = .killed)
  | deserted (feeds : relay.father.feeds = true) (ended : relay.child = .ended)
      (more : relay.unfed ≠ [])
  | endless (working : relay.father.reaps = false)
      (endless : ¬ relay.child.rest.Ends relay.remaining)
  | stuck {byte : Byte} {rest : ByteProgram} (feeds : relay.father.feeds = true)
      (running : relay.child = .running (.write byte rest))
      (full : relay.output.length = capacity) (within : relay.input.length ≤ capacity)
      (beyond : capacity < relay.remaining.length)

section Doomed

variable {capacity : Nat} {relay after : Relay} {sent : List Byte}

theorem Doomed.not_done (doomed : Doomed capacity relay) : relay.father ≠ .done := by
  intro done
  cases doomed with
  | killed killed =>
      rw [done] at killed
      cases killed
  | deserted feeds ended more =>
      rw [done] at feeds
      cases feeds
  | endless working endless =>
      rw [done] at working
      cases working
  | stuck feeds running full within beyond =>
      rw [done] at feeds
      cases feeds

theorem unfed_receiving {i : Nat} {c : Byte} (receiving : relay.father = .receiving i c) :
    relay.unfed = padded (relay.contentLen - i).toNat c relay.sockfd := by
  rw [unfed, receiving]

/-- The father feeds until he has written the whole body or is killed. -/
theorem FatherStepped.feeds_or (stepped : FatherStepped capacity relay after sent)
    (feeds : relay.father.feeds = true) :
    (after.father.feeds = true ∧ after.output = relay.output ∧ (after.input = relay.input ∨
        relay.child.hasEnded = false ∧ after.input.length ≤ capacity)) ∨
      after.father = .killed ∨ relay.unfed = [] := by
  cases stepped with
  | greet starting => exact Or.inl ⟨rfl, rfl, Or.inl rfl⟩
  | repeats receiving more closed => exact Or.inl ⟨rfl, rfl, Or.inl rfl⟩
  | receive receiving more front => exact Or.inl ⟨rfl, rfl, Or.inl rfl⟩
  | @fed i c receiving whole =>
      have none : (relay.contentLen - i).toNat = 0 := by omega
      refine Or.inr (Or.inr ?_)
      rw [unfed_receiving receiving, none, padded]
  | kill writing ended => exact Or.inr (Or.inl rfl)
  | feed writing reads room =>
      refine Or.inl ⟨rfl, rfl, Or.inr ⟨reads, ?_⟩⟩
      rw [List.length_append]
      exact room
  | read reading front =>
      rw [reading] at feeds
      cases feeds
  | close reading empty ended =>
      rw [reading] at feeds
      cases feeds
  | send sending =>
      rw [sending] at feeds
      cases feeds
  | reap waiting ended =>
      rw [waiting] at feeds
      cases feeds

theorem FatherStepped.not_killed (stepped : FatherStepped capacity relay after sent) :
    relay.father ≠ .killed := by
  intro killed
  cases stepped <;> simp_all only [reduceCtorEq]

theorem FatherStepped.reaps_eq (stepped : FatherStepped capacity relay after sent)
    (going : relay.child ≠ .ended) :
    after.father.reaps = false := by
  cases stepped with
  | close reading empty ended => exact absurd (Child.eq_ended ended) going
  | reap waiting ended => exact absurd (Child.eq_ended ended) going
  | _ => rfl

theorem Doomed.father (doomed : Doomed capacity relay)
    (stepped : FatherStepped capacity relay after sent) : Doomed capacity after := by
  cases doomed with
  | killed killed => exact absurd killed stepped.not_killed
  | deserted feeds ended more =>
      have sameChild := stepped.child_eq.trans ended
      rcases stepped.feeds_or feeds with ⟨later, _, same | ⟨going, _⟩⟩ | killed | nothing
      · refine .deserted later sameChild ?_
        rcases stepped.remaining_eq with sameRemaining | ⟨killed, _⟩
        · rw [remaining, remaining, same] at sameRemaining
          rw [List.append_cancel_left sameRemaining]
          exact more
        · rw [killed] at later
          cases later
      · rw [ended] at going
        cases going
      · exact .killed killed
      · exact absurd nothing more
  | endless working endless =>
      have going : relay.child ≠ .ended := by
        intro ended
        rw [ended] at endless
        exact endless trivial
      refine .endless (stepped.reaps_eq going) ?_
      rw [stepped.child_eq]
      rcases stepped.remaining_eq with same | ⟨_, ended⟩
      · rw [same]
        exact endless
      · exact absurd ended going
  | stuck feeds running full within beyond =>
      rcases stepped.feeds_or feeds with ⟨later, sameOutput, room⟩ | killed | nothing
      · refine .stuck later (stepped.child_eq.trans running) (sameOutput ▸ full) ?_ ?_
        · rcases room with same | ⟨_, fits⟩
          · exact same ▸ within
          · exact fits
        · rcases stepped.remaining_eq with same | ⟨killed, _⟩
          · rw [same]
            exact beyond
          · rw [killed] at later
            cases later
      · exact .killed killed
      · rw [remaining, nothing, List.append_nil] at beyond
        exact absurd beyond (Nat.not_lt.mpr within)

theorem Doomed.child (doomed : Doomed capacity relay)
    (stepped : ChildStepped capacity relay after sent) : Doomed capacity after := by
  cases doomed with
  | killed killed => exact .killed (stepped.father_eq.trans killed)
  | deserted feeds ended more =>
      cases stepped <;> simp_all only [reduceCtorEq]
  | endless working endless =>
      refine .endless (stepped.father_eq ▸ working) ?_
      cases stepped with
      | greet starting =>
          rw [starting] at endless
          exact endless
      | read running front =>
          rw [running, remaining, front] at endless
          exact endless
      | write running room =>
          rw [running] at endless
          exact endless
      | exit running =>
          rw [running] at endless
          exact absurd trivial endless
  | @stuck byte rest feeds running full within beyond =>
      cases stepped with
      | write other room => exact absurd room (Nat.not_lt.mpr (Nat.le_of_eq full.symm))
      | greet other => simp_all only [reduceCtorEq]
      | read other front => simp_all only [reduceCtorEq, Child.running.injEq]
      | exit other => simp_all only [reduceCtorEq, Child.running.injEq]

theorem Doomed.step (doomed : Doomed capacity relay) {process : Process}
    (stepped : relay.step capacity process = some (after, sent)) : Doomed capacity after := by
  cases process with
  | father => exact doomed.father (stepped_of_fatherStep stepped)
  | child => exact doomed.child (stepped_of_childStep stepped)

/-- From such a state the father can come to rest without being done. -/
theorem Doomed.exists_run (doomed : Doomed capacity relay) :
    ∃ processes final log, runSteps (Relay.step capacity) relay processes = some (final, log) ∧
      AtRest (Relay.step capacity) final ∧ final.father ≠ .done := by
  rcases exists_atRest work (fun _ _ _ _ => work_lt) relay with
    ⟨processes, final, log, ran, still⟩
  have last := runSteps_induction (fun _ => Doomed capacity)
    (fun _ _ _ _ _ doomed stepped => doomed.step stepped) processes [] relay final log doomed ran
  exact ⟨processes, final, log, ran, still, last.not_done⟩

/-- The father receives the next byte and writes it to the pipe. -/
theorem feed_next {i : Nat} {c byte : Byte} {rest : List Byte}
    (receiving : relay.father = .receiving i c) (front : relay.unfed = byte :: rest)
    (going : relay.child.hasEnded = false) (room : relay.input.length < capacity) :
    ∃ left, runSteps (Relay.step capacity) relay [.father, .father] =
        some ({ relay with sockfd := left, father := .receiving (i + 1) byte,
                           input := relay.input ++ [byte] }, [[], []]) ∧
      padded (relay.contentLen - (i + 1 : Nat)).toNat byte left = rest := by
  rw [unfed_receiving receiving] at front
  have more : (i : Int) < relay.contentLen := by
    refine Int.not_le.mp fun whole => ?_
    have none : (relay.contentLen - i).toNat = 0 := by omega
    rw [none, padded] at front
    cases front
  rw [toNat_receiving more] at front
  cases socket : relay.sockfd with
  | nil =>
      rw [socket, padded] at front
      rcases List.cons.inj front with ⟨rfl, rfl⟩
      refine ⟨[], ?_, rfl⟩
      simp only [runSteps, Relay.step, fatherStep, receiving, more, socket, going, room,
        Option.bind_eq_bind, Option.bind_some, Option.pure_def, if_true, Bool.false_eq_true,
        if_false]
  | cons first left =>
      rw [socket, padded] at front
      rcases List.cons.inj front with ⟨rfl, rfl⟩
      refine ⟨left, ?_, rfl⟩
      simp only [runSteps, Relay.step, fatherStep, receiving, more, socket, going, room,
        Option.bind_eq_bind, Option.bind_some, Option.pure_def, if_true, Bool.false_eq_true,
        if_false]

/-- While the father feeds, a child that is given every turn it can use runs into such a state
unless its program completes. -/
theorem exists_doomed (program : ByteProgram) (room : 0 < capacity) (relay : Relay) {i : Nat}
    {c : Byte} (receiving : relay.father = .receiving i c)
    (running : relay.child = .running program) (noInput : relay.input = [])
    (full : relay.output.length ≤ capacity)
    (fails : ¬ program.Completes capacity relay.output.length relay.unfed) :
    ∃ processes doomed log, runSteps (Relay.step capacity) relay processes = some (doomed, log) ∧
      Doomed capacity doomed := by
  have feeds : relay.father.feeds = true := by rw [receiving]; rfl
  have working : relay.father.reaps = false := by rw [receiving]; rfl
  have sameRemaining : relay.remaining = relay.unfed := by rw [remaining, noInput]; rfl
  induction program generalizing relay i c with
  | read next induction =>
      cases front : relay.unfed with
      | nil =>
          refine ⟨[], relay, [], rfl, .endless working ?_⟩
          rw [running, sameRemaining, front]
          exact id
      | cons byte rest =>
          rw [front] at fails
          rcases feed_next receiving front (by rw [running]; rfl) (by rw [noInput]; exact room) with
            ⟨left, fed, same⟩
          rw [noInput] at fed
          have read : runSteps (Relay.step capacity)
              { relay with sockfd := left, father := .receiving (i + 1) byte,
                           input := [] ++ [byte] } [.child] =
              some ({ relay with sockfd := left, father := .receiving (i + 1) byte, input := [],
                                 child := .running (next byte) }, [[]]) := by
            simp only [runSteps, Relay.step, childStep, running, List.nil_append,
              Option.bind_eq_bind, Option.bind_some, Option.pure_def]
          rcases induction byte { relay with sockfd := left, father := .receiving (i + 1) byte,
                                             input := [], child := .running (next byte) }
            rfl rfl rfl full (by rw [unfed_receiving rfl, same]; exact fails) rfl rfl rfl with
            ⟨processes, doomed, log, more, isDoomed⟩
          exact ⟨_, doomed, _, runSteps_append (runSteps_append fed read) more, isDoomed⟩
  | write byte rest induction =>
      by_cases space : relay.output.length < capacity
      · have ran : runSteps (Relay.step capacity) relay [.child] =
            some ({ relay with output := relay.output ++ [byte], child := .running rest },
              [[]]) := by
          simp only [runSteps, Relay.step, childStep, running, space, if_true,
            Option.bind_eq_bind, Option.bind_some, Option.pure_def]
        have failsRest : ¬ rest.Completes capacity (relay.output ++ [byte]).length relay.unfed := by
          intro completes
          rw [List.length_append] at completes
          exact fails ⟨fun isFull => absurd space (by omega), completes⟩
        rcases induction { relay with output := relay.output ++ [byte], child := .running rest }
          receiving rfl noInput (by rw [List.length_append]; exact space) failsRest feeds working
          sameRemaining with ⟨processes, doomed, log, more, isDoomed⟩
        exact ⟨_, doomed, _, runSteps_append ran more, isDoomed⟩
      · have isFull : relay.output.length = capacity := by omega
        refine ⟨[], relay, [], rfl, ?_⟩
        by_cases beyond : capacity < relay.remaining.length
        · exact .stuck feeds running isFull (by rw [noInput]; exact Nat.zero_le _) beyond
        · refine .endless working fun ends => fails ⟨fun _ => ?_, ?_⟩
          · rw [← sameRemaining]
            exact Nat.not_lt.mp beyond
          · rw [running, sameRemaining] at ends
            exact ByteProgram.Ends.completes ends (by omega)
  | exit =>
      have ran : runSteps (Relay.step capacity) relay [.child] =
          some ({ relay with child := .ended }, [[]]) := by
        simp only [runSteps, Relay.step, childStep, running, Option.bind_eq_bind,
          Option.bind_some, Option.pure_def]
      exact ⟨_, _, _, ran, .deserted feeds rfl fun nothing => fails (Or.inl nothing)⟩

/-- Where the program does not complete, some run comes to rest without the end of the father. -/
theorem exists_unfinished (room : 0 < capacity) {program : ByteProgram} {contentLen : Int}
    {sockfd : List Byte} (fails : ¬ program.Completes capacity 0 (bodyOf contentLen sockfd)) :
    ∃ processes final log,
      runSteps (Relay.step capacity) (start program contentLen sockfd) processes =
        some (final, log) ∧
      AtRest (Relay.step capacity) final ∧ final.father ≠ .done := by
  have greeted : runSteps (Relay.step capacity) (start program contentLen sockfd)
      [.father, .child] = some (⟨contentLen, sockfd, .receiving 0 0, .running program, [], []⟩,
        [statusLine, statusLine]) := rfl
  have failsNow : ¬ program.Completes capacity 0 (Relay.unfed
      ⟨contentLen, sockfd, .receiving 0 0, .running program, [], []⟩) := by
    rw [unfed_receiving rfl, Int.natCast_zero, Int.sub_zero]
    exact fails
  rcases exists_doomed program room ⟨contentLen, sockfd, .receiving 0 0, .running program, [], []⟩
    rfl rfl rfl (Nat.zero_le _) failsNow with ⟨first, doomed, log, ran, isDoomed⟩
  rcases isDoomed.exists_run with ⟨second, final, later, more, still, notDone⟩
  exact ⟨_, final, _, runSteps_append greeted (runSteps_append ran more), still, notDone⟩

end Doomed

theorem start_work (program : ByteProgram) (contentLen : Int) (sockfd : List Byte) :
    (start program contentLen sockfd).work =
      2 * (bodyOf contentLen sockfd).length + program.stepsOn (bodyOf contentLen sockfd) +
        2 * (program.outputOn (bodyOf contentLen sockfd)).length + 6 := by
  simp only [Relay.work, start, Father.work, Child.work, Child.rest, remaining, unfed,
    List.nil_append]
  omega

theorem delivered_of_completes {capacity : Nat} (room : 0 < capacity) {program : ByteProgram}
    {contentLen : Int} {sockfd : List Byte}
    (completes : program.Completes capacity 0 (bodyOf contentLen sockfd))
    {processes : List Process} {final : Relay} {log : List (List Byte)}
    (ran : runSteps (step capacity) (start program contentLen sockfd) processes =
      some (final, log)) (still : AtRest (step capacity) final) :
    final.father = .done ∧
      log.flatten = statusLine ++ statusLine ++ program.outputOn (bodyOf contentLen sockfd) := by
  have promising := runSteps_induction (fun _ => Promising capacity)
    (fun _ _ _ _ _ promising stepped => promising.step stepped) processes [] _ final log
    (start_promising completes) ran
  rcases consistent_run program contentLen sockfd processes final log ran with
    ⟨relayed, consistent⟩
  have done := promising.done room still
  exact ⟨done, consistent.delivered done⟩

theorem run_length {capacity : Nat} {program : ByteProgram} {contentLen : Int}
    {sockfd : List Byte} {processes : List Process} {final : Relay} {log : List (List Byte)}
    (ran : runSteps (step capacity) (start program contentLen sockfd) processes =
      some (final, log)) :
    processes.length ≤ 2 * (bodyOf contentLen sockfd).length +
      program.stepsOn (bodyOf contentLen sockfd) +
      2 * (program.outputOn (bodyOf contentLen sockfd)).length + 6 := by
  have bounded := runSteps_bounded work (fun _ => True) (fun _ => True)
    (fun _ _ _ _ _ _ stepped => ⟨trivial, work_lt stepped⟩) processes (fun _ _ => trivial)
    (start program contentLen sockfd) final log trivial ran
  rw [start_work] at bounded
  omega

/-! ## Without a body -/

section Unread

variable {capacity : Nat} {relay after : Relay} {sent : List Byte} {process : Process}

theorem FatherStepped.unread (stepped : FatherStepped capacity relay after sent)
    (nothing : relay.remaining = []) : after.remaining = [] := by
  have same := stepped.remaining_eq
  cases stepped with
  | kill writing ended =>
      rw [remaining, unfed, writing] at nothing
      exact absurd (List.append_eq_nil_iff.mp nothing).2 (List.cons_ne_nil _ _)
  | _ =>
      rcases same with same | ⟨killed, _⟩
      · exact same.trans nothing
      · cases killed

/-- What is never read is not in the pipe, and a child that wants to read it stays. -/
theorem step_unread (nothing : relay.remaining = [])
    (stepped : step capacity relay process = some (after, sent)) :
    after.remaining = [] ∧
      (¬ relay.child.rest.Ends [] → ¬ after.child.rest.Ends [] ∧
        (relay.father ≠ .done → after.father ≠ .done)) := by
  cases process with
  | father =>
      have stepped := stepped_of_fatherStep stepped
      refine ⟨stepped.unread nothing, fun waits => ⟨stepped.child_eq ▸ waits, fun _ done => ?_⟩⟩
      have going : relay.child ≠ .ended := by
        intro ended
        rw [ended] at waits
        exact waits trivial
      have reaps := stepped.reaps_eq going
      rw [done] at reaps
      cases reaps
  | child =>
      have stepped := stepped_of_childStep stepped
      rw [stepped.father_eq]
      cases stepped with
      | greet starting =>
          rw [starting]
          exact ⟨nothing, fun waits => ⟨waits, id⟩⟩
      | read running front =>
          rw [remaining, front] at nothing
          cases nothing
      | write running room =>
          rw [running]
          exact ⟨nothing, fun waits => ⟨waits, id⟩⟩
      | exit running =>
          rw [running]
          exact ⟨nothing, fun waits => absurd trivial waits⟩

end Unread

theorem bodyOf_nil {contentLen : Int} (none : contentLen ≤ 0) : bodyOf contentLen [] = [] := by
  rw [bodyOf, Int.toNat_of_nonpos none]
  rfl

section Bodiless

variable {capacity : Nat} {program : ByteProgram} {contentLen : Int} {processes : List Process}
  {final : Relay} {log : List (List Byte)}

/-- Without a body the program gets no byte, and one that reads keeps the father waiting. -/
theorem run_unread (none : contentLen ≤ 0)
    (ran : runSteps (step capacity) (start program contentLen []) processes = some (final, log)) :
    final.input = [] ∧ (¬ program.Ends [] → final.father ≠ .done) := by
  have kept := runSteps_induction (fun _ relay => relay.remaining = [] ∧
      (¬ program.Ends [] → ¬ relay.child.rest.Ends [] ∧ relay.father ≠ .done))
    (fun past relay process after sent kept stepped => by
      rcases step_unread kept.1 stepped with ⟨nothing, waits⟩
      refine ⟨nothing, fun reads => ?_⟩
      rcases kept.2 reads with ⟨stays, notDone⟩
      exact ⟨(waits stays).1, (waits stays).2 notDone⟩)
    processes [] (start program contentLen []) final log
    ⟨bodyOf_nil none, fun reads => ⟨reads, by simp [start]⟩⟩ ran
  exact ⟨(List.append_eq_nil_iff.mp kept.1).1, fun reads => (kept.2 reads).2⟩

/-- One that does not read is relayed. -/
theorem run_unreading (room : 0 < capacity) (none : contentLen ≤ 0) (ends : program.Ends [])
    (ran : runSteps (step capacity) (start program contentLen []) processes = some (final, log))
    (still : AtRest (step capacity) final) :
    final.father = .done ∧ log.flatten = statusLine ++ statusLine ++ program.outputOn [] := by
  have completes : program.Completes capacity 0 (bodyOf contentLen []) := by
    rw [bodyOf_nil none]
    exact ByteProgram.completes_nil.mpr ends
  have delivered := delivered_of_completes room completes ran still
  rw [bodyOf_nil none] at delivered
  exact delivered

end Bodiless

end Relay

end DataStructAlgorithm.HTTPD
