import DataStructAlgorithm.HTTPD.ExecCgi

/-! # What the client of `exec_cgi` is sent

In whatever order the two processes run, the client gets the status line twice and then what the
program writes for the body. Whether the processes always come to an end depends on the program:
the father does not read before it has written the whole body. -/

namespace DataStructAlgorithm.HTTPD

open Foundation

/-- Some bytes, as the loop of `recv` sees them: behind the last one it is repeated. -/
def padded : Nat → Byte → List Byte → List Byte
  | 0, _, _ => []
  | count + 1, c, [] => c :: padded count c []
  | count + 1, _, byte :: rest => byte :: padded count byte rest

/-- The bytes that the program is to get. -/
def bodyOf (contentLen : Int) (sockfd : List Byte) : List Byte :=
  padded contentLen.toNat 0 sockfd

/-- A father that has not written the whole body. -/
def Father.feeds : Father → Bool
  | .starting => true
  | .receiving _ _ => true
  | .writing _ _ => true
  | _ => false

/-- A byte that has been read and not been sent. -/
def Father.inHand : Father → List Byte
  | .sending c => [c]
  | _ => []

def Father.reaps : Father → Bool
  | .waiting => true
  | .done => true
  | _ => false

def Father.hasGreeted : Father → Bool
  | .starting => false
  | _ => true

def Child.hasGreeted : Child → Bool
  | .starting _ => false
  | _ => true

/-- What the child has still to do. -/
def Child.rest : Child → ByteProgram
  | .starting program => program
  | .running program => program
  | .ended => .exit

namespace Relay

/-- The part of the body that has not been written to the pipe. -/
def unfed (relay : Relay) : List Byte :=
  match relay.father with
  | .starting => bodyOf relay.contentLen relay.sockfd
  | .receiving i c => padded (relay.contentLen - i).toNat c relay.sockfd
  | .writing i c => c :: padded (relay.contentLen - (i + 1 : Nat)).toNat c relay.sockfd
  | _ => []

/-- The part of the body that the child has not read. -/
def remaining (relay : Relay) : List Byte := relay.input ++ relay.unfed

def greetings (relay : Relay) : List Byte :=
  (List.replicate (relay.father.hasGreeted.toNat + relay.child.hasGreeted.toNat) statusLine).flatten

/-! ## Steps -/

/-- What a step of the father does. -/
inductive FatherStepped (capacity : Nat) (relay : Relay) : Relay → List Byte → Prop
  | greet (starting : relay.father = .starting) :
      FatherStepped capacity relay { relay with father := .receiving 0 0 } statusLine
  | repeats {i : Nat} {c : Byte} (receiving : relay.father = .receiving i c)
      (more : (i : Int) < relay.contentLen) (closed : relay.sockfd = []) :
      FatherStepped capacity relay { relay with father := .writing i c } []
  | receive {i : Nat} {c byte : Byte} {rest : List Byte}
      (receiving : relay.father = .receiving i c) (more : (i : Int) < relay.contentLen)
      (front : relay.sockfd = byte :: rest) :
      FatherStepped capacity relay { relay with sockfd := rest, father := .writing i byte } []
  | fed {i : Nat} {c : Byte} (receiving : relay.father = .receiving i c)
      (whole : relay.contentLen ≤ i) :
      FatherStepped capacity relay { relay with father := .reading } []
  | kill {i : Nat} {c : Byte} (writing : relay.father = .writing i c)
      (ended : relay.child.hasEnded = true) :
      FatherStepped capacity relay { relay with father := .killed } []
  | feed {i : Nat} {c : Byte} (writing : relay.father = .writing i c)
      (reads : relay.child.hasEnded = false) (room : relay.input.length < capacity) :
      FatherStepped capacity relay
        { relay with input := relay.input ++ [c], father := .receiving (i + 1) c } []
  | read {c : Byte} {rest : List Byte} (reading : relay.father = .reading)
      (front : relay.output = c :: rest) :
      FatherStepped capacity relay { relay with output := rest, father := .sending c } []
  | close (reading : relay.father = .reading) (empty : relay.output = [])
      (ended : relay.child.hasEnded = true) :
      FatherStepped capacity relay { relay with father := .waiting } []
  | send {c : Byte} (sending : relay.father = .sending c) :
      FatherStepped capacity relay { relay with father := .reading } [c]
  | reap (waiting : relay.father = .waiting) (ended : relay.child.hasEnded = true) :
      FatherStepped capacity relay { relay with father := .done } []

/-- What a step of the child does. -/
inductive ChildStepped (capacity : Nat) (relay : Relay) : Relay → List Byte → Prop
  | greet {program : ByteProgram} (starting : relay.child = .starting program) :
      ChildStepped capacity relay { relay with child := .running program } statusLine
  | read {next : Byte → ByteProgram} {byte : Byte} {rest : List Byte}
      (running : relay.child = .running (.read next)) (front : relay.input = byte :: rest) :
      ChildStepped capacity relay { relay with input := rest, child := .running (next byte) } []
  | write {byte : Byte} {rest : ByteProgram}
      (running : relay.child = .running (.write byte rest))
      (room : relay.output.length < capacity) :
      ChildStepped capacity relay
        { relay with output := relay.output ++ [byte], child := .running rest } []
  | exit (running : relay.child = .running .exit) :
      ChildStepped capacity relay { relay with child := .ended } []

theorem stepped_of_fatherStep {capacity : Nat} {relay after : Relay} {sent : List Byte}
    (stepped : relay.fatherStep capacity = some (after, sent)) :
    FatherStepped capacity relay after sent := by
  rw [fatherStep] at stepped
  split at stepped
  · rename_i starting
    cases stepped
    exact .greet starting
  · rename_i i c receiving
    split at stepped
    · rename_i more
      split at stepped
      · rename_i closed
        cases stepped
        exact .repeats receiving more closed
      · rename_i byte rest front
        cases stepped
        exact .receive receiving more front
    · rename_i whole
      cases stepped
      exact .fed receiving (Int.not_lt.mp whole)
  · rename_i i c writing
    split at stepped
    · rename_i ended
      cases stepped
      exact .kill writing ended
    · rename_i reads
      split at stepped
      · rename_i room
        cases stepped
        exact .feed writing (Bool.eq_false_iff.mpr reads) room
      · cases stepped
  · rename_i reading
    split at stepped
    · rename_i c rest front
      cases stepped
      exact .read reading front
    · rename_i empty
      split at stepped
      · rename_i ended
        cases stepped
        exact .close reading empty ended
      · cases stepped
  · rename_i c sending
    cases stepped
    exact .send sending
  · rename_i waiting
    split at stepped
    · rename_i ended
      cases stepped
      exact .reap waiting ended
    · cases stepped
  · cases stepped
  · cases stepped

theorem stepped_of_childStep {capacity : Nat} {relay after : Relay} {sent : List Byte}
    (stepped : relay.childStep capacity = some (after, sent)) :
    ChildStepped capacity relay after sent := by
  rw [childStep] at stepped
  split at stepped
  · rename_i program starting
    cases stepped
    exact .greet starting
  · rename_i next running
    split at stepped
    · rename_i byte rest front
      cases stepped
      exact .read running front
    · cases stepped
  · rename_i byte rest running
    split at stepped
    · rename_i room
      cases stepped
      exact .write running room
    · cases stepped
  · rename_i running
    cases stepped
    exact .exit running
  · cases stepped

theorem toNat_receiving {contentLen : Int} {i : Nat} (more : (i : Int) < contentLen) :
    (contentLen - i).toNat = (contentLen - (i + 1 : Nat)).toNat + 1 := by
  omega

end Relay

theorem Child.eq_ended {child : Child} (ended : child.hasEnded = true) : child = .ended := by
  cases child with
  | starting program => cases ended
  | running program => cases ended
  | ended => rfl

namespace Relay

section Step

variable {capacity : Nat} {relay after : Relay} {sent : List Byte}

theorem FatherStepped.child_eq (stepped : FatherStepped capacity relay after sent) :
    after.child = relay.child := by
  cases stepped <;> rfl

/-- The father passes the body on, as long as somebody reads it. -/
theorem FatherStepped.remaining_eq (stepped : FatherStepped capacity relay after sent) :
    after.remaining = relay.remaining ∨ after.father = .killed ∧ relay.child = .ended := by
  cases stepped with
  | greet starting =>
      refine Or.inl ?_
      simp only [remaining, unfed, starting, bodyOf]
      rw [Int.natCast_zero, Int.sub_zero]
  | repeats receiving more closed =>
      refine Or.inl ?_
      simp only [remaining, unfed, receiving, closed]
      rw [toNat_receiving more, padded]
  | receive receiving more front =>
      refine Or.inl ?_
      simp only [remaining, unfed, receiving, front]
      rw [toNat_receiving more, padded]
  | @fed i c receiving whole =>
      refine Or.inl ?_
      have none : (relay.contentLen - i).toNat = 0 := by omega
      simp only [remaining, unfed, receiving]
      rw [none, padded]
  | kill writing ended => exact Or.inr ⟨rfl, Child.eq_ended ended⟩
  | feed writing reads room =>
      refine Or.inl ?_
      simp only [remaining, unfed, writing, List.append_assoc]
      rfl
  | read reading front =>
      refine Or.inl ?_
      simp only [remaining, unfed, reading]
  | close reading empty ended =>
      refine Or.inl ?_
      simp only [remaining, unfed, reading]
  | send sending =>
      refine Or.inl ?_
      simp only [remaining, unfed, sending]
  | reap waiting ended =>
      refine Or.inl ?_
      simp only [remaining, unfed, waiting]

theorem FatherStepped.outputOn_eq (stepped : FatherStepped capacity relay after sent) :
    after.child.rest.outputOn after.remaining = relay.child.rest.outputOn relay.remaining := by
  rw [stepped.child_eq]
  rcases stepped.remaining_eq with same | ⟨_, ended⟩
  · rw [same]
  · rw [ended]
    rfl

/-- What is still to be sent of what the program writes. -/
def pending (relay : Relay) : List Byte :=
  relay.father.inHand ++ (relay.output ++ relay.child.rest.outputOn relay.remaining)

/-- What has been sent and what is pending. -/
structure Consistent (capacity : Nat) (program : ByteProgram) (body : List Byte)
    (past : List (List Byte)) (relay : Relay) (relayed : List Byte) : Prop where
  sent : past.flatten = relay.greetings ++ relayed
  output : relayed ++ relay.pending = program.outputOn body
  feeding : relay.father.feeds = true → relayed = []
  quiet : relay.child.hasGreeted = false →
    relayed = [] ∧ relay.father.inHand = [] ∧ relay.output = []
  full : relay.output.length ≤ capacity
  finished : relay.father.reaps = true → relay.child = .ended ∧ relay.output = []

theorem start_consistent (capacity : Nat) (program : ByteProgram) (contentLen : Int)
    (sockfd : List Byte) :
    Consistent capacity program (bodyOf contentLen sockfd) [] (start program contentLen sockfd)
      [] where
  sent := rfl
  output := rfl
  feeding := fun _ => rfl
  quiet := fun _ => ⟨rfl, rfl, rfl⟩
  full := Nat.zero_le _
  finished := nofun

variable {program : ByteProgram} {body relayed : List Byte} {past : List (List Byte)}

/-- Another status line is sent only as long as nothing has been passed on. -/
theorem greetings_succ (count : Nat) :
    (List.replicate count statusLine).flatten ++ statusLine =
      (List.replicate (count + 1) statusLine).flatten := by
  rw [List.replicate_succ', List.flatten_append, List.flatten_singleton]

/-- A step of the father that sends nothing. -/
theorem Consistent.silent (consistent : Consistent capacity program body past relay relayed)
    (stepped : FatherStepped capacity relay after [])
    (greeted : after.father.hasGreeted = relay.father.hasGreeted)
    (feeds : after.father.feeds = true → relay.father.feeds = true)
    (held : after.father.inHand ++ after.output = relay.father.inHand ++ relay.output)
    (shorter : after.output.length ≤ relay.output.length)
    (finished : after.father.reaps = true → after.child = .ended ∧ after.output = []) :
    Consistent capacity program body (past ++ [[]]) after relayed where
  sent := by
    have sent := consistent.sent
    rw [greetings] at sent ⊢
    rw [List.flatten_append, List.flatten_singleton, List.append_nil, greeted,
      stepped.child_eq]
    exact sent
  output := by
    have output := consistent.output
    rw [pending] at output ⊢
    rw [stepped.outputOn_eq, ← List.append_assoc after.father.inHand, held, List.append_assoc]
    exact output
  feeding := fun isFeeding => consistent.feeding (feeds isFeeding)
  quiet := by
    intro starting
    rw [stepped.child_eq] at starting
    rcases consistent.quiet starting with ⟨none, noHand, noOutput⟩
    rw [noHand, noOutput] at held
    exact ⟨none, List.append_eq_nil_iff.mp held⟩
  full := Nat.le_trans shorter consistent.full
  finished := finished

theorem Consistent.father (consistent : Consistent capacity program body past relay relayed)
    (stepped : FatherStepped capacity relay after sent) :
    ∃ later, Consistent capacity program body (past ++ [sent]) after later := by
  have same := stepped.outputOn_eq
  cases stepped with
  | greet starting =>
      have feeding := consistent.feeding (by rw [starting]; rfl)
      refine ⟨[], ?_, ?_, fun _ => rfl, fun isStarting =>
        ⟨rfl, rfl, (consistent.quiet isStarting).2.2⟩, consistent.full, nofun⟩
      · have sent := consistent.sent
        rw [greetings, starting, feeding, List.append_nil, Father.hasGreeted, Bool.toNat_false,
          Nat.zero_add] at sent
        rw [List.flatten_append, List.flatten_singleton, sent, greetings_succ, List.append_nil,
          greetings, Nat.add_comm]
        rfl
      · have output := consistent.output
        rw [pending, starting, feeding] at output
        rw [pending, same]
        exact output
  | repeats receiving more closed =>
      refine ⟨relayed, consistent.silent (.repeats receiving more closed) ?_ ?_ ?_
        (Nat.le_refl _) nofun⟩
      · rw [receiving]
        rfl
      · intro _
        rw [receiving]
        rfl
      · rw [receiving]
        rfl
  | receive receiving more front =>
      refine ⟨relayed, consistent.silent (.receive receiving more front) ?_ ?_ ?_
        (Nat.le_refl _) nofun⟩
      · rw [receiving]
        rfl
      · intro _
        rw [receiving]
        rfl
      · rw [receiving]
        rfl
  | fed receiving whole =>
      refine ⟨relayed, consistent.silent (.fed receiving whole) ?_ nofun ?_ (Nat.le_refl _) nofun⟩
      · rw [receiving]
        rfl
      · rw [receiving]
        rfl
  | kill writing ended =>
      refine ⟨relayed, consistent.silent (.kill writing ended) ?_ nofun ?_ (Nat.le_refl _) nofun⟩
      · rw [writing]
        rfl
      · rw [writing]
        rfl
  | feed writing reads room =>
      refine ⟨relayed, consistent.silent (.feed writing reads room) ?_ ?_ ?_ (Nat.le_refl _)
        nofun⟩
      · rw [writing]
        rfl
      · intro _
        rw [writing]
        rfl
      · rw [writing]
        rfl
  | read reading front =>
      refine ⟨relayed, consistent.silent (.read reading front) ?_ nofun ?_ ?_ nofun⟩
      · rw [reading]
        rfl
      · rw [reading, front]
        rfl
      · rw [front]
        exact Nat.le_succ _
  | close reading empty ended =>
      refine ⟨relayed, consistent.silent (.close reading empty ended) ?_ nofun ?_ (Nat.le_refl _)
        fun _ => ⟨Child.eq_ended ended, empty⟩⟩
      · rw [reading]
        rfl
      · rw [reading]
        rfl
  | reap waiting ended =>
      have finished := consistent.finished (by rw [waiting]; rfl)
      refine ⟨relayed, consistent.silent (.reap waiting ended) ?_ nofun ?_ (Nat.le_refl _)
        fun _ => finished⟩
      · rw [waiting]
        rfl
      · rw [waiting]
        rfl
  | @send c sending =>
      refine ⟨relayed ++ [c], ?_, ?_, nofun, ?_, consistent.full, nofun⟩
      · have sent := consistent.sent
        rw [greetings, sending] at sent
        rw [List.flatten_append, List.flatten_singleton, sent, List.append_assoc]
        rfl
      · have output := consistent.output
        rw [pending, sending] at output
        rw [pending, same, List.append_assoc]
        exact output
      · intro isStarting
        have noHand := (consistent.quiet isStarting).2.1
        rw [sending] at noHand
        cases noHand

theorem Consistent.child (consistent : Consistent capacity program body past relay relayed)
    (stepped : ChildStepped capacity relay after sent) :
    Consistent capacity program body (past ++ [sent]) after relayed := by
  have output := consistent.output
  have sentEq := consistent.sent
  have unfinished : relay.child ≠ .ended → relay.father.reaps = true → False :=
    fun going reaps => going (consistent.finished reaps).1
  rw [pending] at output
  rw [greetings] at sentEq
  cases stepped with
  | greet starting =>
      rcases consistent.quiet (by rw [starting]; rfl) with ⟨none, noHand, noOutput⟩
      refine ⟨?_, ?_, consistent.feeding, nofun, consistent.full, fun reaps =>
        (unfinished (by rw [starting]; nofun) reaps).elim⟩
      · rw [starting, none, List.append_nil, Child.hasGreeted, Bool.toNat_false, Nat.add_zero]
          at sentEq
        rw [List.flatten_append, List.flatten_singleton, sentEq, greetings_succ, none,
          List.append_nil]
        rfl
      · rw [starting] at output
        exact output
  | @read next byte rest running front =>
      refine ⟨?_, ?_, consistent.feeding, nofun, consistent.full, fun reaps =>
        (unfinished (by rw [running]; nofun) reaps).elim⟩
      · rw [running] at sentEq
        rw [List.flatten_append, List.flatten_singleton, List.append_nil, sentEq]
        rfl
      · rw [running, remaining, front] at output
        exact output
  | @write byte rest running room =>
      refine ⟨?_, ?_, consistent.feeding, nofun, ?_, fun reaps =>
        (unfinished (by rw [running]; nofun) reaps).elim⟩
      · rw [running] at sentEq
        rw [List.flatten_append, List.flatten_singleton, List.append_nil, sentEq]
        rfl
      · rw [running] at output
        rw [pending]
        dsimp only
        rw [List.append_assoc relay.output]
        exact output
      · dsimp only
        rw [List.length_append]
        exact room
  | exit running =>
      refine ⟨?_, ?_, consistent.feeding, nofun, consistent.full, fun reaps =>
        (unfinished (by rw [running]; nofun) reaps).elim⟩
      · rw [running] at sentEq
        rw [List.flatten_append, List.flatten_singleton, List.append_nil, sentEq]
        rfl
      · rw [running] at output
        exact output

end Step

theorem greetings_eq {relay : Relay}
    (fed : relay.father.feeds = false) (greeted : relay.child.hasGreeted = true) :
    relay.greetings = statusLine ++ statusLine := by
  have father : relay.father.hasGreeted = true := by
    cases isFather : relay.father with
    | starting =>
        rw [isFather] at fed
        cases fed
    | _ => rfl
  rw [greetings, father, greeted]
  exact List.append_assoc statusLine statusLine []

theorem greetings_begin (relay : Relay) : relay.greetings <+: statusLine ++ statusLine := by
  rw [greetings]
  cases relay.father.hasGreeted with
  | false =>
      cases relay.child.hasGreeted with
      | false => exact List.nil_prefix
      | true => exact ⟨statusLine, rfl⟩
  | true =>
      cases relay.child.hasGreeted with
      | false => exact ⟨statusLine, rfl⟩
      | true => exact ⟨[], rfl⟩

theorem Consistent.begins {capacity : Nat} {program : ByteProgram} {body relayed : List Byte}
    {past : List (List Byte)} {relay : Relay}
    (consistent : Consistent capacity program body past relay relayed) :
    past.flatten <+: statusLine ++ statusLine ++ program.outputOn body := by
  rw [consistent.sent, ← consistent.output]
  by_cases nothing : relayed = []
  · rw [nothing, List.append_nil]
    exact (greetings_begin relay).trans (List.prefix_append _ _)
  · have fed : relay.father.feeds = false :=
      Bool.eq_false_iff.mpr fun feeds => nothing (consistent.feeding feeds)
    have greeted : relay.child.hasGreeted = true := by
      cases quiet : relay.child.hasGreeted with
      | false => exact absurd (consistent.quiet quiet).1 nothing
      | true => rfl
    rw [greetings_eq fed greeted, ← List.append_assoc]
    exact List.prefix_append _ _

theorem Consistent.delivered {capacity : Nat} {program : ByteProgram} {body relayed : List Byte}
    {past : List (List Byte)} {relay : Relay}
    (consistent : Consistent capacity program body past relay relayed)
    (done : relay.father = .done) :
    past.flatten = statusLine ++ statusLine ++ program.outputOn body := by
  rcases consistent.finished (by rw [done]; rfl) with ⟨ended, empty⟩
  have output := consistent.output
  rw [pending, done, ended, empty] at output
  have all : relayed = program.outputOn body := (List.append_nil relayed).symm.trans output
  rw [consistent.sent, all, greetings_eq (by rw [done]; rfl) (by rw [ended]; rfl)]

theorem consistent_run {capacity : Nat} (program : ByteProgram) (contentLen : Int)
    (sockfd : List Byte) (processes : List Process) (final : Relay) (log : List (List Byte))
    (ran : runSteps (step capacity) (start program contentLen sockfd) processes =
      some (final, log)) :
    ∃ relayed, Consistent capacity program (bodyOf contentLen sockfd) log final relayed := by
  refine runSteps_induction (fun past relay => ∃ relayed,
    Consistent capacity program (bodyOf contentLen sockfd) past relay relayed) ?_
    processes [] _ final log ⟨[], start_consistent capacity program contentLen sockfd⟩ ran
  intro past relay process after sent holds stepped
  rcases holds with ⟨relayed, consistent⟩
  cases process with
  | father => exact consistent.father (stepped_of_fatherStep stepped)
  | child => exact ⟨relayed, consistent.child (stepped_of_childStep stepped)⟩

/-- In every order of the steps the client has been sent the beginning of two status lines and
what the program writes for the body, and when the father is done it has been sent all of it. -/
theorem run_relays {capacity : Nat} (program : ByteProgram) (contentLen : Int)
    (sockfd : List Byte) (processes : List Process) (final : Relay) (log : List (List Byte))
    (ran : runSteps (step capacity) (start program contentLen sockfd) processes =
      some (final, log)) :
    log.flatten <+: statusLine ++ statusLine ++ program.outputOn (bodyOf contentLen sockfd) ∧
      (final.father = .done → log.flatten =
        statusLine ++ statusLine ++ program.outputOn (bodyOf contentLen sockfd)) := by
  rcases consistent_run program contentLen sockfd processes final log ran with
    ⟨relayed, consistent⟩
  exact ⟨consistent.begins, consistent.delivered⟩

theorem run_relays_swap : ∃ processes final log,
    runSteps (step 1) (start (.read fun first => .read fun second =>
      .write second (.write first .exit)) 2 [104, 105]) processes = some (final, log) ∧
    final.father = .done ∧ log.flatten = statusLine ++ statusLine ++ [105, 104] := by
  have ran : runSteps (step 1) (start (.read fun first => .read fun second =>
      .write second (.write first .exit)) 2 [104, 105])
      [.father, .child, .father, .father, .child, .father, .father, .child, .child, .father,
        .father, .father, .child, .father, .father, .child, .father, .father] =
      some (⟨2, [], .done, .ended, [], []⟩, [statusLine, statusLine, [], [], [], [], [], [], [],
        [], [], [105], [], [], [104], [], [], []]) := rfl
  exact ⟨_, _, _, ran, rfl, (run_relays _ _ _ _ _ _ ran).2 rfl⟩

end Relay

end DataStructAlgorithm.HTTPD
