import DataStructAlgorithm.Foundation.RoundRobin
import DataStructAlgorithm.Foundation.Slots

/-! # The parent of the process pool in `HTTPD1.0/processpool.h`

The parent hands connections to its children in turn and is told by signals which of them
have exited. What `epoll_wait` returns is a batch of events. -/

namespace DataStructAlgorithm.HTTPD1

open Foundation

/-- The members of `processpool` that `run_parent` uses; `pids` are the `m_pid` of the children. -/
structure Processpool where
  pids : List Int
  subProcessCounter : Nat
  stop : Bool
  deriving DecidableEq, Repr

inductive Signal
  /-- The pids that `waitpid` returns one after the other. -/
  | sigchld (reaped : List Nat)
  | sigterm
  | sigint
  | other
  deriving DecidableEq, Repr

inductive Event
  | connection
  | signals (received : List Signal)
  | other
  deriving DecidableEq, Repr

/-- A new connection: the children at that time, and the one that it is sent to. -/
structure Entry where
  pids : List Int
  child : Option Nat
  deriving DecidableEq, Repr

namespace Processpool

/-- The pool when `run_parent` begins. -/
def start (pids : List Int) : Processpool := ⟨pids, 0, false⟩

/-- The body of the `do` loop that looks for a child. -/
def findPass (pool : Processpool) (i : Nat) : Outcome (Pass Nat Nat) := do
  let pid ← readAt pool.pids i
  if pid ≠ -1 then pure (.leave i)
  else
    let i := (i + 1) % pool.pids.length
    if i ≠ pool.subProcessCounter then pure (.again i) else pure (.leave i)

/-- The branch for the listening socket. The child is missing when the loop over the events is
left by `break`. -/
def dispatch (pool : Processpool) : Outcome (Processpool × Option Nat) := do
  let i ← repeatLoop pool.findPass (pool.pids.length + 1) pool.subProcessCounter
  let pid ← readAt pool.pids i
  if pid = -1 then pure ({ pool with stop := true }, none)
  else pure ({ pool with subProcessCounter := (i + 1) % pool.pids.length }, some i)

/-- The children after `waitpid` has returned a pid. -/
def join (pids : List Int) (pid : Nat) : List Int :=
  pids.map fun (other : Int) => if other = pid then -1 else other

def handleSignal (pool : Processpool) : Signal → Processpool
  | .sigchld reaped =>
      let pids := reaped.foldl join pool.pids
      { pool with pids, stop := decide (∀ pid ∈ pids, pid = -1) }
  -- the children are sent a signal and exit later
  | .sigterm => pool
  | .sigint => pool
  | .other => pool

/-- The events of one batch, and the connections among them that have been handled. -/
def handleBatch : Processpool → List Event → Outcome (Processpool × List Entry)
  | pool, [] => .ok (pool, [])
  | pool, .connection :: rest => do
      let (next, child) ← pool.dispatch
      if child.isNone then pure (next, [⟨pool.pids, child⟩])
      else
        let (final, log) ← handleBatch next rest
        pure (final, ⟨pool.pids, child⟩ :: log)
  | pool, .signals received :: rest => handleBatch (received.foldl handleSignal pool) rest
  | pool, .other :: rest => handleBatch pool rest

/-- `run_parent` on the batches that `epoll_wait` returns. -/
def runParent : Processpool → List (List Event) → Outcome (Processpool × List Entry)
  | pool, [] => .ok (pool, [])
  | pool, batch :: rest =>
      if pool.stop then .ok (pool, [])
      else do
        let (next, log) ← handleBatch pool batch
        let (final, others) ← runParent next rest
        pure (final, log ++ others)

/-! ## Looking for a child -/

/-- The child has not been marked as exited. -/
def Alive (pids : List Int) (child : Nat) : Prop :=
  ∃ pid, pids[child]? = some pid ∧ pid ≠ -1

theorem Alive.lt {pids : List Int} {child : Nat} (alive : Alive pids child) :
    child < pids.length := by
  rcases alive with ⟨pid, found, _⟩
  exact (List.getElem?_eq_some_iff.mp found).1

theorem getElem_of_not_alive {pids : List Int} {child : Nat} (dead : ¬ Alive pids child)
    (within : child < pids.length) : pids[child]? = some (-1) := by
  have found := List.getElem?_eq_getElem within
  by_cases exited : pids[child] = -1
  · rw [found, exited]
  · exact absurd ⟨_, found, exited⟩ dead

variable {pool : Processpool}

theorem findPass_alive {i : Nat} (alive : Alive pool.pids i) :
    pool.findPass i = .ok (.leave i) := by
  rcases alive with ⟨pid, found, notExited⟩
  rw [findPass, readAt_of_getElem? found, Outcome.ok_bind]
  exact if_pos notExited

theorem findPass_dead {i : Nat} (dead : ¬ Alive pool.pids i) (within : i < pool.pids.length) :
    pool.findPass i = .ok (if (i + 1) % pool.pids.length ≠ pool.subProcessCounter
      then .again ((i + 1) % pool.pids.length) else .leave ((i + 1) % pool.pids.length)) := by
  rw [findPass, readAt_of_getElem? (getElem_of_not_alive dead within), Outcome.ok_bind]
  by_cases around : (i + 1) % pool.pids.length ≠ pool.subProcessCounter
  · simp [around]
  · simp [around]

/-- What the search for a child ends with. -/
def Found (pool : Processpool) (i : Nat) : Prop :=
  FirstFrom pool.pids.length pool.subProcessCounter (Alive pool.pids) i ∨
    i = pool.subProcessCounter ∧ ∀ child < pool.pids.length, ¬ Alive pool.pids child

/-- The loop ends at the first child alive, or back where it has begun. -/
theorem find_loop (counterLt : pool.subProcessCounter < pool.pids.length) (left skipped fuel : Nat)
    (all : skipped + left + 1 = pool.pids.length) (enough : left < fuel)
    (passed : ∀ earlier < skipped,
      ¬ Alive pool.pids ((pool.subProcessCounter + earlier) % pool.pids.length)) :
    ∃ i, repeatLoop pool.findPass fuel
      ((pool.subProcessCounter + skipped) % pool.pids.length) = .ok i ∧ pool.Found i := by
  have within : (pool.subProcessCounter + skipped) % pool.pids.length < pool.pids.length :=
    Nat.mod_lt _ (by omega)
  have atStart : (pool.subProcessCounter + 0) % pool.pids.length = pool.subProcessCounter :=
    Nat.mod_eq_of_lt counterLt
  induction left generalizing skipped fuel with
  | zero =>
      rcases Nat.exists_eq_succ_of_ne_zero (Nat.ne_zero_of_lt enough) with ⟨fuel, rfl⟩
      by_cases alive : Alive pool.pids ((pool.subProcessCounter + skipped) % pool.pids.length)
      · exact ⟨_, repeatLoop_leave _ (findPass_alive alive),
          Or.inl ⟨skipped, by omega, rfl, alive, passed⟩⟩
      · have around : ((pool.subProcessCounter + skipped) % pool.pids.length + 1) %
            pool.pids.length = pool.subProcessCounter := by
          have whole : skipped + 1 = pool.pids.length := by omega
          rw [circle_add, whole, Nat.add_mod_right, Nat.mod_eq_of_lt counterLt]
        have pass := findPass_dead alive within
        rw [around, if_neg (not_not_intro rfl)] at pass
        refine ⟨pool.subProcessCounter, repeatLoop_leave _ pass, Or.inr ⟨rfl, ?_⟩⟩
        intro child childLt
        rcases circle_place pool.subProcessCounter childLt with ⟨place, placeLt, rfl⟩
        rcases Nat.lt_or_ge place skipped with before | behind
        · exact passed place before
        · have isLast : place = skipped := by omega
          rw [isLast]
          exact alive
  | succ left induction =>
      rcases Nat.exists_eq_succ_of_ne_zero (Nat.ne_zero_of_lt enough) with ⟨fuel, rfl⟩
      by_cases alive : Alive pool.pids ((pool.subProcessCounter + skipped) % pool.pids.length)
      · exact ⟨_, repeatLoop_leave _ (findPass_alive alive),
          Or.inl ⟨skipped, by omega, rfl, alive, passed⟩⟩
      · have notAround : ((pool.subProcessCounter + skipped) % pool.pids.length + 1) %
            pool.pids.length ≠ pool.subProcessCounter := by
          rw [circle_add]
          intro around
          have isZero := circle_inj (by omega) (by omega) (around.trans atStart.symm)
          omega
        have pass := findPass_dead alive within
        rw [if_pos notAround, circle_add] at pass
        rw [repeatLoop_again _ pass]
        apply induction (skipped + 1) fuel (by omega) (by omega)
        · intro earlier before
          rcases Nat.lt_succ_iff_lt_or_eq.mp before with earlierLt | isSkipped
          · exact passed earlier earlierLt
          · rw [isSkipped]
            exact alive
        · exact Nat.mod_lt _ (by omega)

/-- What the branch for a connection does. -/
def Dispatched (pool next : Processpool) : Option Nat → Prop
  | some child => FirstFrom pool.pids.length pool.subProcessCounter (Alive pool.pids) child ∧
      next = { pool with subProcessCounter := (child + 1) % pool.pids.length }
  | none => (∀ child < pool.pids.length, ¬ Alive pool.pids child) ∧
      next = { pool with stop := true }

theorem dispatch_spec (counterLt : pool.subProcessCounter < pool.pids.length) :
    ∃ next child, pool.dispatch = .ok (next, child) ∧ pool.Dispatched next child := by
  rcases find_loop counterLt (pool.pids.length - 1) 0 (pool.pids.length + 1) (by omega) (by omega)
    (fun earlier before => absurd before (Nat.not_lt_zero earlier)) with ⟨i, run, found⟩
  have atStart : (pool.subProcessCounter + 0) % pool.pids.length = pool.subProcessCounter :=
    Nat.mod_eq_of_lt counterLt
  rw [atStart] at run
  rcases found with first | ⟨back, nobody⟩
  · rcases first with ⟨skipped, skippedLt, place, alive, passed⟩
    refine ⟨{ pool with subProcessCounter := (i + 1) % pool.pids.length }, some i, ?_,
      ⟨skipped, skippedLt, place, alive, passed⟩, rfl⟩
    rcases alive with ⟨pid, isPid, notExited⟩
    rw [dispatch, run, Outcome.ok_bind, readAt_of_getElem? isPid, Outcome.ok_bind]
    exact if_neg notExited
  · have dead : ¬ Alive pool.pids i := by
      rw [back]
      exact nobody _ counterLt
    have exited := getElem_of_not_alive dead (by rw [back]; exact counterLt)
    refine ⟨{ pool with stop := true }, none, ?_, nobody, rfl⟩
    rw [dispatch, run, Outcome.ok_bind, readAt_of_getElem? exited, Outcome.ok_bind]
    exact if_pos rfl

/-! ## Signals -/

theorem length_foldl_join (pids : List Int) (reaped : List Nat) :
    (reaped.foldl join pids).length = pids.length := by
  induction reaped generalizing pids with
  | nil => rfl
  | cons pid reaped induction =>
      rw [List.foldl_cons, induction]
      exact List.length_map _

/-- A child that has exited stays so. -/
theorem alive_of_join {pids : List Int} {pid child : Nat} (alive : Alive (join pids pid) child) :
    Alive pids child := by
  rcases alive with ⟨after, found, notExited⟩
  rw [join, List.getElem?_map, Option.map_eq_some_iff] at found
  rcases found with ⟨before, found, same⟩
  refine ⟨before, found, fun exited => notExited ?_⟩
  rw [← same, exited]
  exact ite_self _

theorem alive_of_foldl_join {pids : List Int} (reaped : List Nat) {child : Nat}
    (alive : Alive (reaped.foldl join pids) child) : Alive pids child := by
  induction reaped generalizing pids with
  | nil => exact alive
  | cons pid reaped induction => exact alive_of_join (induction alive)

/-- The parent stops only without children. -/
def StopsEmpty (pool : Processpool) : Prop :=
  pool.stop = true → ∀ child, ¬ Alive pool.pids child

/-- What signals do not change, and the children that they may take away. -/
structure Signalled (pool next : Processpool) : Prop where
  length : next.pids.length = pool.pids.length
  counter : next.subProcessCounter = pool.subProcessCounter
  alive : ∀ child, Alive next.pids child → Alive pool.pids child
  stopsEmpty : pool.StopsEmpty → next.StopsEmpty

theorem Signalled.refl (pool : Processpool) : Signalled pool pool :=
  ⟨rfl, rfl, fun _ alive => alive, fun kept => kept⟩

theorem handleSignal_signalled (pool : Processpool) (signal : Signal) :
    Signalled pool (pool.handleSignal signal) := by
  cases signal with
  | sigchld reaped =>
      refine ⟨length_foldl_join pool.pids reaped, rfl, fun _ => alive_of_foldl_join reaped, ?_⟩
      intro _ isStopped child alive
      rcases alive with ⟨pid, found, notExited⟩
      exact notExited (of_decide_eq_true isStopped pid (List.mem_of_getElem? found))
  | sigterm => exact .refl pool
  | sigint => exact .refl pool
  | other => exact .refl pool

theorem foldl_handleSignal_signalled (pool : Processpool) (received : List Signal) :
    Signalled pool (received.foldl handleSignal pool) := by
  induction received generalizing pool with
  | nil => exact .refl pool
  | cons signal received induction =>
      have first := handleSignal_signalled pool signal
      have others := induction (pool.handleSignal signal)
      exact ⟨others.length.trans first.length, others.counter.trans first.counter,
        fun child alive => first.alive child (others.alive child alive),
        fun kept => others.stopsEmpty (first.stopsEmpty kept)⟩

/-! ## Runs -/

end Processpool

def Entry.turn (entry : Entry) : Turn := ⟨Processpool.Alive entry.pids, entry.child⟩

namespace Processpool

variable {pool : Processpool}

/-- The entries are turns of the children that are still alive. -/
def Turns (pool : Processpool) (turns : List Turn) : Prop :=
  Rotation pool.pids.length pool.subProcessCounter turns ∧
    ∀ turn ∈ turns, ∀ child, turn.available child → Alive pool.pids child

/-- What is known of a part of a run, whatever turns come after it. -/
structure Handled (pool final : Processpool) (connections : Nat) (log : List Entry) : Prop where
  length : final.pids.length = pool.pids.length
  counter : final.subProcessCounter < final.pids.length
  turns : ∀ more, (final.stop = true → more = []) → final.Turns more →
    pool.Turns (log.map Entry.turn ++ more)
  sizes : ∀ entry ∈ log, entry.pids.length = pool.pids.length
  stops : ∀ entry ∈ log, entry.child = none → final.stop = true
  complete : final.stop = false → log.length = connections
  stopsEmpty : pool.StopsEmpty → final.StopsEmpty

theorem Handled.refl (counterLt : pool.subProcessCounter < pool.pids.length) :
    Handled pool pool 0 [] where
  length := rfl
  counter := counterLt
  turns := fun _ _ turns => turns
  sizes := by simp
  stops := by simp
  complete := fun _ => rfl
  stopsEmpty := fun kept => kept

/-- Signals in front of a part of a run. -/
theorem Handled.signalled {next final : Processpool} {connections : Nat} {log : List Entry}
    (signalled : Signalled pool next) (handled : Handled next final connections log) :
    Handled pool final connections log where
  length := handled.length.trans signalled.length
  counter := handled.counter
  turns := by
    intro more ended turns
    have later := handled.turns more ended turns
    rw [Turns, signalled.length, signalled.counter] at later
    exact ⟨later.1, fun turn member child available =>
      signalled.alive child (later.2 turn member child available)⟩
  sizes := fun entry member => (handled.sizes entry member).trans signalled.length
  stops := handled.stops
  complete := handled.complete
  stopsEmpty := fun kept => handled.stopsEmpty (signalled.stopsEmpty kept)

/-- A connection that is sent to a child, in front of a part of a run. -/
theorem Handled.connection {child : Nat} {final : Processpool} {connections : Nat}
    {log : List Entry}
    (first : FirstFrom pool.pids.length pool.subProcessCounter (Alive pool.pids) child)
    (handled : Handled { pool with subProcessCounter := (child + 1) % pool.pids.length } final
      connections log) :
    Handled pool final (connections + 1) (⟨pool.pids, some child⟩ :: log) where
  length := handled.length
  counter := handled.counter
  turns := by
    intro more ended turns
    rcases handled.turns more ended turns with ⟨rotation, alive⟩
    refine ⟨.turn first alive rotation, ?_⟩
    intro turn member
    rcases List.mem_cons.mp member with rfl | later
    · exact fun _ available => available
    · exact alive turn later
  sizes := List.forall_mem_cons.mpr ⟨rfl, handled.sizes⟩
  stops := List.forall_mem_cons.mpr ⟨nofun, handled.stops⟩
  complete := fun goesOn => congrArg (· + 1) (handled.complete goesOn)
  stopsEmpty := handled.stopsEmpty

/-- A connection that no child is left for. -/
theorem Handled.stop (counterLt : pool.subProcessCounter < pool.pids.length) (connections : Nat)
    (nobody : ∀ child < pool.pids.length, ¬ Alive pool.pids child) :
    Handled pool { pool with stop := true } connections [⟨pool.pids, none⟩] where
  length := rfl
  counter := counterLt
  turns := by
    intro more ended _
    rw [ended rfl]
    refine ⟨.stop nobody, ?_⟩
    intro turn member
    rw [List.mem_singleton.mp member]
    exact fun _ available => available
  sizes := List.forall_mem_cons.mpr ⟨rfl, by simp⟩
  stops := fun _ _ _ => rfl
  complete := nofun
  stopsEmpty := fun _ _ child alive => nobody child alive.lt alive

theorem handleBatch_handled (counterLt : pool.subProcessCounter < pool.pids.length)
    (batch : List Event) :
    ∃ final log, pool.handleBatch batch = .ok (final, log) ∧
      Handled pool final (batch.count .connection) log := by
  induction batch generalizing pool with
  | nil => exact ⟨pool, [], rfl, .refl counterLt⟩
  | cons event batch induction =>
      cases event with
      | connection =>
          rcases dispatch_spec counterLt with ⟨next, child, dispatched, spec⟩
          rw [List.count_cons_self]
          cases child with
          | none =>
              rcases spec with ⟨nobody, rfl⟩
              refine ⟨_, _, ?_, .stop counterLt _ nobody⟩
              rw [handleBatch, dispatched]
              rfl
          | some child =>
              rcases spec with ⟨first, rfl⟩
              have nextLt : (child + 1) % pool.pids.length < pool.pids.length :=
                Nat.mod_lt _ (by omega)
              rcases @induction { pool with subProcessCounter := (child + 1) % pool.pids.length }
                nextLt with ⟨final, log, others, handled⟩
              refine ⟨final, _, ?_, .connection first handled⟩
              rw [handleBatch, dispatched, Outcome.ok_bind]
              simp [others]
      | signals received =>
          have signalled := foldl_handleSignal_signalled pool received
          have nextLt : (received.foldl handleSignal pool).subProcessCounter <
              (received.foldl handleSignal pool).pids.length := by
            rw [signalled.length, signalled.counter]
            exact counterLt
          rcases induction nextLt with ⟨final, log, others, handled⟩
          exact ⟨final, log, others, handled.signalled signalled⟩
      | other => exact induction counterLt

/-- A stopped parent handles nothing more. -/
theorem Handled.stopped (counterLt : pool.subProcessCounter < pool.pids.length)
    (isStopped : pool.stop = true) (connections : Nat) : Handled pool pool connections [] where
  length := rfl
  counter := counterLt
  turns := fun _ _ turns => turns
  sizes := by simp
  stops := by simp
  complete := fun goesOn => by rw [isStopped] at goesOn; cases goesOn
  stopsEmpty := fun kept => kept

theorem Handled.append {middle final : Processpool} {connections others : Nat}
    {log more : List Entry} (first : Handled pool middle connections log)
    (second : Handled middle final others more)
    (ended : middle.stop = true → more = [] ∧ final = middle) :
    Handled pool final (connections + others) (log ++ more) where
  length := second.length.trans first.length
  counter := second.counter
  turns := by
    intro rest finalEnded turns
    rw [List.map_append, List.append_assoc]
    apply first.turns _ _ (second.turns rest finalEnded turns)
    intro isStopped
    rcases ended isStopped with ⟨rfl, rfl⟩
    exact finalEnded isStopped
  sizes := by
    intro entry member
    rcases List.mem_append.mp member with before | after
    · exact first.sizes entry before
    · exact (second.sizes entry after).trans first.length
  stops := by
    intro entry member none
    rcases List.mem_append.mp member with before | after
    · have isStopped := first.stops entry before none
      rw [(ended isStopped).2]
      exact isStopped
    · exact second.stops entry after none
  complete := by
    intro goesOn
    have firstGoesOn : middle.stop = false := by
      apply Bool.eq_false_iff.mpr
      intro isStopped
      rw [(ended isStopped).2, isStopped] at goesOn
      cases goesOn
    rw [List.length_append, first.complete firstGoesOn, second.complete goesOn]
  stopsEmpty := fun kept => second.stopsEmpty (first.stopsEmpty kept)

theorem runParent_handled (counterLt : pool.subProcessCounter < pool.pids.length)
    (batches : List (List Event)) :
    ∃ final log, pool.runParent batches = .ok (final, log) ∧
      Handled pool final (batches.flatten.count .connection) log := by
  induction batches generalizing pool with
  | nil => exact ⟨pool, [], rfl, .refl counterLt⟩
  | cons batch batches induction =>
      by_cases isStopped : pool.stop = true
      · exact ⟨pool, [], if_pos isStopped, .stopped counterLt isStopped _⟩
      · rcases handleBatch_handled counterLt batch with ⟨middle, log, first, handled⟩
        rcases induction handled.counter with ⟨final, more, others, rest⟩
        refine ⟨final, log ++ more, ?_, ?_⟩
        · rw [runParent, if_neg isStopped, first, Outcome.ok_bind]
          simp [others]
        · rw [List.flatten_cons, List.count_append]
          apply handled.append rest
          intro middleStopped
          have nothing : middle.runParent batches = .ok (middle, []) := by
            cases batches with
            | nil => rfl
            | cons batch batches => exact if_pos middleStopped
          rw [nothing] at others
          cases others
          exact ⟨rfl, rfl⟩

/-- No turn follows one that nobody got. -/
theorem last_of_rotation {count start : Nat} {before after : List Turn} {turn : Turn}
    (rotation : Rotation count start (before ++ turn :: after)) (nobody : turn.chosen = none) :
    after = [] ∧ ∀ member < count, ¬ turn.available member := by
  rcases rotation.of_append with ⟨start, rotation⟩
  cases rotation with
  | stop dead => exact ⟨rfl, dead⟩
  | turn first leave next => cases nobody

/-- How a run has served its connections. -/
structure Served (final : Processpool) (connections : Nat) (log : List Entry) : Prop where
  complete : final.stop = false → log.length = connections
  stopsEmpty : final.StopsEmpty
  alive : ∀ entry ∈ log, ∀ child, entry.child = some child → Alive entry.pids child
  nobody : ∀ entry ∈ log, entry.child = none ↔ ∀ pid ∈ entry.pids, pid = -1
  last : ∀ entry ∈ log, entry.child = none → final.stop = true ∧ log.getLast? = some entry
  /-- Between two connections of one child every other child that stays alive gets one. -/
  fair : ∀ before first middle second after,
    log = before ++ first :: (middle ++ second :: after) →
    ∀ child, first.child = some child → second.child = some child →
      (∀ entry ∈ middle, entry.child ≠ some child) →
      ∀ other, other ≠ child → Alive second.pids other →
        (middle.countP fun entry => entry.child = some other) = 1

theorem Handled.served {final : Processpool} {connections : Nat} {log : List Entry}
    (handled : Handled pool final connections log)
    (rotation : Rotation pool.pids.length pool.subProcessCounter (log.map Entry.turn))
    (stopsEmpty : pool.StopsEmpty) : Served final connections log where
  complete := handled.complete
  stopsEmpty := handled.stopsEmpty stopsEmpty
  alive := fun entry member child isChild =>
    (rotation.chosen_available (List.mem_map_of_mem member) isChild).1
  nobody := by
    intro entry member
    rcases List.append_of_mem member with ⟨before, after, split⟩
    constructor
    · intro nobody pid isPid
      have splitTurns := rotation
      rw [split, List.map_append, List.map_cons] at splitTurns
      rcases last_of_rotation splitTurns nobody with ⟨_, dead⟩
      rcases List.getElem_of_mem isPid with ⟨child, childLt, isChild⟩
      have found := getElem_of_not_alive (dead child (handled.sizes entry member ▸ childLt)) childLt
      rw [List.getElem?_eq_getElem childLt, isChild] at found
      exact Option.some.inj found
    · intro exited
      cases isChild : entry.child with
      | none => rfl
      | some child =>
          rcases (rotation.chosen_available (List.mem_map_of_mem member) isChild).1 with
            ⟨pid, found, notExited⟩
          exact absurd (exited pid (List.mem_of_getElem? found)) notExited
  last := by
    intro entry member nobody
    rcases List.append_of_mem member with ⟨before, after, split⟩
    have splitTurns := rotation
    rw [split, List.map_append, List.map_cons] at splitTurns
    have isLast := List.map_eq_nil_iff.mp (last_of_rotation splitTurns nobody).1
    refine ⟨handled.stops entry member nobody, ?_⟩
    rw [split, isLast, List.getLast?_concat]
  fair := by
    intro before first middle second after split child firstChild secondChild consecutive other
      different alive
    have splitTurns := rotation
    rw [split, List.map_append, List.map_cons, List.map_append, List.map_cons] at splitTurns
    have within : other < pool.pids.length := by
      have size := handled.sizes second (by rw [split]; simp)
      exact size ▸ alive.lt
    have others : ∀ turn ∈ middle.map Entry.turn, turn.chosen ≠ some child := by
      intro turn member
      rcases List.mem_map.mp member with ⟨entry, isEntry, rfl⟩
      exact consecutive entry isEntry
    have once := splitTurns.fair firstChild secondChild others within different alive
    rw [timesChosen, List.countP_map] at once
    exact once

/-- Whatever the batches of events, every connection is sent to a child that is alive or ends
the run when there is none, and the children take turns. -/
theorem run_parent_served (pids : List Int) (children : pids ≠ []) (batches : List (List Event)) :
    ∃ final log, (start pids).runParent batches = .ok (final, log) ∧
      Served final (batches.flatten.count .connection) log := by
  have counterLt : (start pids).subProcessCounter < (start pids).pids.length :=
    List.length_pos_iff.mpr children
  rcases runParent_handled counterLt batches with ⟨final, log, run, handled⟩
  have turns := handled.turns [] (fun _ => rfl) ⟨.nil _, by simp⟩
  rw [List.append_nil] at turns
  exact ⟨final, log, run, handled.served turns.1 nofun⟩

/-- Three children, the second of which exits between two connections. -/
theorem run_parent_served_three :
    ∃ final log, (start [10, 11, 12]).runParent
        [[.connection, .signals [.sigchld [11]], .connection], [.other, .connection]] =
      .ok (final, log) ∧ Served final 3 log :=
  run_parent_served [10, 11, 12] (by decide) _

end Processpool

end DataStructAlgorithm.HTTPD1
