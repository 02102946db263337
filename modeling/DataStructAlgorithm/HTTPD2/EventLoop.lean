import DataStructAlgorithm.HTTPD2.PoolRuns
import DataStructAlgorithm.HTTPD2.ThreadPool
import DataStructAlgorithm.HTTPD2.Users

/-! # The event loop of `HTTPD2.0/main.cpp` with its thread pool

The main thread waits for events, reads and writes, and the workers of the pool call
`process`. A connection is registered with `EPOLLONESHOT`: an event that is reported for it
disables it, and only `modfd` enables it again.

What `read`, `write` and `process_write` return is left open, and so is whether `m_user_count`,
which the workers change without a lock, turns a client away. -/

namespace DataStructAlgorithm.HTTPD2

open Foundation

/-- What a registered connection waits for; errors are reported in any case. -/
inductive Interest
  | input
  | output
  deriving DecidableEq, Repr

/-- An element of `events`, by the branch of the loop that it takes. -/
inductive Ready
  | connection
  | failed (sockfd : Nat)
  | input (sockfd : Nat)
  | output (sockfd : Nat)
  deriving DecidableEq, Repr

def Ready.sockfd : Ready → Option Nat
  | .connection => none
  | .failed sockfd => some sockfd
  | .input sockfd => some sockfd
  | .output sockfd => some sockfd

/-- How far a call of `process` has come: `closed` is behind the `removefd` of its
`close_conn`, `cleared` is behind `m_sockfd = -1`. -/
inductive Stage
  | working
  | closed
  | cleared
  deriving DecidableEq, Repr

/-- A call of `process` for an element of `users`. -/
structure Call where
  sockfd : Nat
  stage : Stage
  deriving DecidableEq, Repr

structure EventLoop where
  /-- The `m_sockfd` of the elements of `users`, where `none` stands for -1. -/
  sockets : Nat → Option Nat
  /-- The descriptors of connections that are open, which are those registered. -/
  connections : List Nat
  /-- The registered connections that are not disabled. -/
  armed : List (Nat × Interest)
  /-- The reported events that the main thread has not come to. -/
  events : List Ready
  /-- The event that the main thread is at. -/
  handling : Option Ready
  /-- The pool, to which the main thread is the only producer. -/
  pool : ThreadPool Call

namespace EventLoop

/-- The steps of the threads; a worker is given by its number. -/
inductive Action
  | poll (events : List Ready)
  | take
  /-- `accept` fails, or there are too many users. -/
  | refuse
  | accept
  /-- `close_conn` in the main thread. -/
  | close
  /-- `write` returns true. -/
  | written (interest : Interest)
  | append
  | post
  | wait (worker : Nat)
  | pop (worker : Nat)
  /-- The end of a `process` that does not close the connection. -/
  | rearm (worker : Nat) (interest : Interest)
  | closeFd (worker : Nat)
  | clear (worker : Nat)
  /-- The end of a `process` that has closed the connection. -/
  | leave (worker : Nat)
  deriving DecidableEq, Repr

inductive Event
  | quiet
  /-- `append` returns false, which the main thread does not look at. -/
  | dropped (sockfd : Nat)
  deriving DecidableEq, Repr

def start (maxRequest workers : Nat) : EventLoop :=
  ⟨fun _ => none, [], [], [], none, .initial maxRequest 1 workers⟩

def setSocket (loop : EventLoop) (fd : Nat) (socket : Option Nat) : EventLoop :=
  { loop with sockets := fun other => if other = fd then socket else loop.sockets other }

/-- `users[connfd].init(connfd, client_address)` with `addfd`. -/
def init (loop : EventLoop) (connfd : Nat) : EventLoop :=
  { loop.setSocket connfd (some connfd) with
    connections := connfd :: loop.connections
    armed := (connfd, .input) :: loop.armed }

/-- `modfd(m_epollfd, m_sockfd, ev)`, which fails for what is not registered. -/
def modfd (loop : EventLoop) (socket : Option Nat) (interest : Interest) : EventLoop :=
  match socket with
  | none => loop
  | some sockfd =>
      if sockfd ∈ loop.connections then
        { loop with armed := (sockfd, interest) :: loop.armed.filter (·.1 ≠ sockfd) }
      else loop

def removefd (loop : EventLoop) (sockfd : Nat) : EventLoop :=
  { loop with
    connections := loop.connections.erase sockfd
    armed := loop.armed.filter (·.1 ≠ sockfd) }

/-- `users[sockfd].close_conn()` in the main thread. -/
def closeConn (loop : EventLoop) (sockfd : Nat) : EventLoop :=
  match loop.sockets sockfd with
  | none => loop
  | some socket => (loop.removefd socket).setSocket sockfd none

/-- What `epoll_wait` can report: one event for a connection that is not disabled. -/
def Reportable (loop : EventLoop) : Ready → Prop
  | .connection => True
  | .failed sockfd => sockfd ∈ loop.armed.map Prod.fst
  | .input sockfd => (sockfd, Interest.input) ∈ loop.armed
  | .output sockfd => (sockfd, Interest.output) ∈ loop.armed

instance (loop : EventLoop) : (ready : Ready) → Decidable (loop.Reportable ready)
  | .connection => isTrue trivial
  | .failed sockfd => inferInstanceAs (Decidable (sockfd ∈ loop.armed.map Prod.fst))
  | .input sockfd => inferInstanceAs (Decidable ((sockfd, Interest.input) ∈ loop.armed))
  | .output sockfd => inferInstanceAs (Decidable ((sockfd, Interest.output) ∈ loop.armed))

/-- The main thread is between two events. -/
def Idle (loop : EventLoop) : Prop :=
  loop.handling = none ∧ loop.pool.producers = [.outside]

instance (loop : EventLoop) : Decidable loop.Idle := inferInstanceAs (Decidable (_ ∧ _))

/-- The worker goes on with its call. -/
def advance (loop : EventLoop) (worker sockfd : Nat) (stage : Stage) : EventLoop :=
  { loop with pool := { loop.pool with
      workers := loop.pool.workers.set worker (.processing ⟨sockfd, stage⟩) } }

/-- A step of the pool that the other threads do not see. -/
def inPool (loop : EventLoop) (result : Option (ThreadPool Call × ThreadPool.Event Call)) :
    Option (EventLoop × Event) :=
  result.map fun result => ({ loop with pool := result.1 }, .quiet)

/-- The steps of the main thread. -/
def mainStep (loop : EventLoop) : Action → Option (EventLoop × Event)
  | .poll events =>
      if loop.Idle ∧ loop.events = [] ∧ (events.filterMap Ready.sockfd).Nodup ∧
          ∀ ready ∈ events, loop.Reportable ready then
        some ({ loop with
          events
          armed := loop.armed.filter (·.1 ∉ events.filterMap Ready.sockfd) }, .quiet)
      else none
  | .take =>
      match loop.events with
      | [] => none
      | ready :: rest =>
          if loop.Idle then some ({ loop with events := rest, handling := some ready }, .quiet)
          else none
  | .refuse =>
      if loop.handling = some .connection then some ({ loop with handling := none }, .quiet)
      else none
  | .accept =>
      let connfd := lowestUnused (alwaysOpen ++ loop.connections)
      -- `users` has no element for a larger descriptor
      if loop.handling = some .connection ∧ connfd < maxFd then
        some ({ loop.init connfd with handling := none }, .quiet)
      else none
  | .close =>
      (loop.handling.bind Ready.sockfd).map fun sockfd =>
        ({ loop.closeConn sockfd with handling := none }, .quiet)
  | .written interest =>
      match loop.handling with
      | some (.output sockfd) =>
          some ({ loop.modfd (loop.sockets sockfd) interest with handling := none }, .quiet)
      | _ => none
  | .append =>
      match loop.handling with
      | some (.input sockfd) =>
          (loop.pool.append 0 (some ⟨sockfd, .working⟩)).map fun result =>
            ({ loop with pool := result.1, handling := none },
              match result.2 with
              | .rejected .. => .dropped sockfd
              | _ => .quiet)
      | _ => none
  | .post => loop.inPool (loop.pool.post 0)
  | _ => none

/-- The steps of a worker. -/
def workerStep (loop : EventLoop) : Action → Option (EventLoop × Event)
  | .wait worker => loop.inPool (loop.pool.wait worker)
  | .pop worker => loop.inPool (loop.pool.pop worker)
  | .rearm worker interest =>
      match loop.pool.workers[worker]? with
      | some (.processing ⟨sockfd, .working⟩) =>
          (loop.modfd (loop.sockets sockfd) interest).inPool (loop.pool.process worker)
      | _ => none
  | .closeFd worker =>
      match loop.pool.workers[worker]? with
      | some (.processing ⟨sockfd, .working⟩) =>
          match loop.sockets sockfd with
          | none => some (loop.advance worker sockfd .cleared, .quiet)
          | some socket => some ((loop.removefd socket).advance worker sockfd .closed, .quiet)
      | _ => none
  | .clear worker =>
      match loop.pool.workers[worker]? with
      | some (.processing ⟨sockfd, .closed⟩) =>
          some ((loop.setSocket sockfd none).advance worker sockfd .cleared, .quiet)
      | _ => none
  | .leave worker =>
      match loop.pool.workers[worker]? with
      | some (.processing ⟨sockfd, .cleared⟩) =>
          (loop.modfd (loop.sockets sockfd) .output).inPool (loop.pool.process worker)
      | _ => none
  | _ => none

def step (loop : EventLoop) (action : Action) : Option (EventLoop × Event) :=
  (loop.mainStep action).or (loop.workerStep action)

end EventLoop

end DataStructAlgorithm.HTTPD2

/-! ## The steps of the event loop -/

namespace DataStructAlgorithm.HTTPD2

open Foundation

namespace EventLoop

/-- What the steps do. -/
inductive Stepped (loop : EventLoop) : Action → EventLoop → Event → Prop
  | poll {events : List Ready} (idle : loop.Idle) (handled : loop.events = [])
      (nodup : (events.filterMap Ready.sockfd).Nodup)
      (reportable : ∀ ready ∈ events, loop.Reportable ready) :
      Stepped loop (.poll events)
        { loop with
          events
          armed := loop.armed.filter (·.1 ∉ events.filterMap Ready.sockfd) } .quiet
  | take {ready : Ready} {rest : List Ready} (idle : loop.Idle)
      (front : loop.events = ready :: rest) :
      Stepped loop .take { loop with events := rest, handling := some ready } .quiet
  | refuse (handled : loop.handling = some .connection) :
      Stepped loop .refuse { loop with handling := none } .quiet
  | accept (handled : loop.handling = some .connection)
      (within : lowestUnused (alwaysOpen ++ loop.connections) < maxFd) :
      Stepped loop .accept
        { loop.init (lowestUnused (alwaysOpen ++ loop.connections)) with handling := none } .quiet
  | close {ready : Ready} {sockfd : Nat} (handled : loop.handling = some ready)
      (isFor : ready.sockfd = some sockfd) :
      Stepped loop .close { loop.closeConn sockfd with handling := none } .quiet
  | written {sockfd : Nat} {interest : Interest}
      (handled : loop.handling = some (.output sockfd)) :
      Stepped loop (.written interest)
        { loop.modfd (loop.sockets sockfd) interest with handling := none } .quiet
  | drop {sockfd : Nat} (handled : loop.handling = some (.input sockfd))
      (full : loop.pool.maxRequest < loop.pool.workqueue.length) :
      Stepped loop .append { loop with handling := none } (.dropped sockfd)
  | push {sockfd : Nat} (handled : loop.handling = some (.input sockfd))
      (outside : loop.pool.producers[0]? = some .outside)
      (room : loop.pool.workqueue.length ≤ loop.pool.maxRequest) :
      Stepped loop .append
        { loop with
          handling := none
          pool := { loop.pool with
            workqueue := loop.pool.workqueue ++ [some ⟨sockfd, .working⟩]
            producers := loop.pool.producers.set 0 .pushed } } .quiet
  | post (pushed : loop.pool.producers[0]? = some .pushed) :
      Stepped loop .post
        { loop with pool := { loop.pool with
            queuestat := loop.pool.queuestat + 1
            producers := loop.pool.producers.set 0 .outside } } .quiet
  | wait {worker value : Nat} (waiting : loop.pool.workers[worker]? = some .waiting)
      (positive : loop.pool.queuestat = value + 1) :
      Stepped loop (.wait worker)
        { loop with pool := { loop.pool with
            queuestat := value
            workers := loop.pool.workers.set worker .passed } } .quiet
  | popEmpty {worker : Nat} (passed : loop.pool.workers[worker]? = some .passed)
      (empty : loop.pool.workqueue = []) :
      Stepped loop (.pop worker)
        { loop with pool := { loop.pool with
            workers := loop.pool.workers.set worker .waiting } } .quiet
  | pop {worker : Nat} {request : Option Call} {rest : List (Option Call)}
      (passed : loop.pool.workers[worker]? = some .passed)
      (front : loop.pool.workqueue = request :: rest) :
      Stepped loop (.pop worker)
        { loop with pool := { loop.pool with
            workqueue := rest
            workers := loop.pool.workers.set worker (Worker.take request) } } .quiet
  | rearm {worker sockfd : Nat} {interest : Interest}
      (working : loop.pool.workers[worker]? = some (.processing ⟨sockfd, .working⟩)) :
      Stepped loop (.rearm worker interest)
        { loop.modfd (loop.sockets sockfd) interest with pool := { loop.pool with
            workers := loop.pool.workers.set worker .waiting } } .quiet
  | closeNone {worker sockfd : Nat}
      (working : loop.pool.workers[worker]? = some (.processing ⟨sockfd, .working⟩))
      (unset : loop.sockets sockfd = none) :
      Stepped loop (.closeFd worker) (loop.advance worker sockfd .cleared) .quiet
  | closeFd {worker sockfd socket : Nat}
      (working : loop.pool.workers[worker]? = some (.processing ⟨sockfd, .working⟩))
      (isSet : loop.sockets sockfd = some socket) :
      Stepped loop (.closeFd worker) ((loop.removefd socket).advance worker sockfd .closed) .quiet
  | clear {worker sockfd : Nat}
      (closed : loop.pool.workers[worker]? = some (.processing ⟨sockfd, .closed⟩)) :
      Stepped loop (.clear worker) ((loop.setSocket sockfd none).advance worker sockfd .cleared)
        .quiet
  | leave {worker sockfd : Nat}
      (cleared : loop.pool.workers[worker]? = some (.processing ⟨sockfd, .cleared⟩)) :
      Stepped loop (.leave worker)
        { loop.modfd (loop.sockets sockfd) .output with pool := { loop.pool with
            workers := loop.pool.workers.set worker .waiting } } .quiet

/-- What `modfd` leaves alone. -/
theorem modfd_frame (loop : EventLoop) (socket : Option Nat) (interest : Interest) :
    (loop.modfd socket interest).pool = loop.pool ∧
      (loop.modfd socket interest).events = loop.events ∧
      (loop.modfd socket interest).handling = loop.handling := by
  cases socket with
  | none => exact ⟨rfl, rfl, rfl⟩
  | some sockfd =>
      rw [modfd]
      split <;> exact ⟨rfl, rfl, rfl⟩

@[simp] theorem modfd_pool (loop : EventLoop) (socket : Option Nat) (interest : Interest) :
    (loop.modfd socket interest).pool = loop.pool := (loop.modfd_frame socket interest).1

@[simp] theorem modfd_events (loop : EventLoop) (socket : Option Nat) (interest : Interest) :
    (loop.modfd socket interest).events = loop.events := (loop.modfd_frame socket interest).2.1

@[simp] theorem modfd_handling (loop : EventLoop) (socket : Option Nat) (interest : Interest) :
    (loop.modfd socket interest).handling = loop.handling :=
  (loop.modfd_frame socket interest).2.2

theorem inPool_eq_some {loop after : EventLoop} {event : Event}
    {result : Option (ThreadPool Call × ThreadPool.Event Call)}
    (stepped : loop.inPool result = some (after, event)) :
    ∃ pool poolEvent, result = some (pool, poolEvent) ∧ after = { loop with pool } ∧
      event = .quiet := by
  rcases Option.map_eq_some_iff.mp stepped with ⟨⟨pool, poolEvent⟩, found, equal⟩
  cases equal
  exact ⟨pool, poolEvent, found, rfl, rfl⟩

/-- The end of a call of `process`. -/
theorem process_processing {loop : EventLoop} {worker : Nat} {call : Call}
    (found : loop.pool.workers[worker]? = some (.processing call)) :
    loop.pool.process worker = some ({ loop.pool with
      workers := loop.pool.workers.set worker .waiting }, .processed worker call) := by
  rw [ThreadPool.process, found]

theorem stepped_of_mainStep {loop after : EventLoop} {action : Action} {event : Event}
    (stepped : loop.mainStep action = some (after, event)) : Stepped loop action after event := by
  cases action with
  | poll events =>
      rw [mainStep] at stepped
      split at stepped
      · next allowed =>
          cases stepped
          exact .poll allowed.1 allowed.2.1 allowed.2.2.1 allowed.2.2.2
      · cases stepped
  | take =>
      rw [mainStep] at stepped
      split at stepped
      · cases stepped
      · next ready rest front =>
          split at stepped
          · next idle =>
              cases stepped
              exact .take idle front
          · cases stepped
  | refuse =>
      rw [mainStep] at stepped
      split at stepped
      · next handled =>
          cases stepped
          exact .refuse handled
      · cases stepped
  | accept =>
      rw [mainStep] at stepped
      split at stepped
      · next allowed =>
          cases stepped
          exact .accept allowed.1 allowed.2
      · cases stepped
  | close =>
      rcases Option.map_eq_some_iff.mp stepped with ⟨sockfd, found, equal⟩
      rcases Option.bind_eq_some_iff.mp found with ⟨ready, handled, isFor⟩
      cases equal
      exact .close handled isFor
  | written interest =>
      rw [mainStep] at stepped
      split at stepped
      · next handled =>
          cases stepped
          exact .written handled
      · cases stepped
  | append =>
      rw [mainStep] at stepped
      split at stepped
      · next sockfd handled =>
          rcases Option.map_eq_some_iff.mp stepped with ⟨⟨pool, poolEvent⟩, appended, equal⟩
          have taken : loop.pool.step (.append 0 (some ⟨sockfd, .working⟩)) =
              some (pool, poolEvent) := appended
          cases ThreadPool.stepped_of_step taken with
          | reject outside full =>
              cases equal
              exact .drop handled full
          | accept outside room =>
              cases equal
              exact .push handled outside room
      · cases stepped
  | post =>
      rcases inPool_eq_some stepped with ⟨pool, poolEvent, posted, rfl, rfl⟩
      have taken : loop.pool.step (.post 0) = some (pool, poolEvent) := posted
      cases ThreadPool.stepped_of_step taken with
      | post pushed => exact .post pushed
  | wait worker => cases stepped
  | pop worker => cases stepped
  | rearm worker interest => cases stepped
  | closeFd worker => cases stepped
  | clear worker => cases stepped
  | leave worker => cases stepped

theorem stepped_of_workerStep {loop after : EventLoop} {action : Action} {event : Event}
    (stepped : loop.workerStep action = some (after, event)) :
    Stepped loop action after event := by
  cases action with
  | wait worker =>
      rcases inPool_eq_some stepped with ⟨pool, poolEvent, waited, rfl, rfl⟩
      have taken : loop.pool.step (.wait worker) = some (pool, poolEvent) := waited
      cases ThreadPool.stepped_of_step taken with
      | wait waiting positive => exact .wait waiting positive
  | pop worker =>
      rcases inPool_eq_some stepped with ⟨pool, poolEvent, popped, rfl, rfl⟩
      have taken : loop.pool.step (.pop worker) = some (pool, poolEvent) := popped
      cases ThreadPool.stepped_of_step taken with
      | popEmpty passed empty => exact .popEmpty passed empty
      | pop passed front => exact .pop passed front
  | rearm worker interest =>
      rw [workerStep] at stepped
      split at stepped
      · next working =>
          rcases inPool_eq_some stepped with ⟨pool, poolEvent, ended, rfl, rfl⟩
          rw [process_processing working] at ended
          cases ended
          exact .rearm working
      · cases stepped
  | closeFd worker =>
      rw [workerStep] at stepped
      split at stepped
      · next working =>
          split at stepped
          · next unset =>
              cases stepped
              exact .closeNone working unset
          · next isSet =>
              cases stepped
              exact .closeFd working isSet
      · cases stepped
  | clear worker =>
      rw [workerStep] at stepped
      split at stepped
      · next closed =>
          cases stepped
          exact .clear closed
      · cases stepped
  | leave worker =>
      rw [workerStep] at stepped
      split at stepped
      · next cleared =>
          rcases inPool_eq_some stepped with ⟨pool, poolEvent, ended, rfl, rfl⟩
          rw [process_processing cleared] at ended
          cases ended
          exact .leave cleared
      · cases stepped
  | poll events => cases stepped
  | take => cases stepped
  | refuse => cases stepped
  | accept => cases stepped
  | close => cases stepped
  | written interest => cases stepped
  | append => cases stepped
  | post => cases stepped

theorem stepped_of_step {loop after : EventLoop} {action : Action} {event : Event}
    (stepped : loop.step action = some (after, event)) : Stepped loop action after event := by
  rcases Option.or_eq_some_iff.mp stepped with main | ⟨_, worker⟩
  · exact stepped_of_mainStep main
  · exact stepped_of_workerStep worker

end EventLoop

end DataStructAlgorithm.HTTPD2
