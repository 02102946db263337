import DataStructAlgorithm.HTTPD2.OneShot
import DataStructAlgorithm.HTTPD2.Reuse

/-! # The server with its connections

The event loop and its pool, together with what the elements of `users` hold. A thread reads
the element when it enters one of its functions and writes it back at the end, so that what
another thread writes in between is lost. -/

namespace DataStructAlgorithm.HTTPD2

open Foundation

/-- The bytes that a call of `recv` gives; after an error `read` ends as after none. -/
def Recv.piece : Recv → List Byte
  | .received bytes => bytes
  | .failed => []

/-- What a connection is watched for where it has been reported. -/
def Ready.watch : Ready → Option (Nat × Interest)
  | .input sockfd => some (sockfd, .input)
  | .output sockfd => some (sockfd, .output)
  | _ => none

structure Httpd where
  loop : EventLoop
  users : Nat → HttpConn
  /-- What a thread has read of the element whose function it is in; `none` stands for the
  main thread. -/
  loaded : Option Nat → Option HttpConn
  /-- What `read` or `write` has returned to the main thread. -/
  returned : Option Bool
  /-- What the last call of `read` for a descriptor has received. -/
  pieces : Nat → List (List Byte)
  /-- What has happened to a connection since its descriptor was given out. No step depends
  on it. -/
  record : Nat → List (SocketEvent × Observation)

namespace Httpd

/-- The steps of the threads: those that call no function of an element but `init` and
`close_conn`, the beginning of a function, and the ends of the three that read and write. -/
inductive Action
  | other (action : EventLoop.Action)
  | enter (thread : Option Nat)
  | read (outcomes : List Recv)
  | write (outcomes : List Writev)
  | process (worker : Nat) (files : Files) (undefinedCode : HttpConn → HttpCode)

def start (users : Nat → HttpConn) (maxRequest workers : Nat) : Httpd :=
  ⟨.start maxRequest workers, users, fun _ => none, none, fun _ => [], fun _ => []⟩

/-- A step of the event loop. -/
def follow (httpd : Httpd) (action : EventLoop.Action) : Option (Httpd × EventLoop.Event) :=
  (httpd.loop.step action).map fun result => ({ httpd with loop := result.1 }, result.2)

/-- The thread writes the element back. -/
def store (httpd : Httpd) (thread : Option Nat) (fd : Nat) (conn : HttpConn) : Httpd :=
  { httpd with
    users := fun other => if other = fd then conn else httpd.users other
    loaded := fun other => if other = thread then none else httpd.loaded other }

def note (httpd : Httpd) (fd : Nat) (event : SocketEvent) (observation : Observation) : Httpd :=
  { httpd with
    record := fun other =>
      if other = fd then httpd.record fd ++ [(event, observation)] else httpd.record other }

/-- `users[connfd].init(connfd, client_address)`, by which a new record begins. -/
def initUser (httpd : Httpd) (connfd : Nat) : Httpd :=
  { httpd with
    users := fun other => if other = connfd then (httpd.users connfd).init else httpd.users other
    record := fun other => if other = connfd then [] else httpd.record other }

/-- The element whose function the thread enters next. -/
def entered (httpd : Httpd) : Option Nat → Option Nat
  | none =>
      match httpd.loop.handling, httpd.returned with
      | some ready, none => ready.watch.map Prod.fst
      | _, _ => none
  | some worker =>
      match httpd.loop.pool.workers[worker]? with
      | some (.processing ⟨fd, .working⟩) => some fd
      | _ => none

/-- The main thread comes to `close_conn`. -/
def mustClose (httpd : Httpd) : Bool :=
  match httpd.loop.handling with
  | some (.failed _) => true
  | _ => httpd.returned == some false

/-- An event for which `process` is not called. -/
def unread (pieces : List (List Byte)) : SocketEvent :=
  .readable pieces (fun _ => none) fun _ => .noRequest

/-- The end of `read`. -/
def endRead (httpd : Httpd) (fd : Nat) (outcomes : List Recv) (readable : Bool)
    (conn : HttpConn) : Httpd :=
  let httpd := httpd.store none fd conn
  let pieces := outcomes.map Recv.piece
  let httpd := { httpd with
    returned := some readable
    pieces := fun other => if other = fd then pieces else httpd.pieces other }
  if readable then httpd else httpd.note fd (unread pieces) (.ended .closes [])

/-- The end of `write`. -/
def endWrite (httpd : Httpd) (fd : Nat) (outcomes : List Writev) (call : WriteCall) :
    Option (Httpd × EventLoop.Event) :=
  let httpd := (httpd.store none fd call.conn).note fd (.writable outcomes)
    (.ended call.ending call.sent)
  match call.ending with
  | .waits => httpd.follow (.written .input)
  | .answers => httpd.follow (.written .output)
  | .closes => some ({ httpd with returned := some false }, .quiet)

/-- The end of `process`, but for what is behind `close_conn`. -/
def endProcess (httpd : Httpd) (worker fd : Nat) (event : SocketEvent) (ending : Ending)
    (conn : HttpConn) : Option (Httpd × EventLoop.Event) :=
  let httpd := (httpd.store (some worker) fd conn).note fd event (.ended ending [])
  match ending with
  | .waits => httpd.follow (.rearm worker .input)
  | .answers => httpd.follow (.rearm worker .output)
  | .closes => httpd.follow (.closeFd worker)

/-- A step, which there is not where a function faults. -/
def step (httpd : Httpd) : Action → Option (Httpd × EventLoop.Event)
  | .other (.written _) => none
  | .other (.rearm _ _) => none
  | .other (.closeFd _) => none
  | .other .accept =>
      (httpd.initUser (lowestUnused (alwaysOpen ++ httpd.loop.connections))).follow .accept
  | .other .append =>
      if httpd.returned = some true then { httpd with returned := none }.follow .append else none
  | .other .close =>
      if httpd.mustClose then { httpd with returned := none }.follow .close else none
  | .other action => httpd.follow action
  | .enter thread =>
      match httpd.entered thread, httpd.loaded thread with
      | some fd, none =>
          some ({ httpd with loaded := fun other =>
            if other = thread then some (httpd.users fd) else httpd.loaded other }, .quiet)
      | _, _ => none
  | .read outcomes =>
      match httpd.loop.handling, httpd.loaded none with
      | some (.input fd), some conn =>
          match conn.read outcomes with
          | .ok (readable, conn) => some (httpd.endRead fd outcomes readable conn, .quiet)
          | .error _ => none
      | _, _ => none
  | .write outcomes =>
      match httpd.loop.handling, httpd.loaded none with
      | some (.output fd), some conn => (conn.write outcomes).bind (httpd.endWrite fd outcomes)
      | _, _ => none
  | .process worker files undefinedCode =>
      match httpd.entered (some worker), httpd.loaded (some worker) with
      | some fd, some conn =>
          match conn.process files fun conn => undefinedCode conn.bare with
          | .ok (ending, conn) =>
              httpd.endProcess worker fd (.readable (httpd.pieces fd) files undefinedCode) ending
                conn
          | .error _ => none
      | _, _ => none

/-- As for the event loop alone: a descriptor is not given out again while a worker is still
leaving its last connection. -/
def Apart (httpd : Httpd) : Action → Prop
  | .other action => httpd.loop.Apart action
  | _ => True

instance (httpd : Httpd) : (action : Action) → Decidable (httpd.Apart action)
  | .other action => inferInstanceAs (Decidable (httpd.loop.Apart action))
  | .enter _ => isTrue trivial
  | .read _ => isTrue trivial
  | .write _ => isTrue trivial
  | .process _ _ _ => isTrue trivial

/-! ## What a step does -/

/-- The steps of the event loop that change no connection. -/
def Plain : EventLoop.Action → Prop
  | .accept => False
  | .append => False
  | .close => False
  | .written _ => False
  | .rearm _ _ => False
  | .closeFd _ => False
  | _ => True

inductive Stepped (httpd : Httpd) : Action → Httpd → EventLoop.Event → Prop
  | plain {action : EventLoop.Action} {after : EventLoop} {event : EventLoop.Event}
      (plain : Plain action) (taken : httpd.loop.step action = some (after, event)) :
      Stepped httpd (.other action) { httpd with loop := after } event
  | accept {after : EventLoop} {event : EventLoop.Event}
      (taken : httpd.loop.step .accept = some (after, event)) :
      Stepped httpd (.other .accept)
        { httpd.initUser (lowestUnused (alwaysOpen ++ httpd.loop.connections)) with
          loop := after } event
  | append {after : EventLoop} {event : EventLoop.Event} (returned : httpd.returned = some true)
      (taken : httpd.loop.step .append = some (after, event)) :
      Stepped httpd (.other .append) { httpd with returned := none, loop := after } event
  | close {after : EventLoop} {event : EventLoop.Event} (must : httpd.mustClose = true)
      (taken : httpd.loop.step .close = some (after, event)) :
      Stepped httpd (.other .close) { httpd with returned := none, loop := after } event
  | enter {thread : Option Nat} {fd : Nat} (entered : httpd.entered thread = some fd) :
      Stepped httpd (.enter thread)
        { httpd with loaded := fun other =>
            if other = thread then some (httpd.users fd) else httpd.loaded other } .quiet
  | read {outcomes : List Recv} {fd : Nat} {conn result : HttpConn} {readable : Bool}
      (handling : httpd.loop.handling = some (.input fd)) (loaded : httpd.loaded none = some conn)
      (received : conn.read outcomes = .ok (readable, result)) :
      Stepped httpd (.read outcomes) (httpd.endRead fd outcomes readable result) .quiet
  | write {outcomes : List Writev} {fd : Nat} {conn : HttpConn} {call : WriteCall} {after : Httpd}
      {event : EventLoop.Event} (handling : httpd.loop.handling = some (.output fd))
      (loaded : httpd.loaded none = some conn) (wrote : conn.write outcomes = some call)
      (ended : httpd.endWrite fd outcomes call = some (after, event)) :
      Stepped httpd (.write outcomes) after event
  | process {worker fd : Nat} {files : Files} {undefinedCode : HttpConn → HttpCode}
      {conn result : HttpConn} {ending : Ending} {after : Httpd} {event : EventLoop.Event}
      (working : httpd.loop.pool.workers[worker]? = some (.processing ⟨fd, .working⟩))
      (loaded : httpd.loaded (some worker) = some conn)
      (processed : conn.process files (fun conn => undefinedCode conn.bare) =
        .ok (ending, result))
      (ended : httpd.endProcess worker fd (.readable (httpd.pieces fd) files undefinedCode) ending
        result = some (after, event)) :
      Stepped httpd (.process worker files undefinedCode) after event

theorem follow_eq_some {httpd after : Httpd} {action : EventLoop.Action} {event : EventLoop.Event}
    (followed : httpd.follow action = some (after, event)) :
    ∃ loop, httpd.loop.step action = some (loop, event) ∧ after = { httpd with loop } := by
  rcases Option.map_eq_some_iff.mp followed with ⟨⟨loop, other⟩, taken, equal⟩
  cases equal
  exact ⟨loop, taken, rfl⟩

theorem working_of_entered {httpd : Httpd} {worker fd : Nat}
    (entered : httpd.entered (some worker) = some fd) :
    httpd.loop.pool.workers[worker]? = some (.processing ⟨fd, .working⟩) := by
  rw [Httpd.entered] at entered
  split at entered
  · next found =>
      cases entered
      exact found
  · cases entered

theorem stepped_of_step {httpd after : Httpd} {action : Action} {event : EventLoop.Event}
    (stepped : httpd.step action = some (after, event)) : Stepped httpd action after event := by
  have plainly : ∀ action : EventLoop.Action, Plain action →
      httpd.follow action = some (after, event) → Stepped httpd (.other action) after event := by
    intro action plain followed
    rcases follow_eq_some followed with ⟨loop, taken, rfl⟩
    exact .plain plain taken
  cases action with
  | other action =>
      cases action with
      | accept =>
          rcases follow_eq_some stepped with ⟨loop, taken, rfl⟩
          exact .accept taken
      | append =>
          rw [step] at stepped
          split at stepped
          · next returned =>
              rcases follow_eq_some stepped with ⟨loop, taken, rfl⟩
              exact .append returned taken
          · cases stepped
      | close =>
          rw [step] at stepped
          split at stepped
          · next must =>
              rcases follow_eq_some stepped with ⟨loop, taken, rfl⟩
              exact .close must taken
          · cases stepped
      | written interest => cases stepped
      | rearm worker interest => cases stepped
      | closeFd worker => cases stepped
      | poll events => exact plainly _ trivial stepped
      | take => exact plainly _ trivial stepped
      | refuse => exact plainly _ trivial stepped
      | post => exact plainly _ trivial stepped
      | wait worker => exact plainly _ trivial stepped
      | pop worker => exact plainly _ trivial stepped
      | clear worker => exact plainly _ trivial stepped
      | leave worker => exact plainly _ trivial stepped
  | enter thread =>
      rw [step] at stepped
      split at stepped
      · next entered _ =>
          cases stepped
          exact .enter entered
      · cases stepped
  | read outcomes =>
      rw [step] at stepped
      split at stepped
      · next handling loaded =>
          split at stepped
          · next received =>
              cases stepped
              exact .read handling loaded received
          · cases stepped
      · cases stepped
  | write outcomes =>
      rw [step] at stepped
      split at stepped
      · next handling loaded =>
          rcases Option.bind_eq_some_iff.mp stepped with ⟨call, wrote, ended⟩
          exact .write handling loaded wrote ended
      · cases stepped
  | process worker files undefinedCode =>
      rw [step] at stepped
      split at stepped
      · next entered loaded =>
          split at stepped
          · next processed =>
              exact .process (working_of_entered entered) loaded processed stepped
          · cases stepped
      · cases stepped

end Httpd

end DataStructAlgorithm.HTTPD2
