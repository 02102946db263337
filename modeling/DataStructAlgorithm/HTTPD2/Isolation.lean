import DataStructAlgorithm.HTTPD2.Httpd

/-! # Clients are served apart from each other

A connection is in one function at a time, so that what a thread has read of its element is
still there when it writes the element back. The threads together do for each client what a
single thread does that serves it alone. -/

namespace DataStructAlgorithm.HTTPD2

open Foundation

theorem read_pieces (conn : HttpConn) (outcomes : List Recv) :
    conn.read ((outcomes.map Recv.piece).map .received) = conn.read outcomes := by
  have loops : ∀ conn : HttpConn, conn.readLoop ((outcomes.map Recv.piece).map .received) =
      conn.readLoop outcomes := by
    induction outcomes with
    | nil => exact fun _ => rfl
    | cons outcome rest induction =>
        intro conn
        cases outcome with
        | failed => simp [Recv.piece, HttpConn.readLoop]
        | received bytes =>
            simp only [List.map_cons, Recv.piece, HttpConn.readLoop, induction]
  rw [HttpConn.read, HttpConn.read, loops]

namespace Httpd

open EventLoop (OneShot)

/-! ## The connection of one client -/

/-- The record is that of a session which a single thread serves. -/
def Sequential (record : List (SocketEvent × Observation)) (session : Session) : Prop :=
  ∃ before, runSteps Session.step (.start before) (record.map Prod.fst) =
    some (session, record.map Prod.snd)

theorem sequential_nil (conn : HttpConn) : Sequential [] (.start conn) := ⟨conn, rfl⟩

theorem Sequential.snoc {record : List (SocketEvent × Observation)} {session next : Session}
    {event : SocketEvent} {observation : Observation} (sequential : Sequential record session)
    (taken : session.step event = some (next, observation)) :
    Sequential (record ++ [(event, observation)]) next := by
  rcases sequential with ⟨before, ran⟩
  have last : runSteps Session.step session [event] = some (next, [observation]) := by
    simp [runSteps, taken]
  refine ⟨before, ?_⟩
  rw [List.map_append, List.map_append]
  exact runSteps_append ran last

/-- A connection waits for an event, or `read` has returned for the last one. -/
inductive Phase
  | watched (interest : Interest)
  | received

/-- The places where a connection is in a phase. -/
inductive At (httpd : Httpd) (fd : Nat) : Phase → Prop
  | armed {interest : Interest} (member : (fd, interest) ∈ httpd.loop.armed) :
      At httpd fd (.watched interest)
  | reported {ready : Ready} {interest : Interest} (member : ready ∈ httpd.loop.events)
      (watch : ready.watch = some (fd, interest)) : At httpd fd (.watched interest)
  | handled {ready : Ready} {interest : Interest} (handling : httpd.loop.handling = some ready)
      (returned : httpd.returned = none) (watch : ready.watch = some (fd, interest)) :
      At httpd fd (.watched interest)
  | read (handling : httpd.loop.handling = some (.input fd))
      (returned : httpd.returned = some true) : At httpd fd .received
  | queued (member : some ⟨fd, .working⟩ ∈ httpd.loop.pool.workqueue) : At httpd fd .received
  | working {worker : Nat}
      (found : httpd.loop.pool.workers[worker]? = some (.processing ⟨fd, .working⟩)) :
      At httpd fd .received

/-- The element holds what it would hold if a single thread served the connection. -/
def Good (httpd : Httpd) (fd : Nat) : Phase → Prop
  | .watched interest => Sequential (httpd.record fd) ⟨httpd.users fd, some interest⟩
  | .received => ∃ conn, Sequential (httpd.record fd) ⟨conn, some .input⟩ ∧
      conn.read ((httpd.pieces fd).map .received) = .ok (true, httpd.users fd)

structure Coherent (past : List EventLoop.Event) (httpd : Httpd) : Prop where
  oneShot : OneShot past httpd.loop
  sequential : ∀ fd, ∃ session, Sequential (httpd.record fd) session
  good : ∀ fd phase, httpd.At fd phase → httpd.Good fd phase
  /-- What a thread has read of an element is still there. -/
  loaded : ∀ thread conn, httpd.loaded thread = some conn →
    ∃ fd, httpd.entered thread = some fd ∧ conn = httpd.users fd
  /-- Nothing has been returned but from a function of a connection. -/
  returned : ∀ value, httpd.returned = some value →
    ∃ ready fd interest, httpd.loop.handling = some ready ∧ ready.watch = some (fd, interest)

theorem start_coherent (users : Nat → HttpConn) (maxRequest workers : Nat) :
    Coherent [] (start users maxRequest workers) where
  oneShot := EventLoop.start_oneShot maxRequest workers
  sequential := fun fd => ⟨_, sequential_nil (users fd)⟩
  good := by
    intro fd phase place
    cases place with
    | armed member => cases member
    | reported member watch => cases member
    | handled handling returned watch => cases handling
    | read handling returned => cases handling
    | queued member => cases member
    | working found =>
        simp only [start, EventLoop.start, ThreadPool.initial, List.getElem?_replicate] at found
        split at found <;> cases found
  loaded := fun thread conn found => by cases found
  returned := fun value equal => by cases equal

/-! ## Threads -/

section Threads

variable {httpd : Httpd} {past : List EventLoop.Event}

theorem sockfd_of_watch {ready : Ready} {fd : Nat} {interest : Interest}
    (watch : ready.watch = some (fd, interest)) : ready.sockfd = some fd := by
  cases ready <;> cases watch <;> rfl

theorem entered_main_iff (httpd : Httpd) (fd : Nat) : httpd.entered none = some fd ↔
    httpd.returned = none ∧ ∃ ready interest, httpd.loop.handling = some ready ∧
      ready.watch = some (fd, interest) := by
  rw [entered]
  constructor
  · intro found
    split at found
    · next ready handling returned =>
        rcases Option.map_eq_some_iff.mp found with ⟨⟨_, interest⟩, watch, rfl⟩
        exact ⟨returned, ready, interest, handling, watch⟩
    · cases found
  · rintro ⟨returned, ready, interest, handling, watch⟩
    rw [handling, returned]
    simp [watch]

theorem entered_worker_iff (httpd : Httpd) (worker fd : Nat) :
    httpd.entered (some worker) = some fd ↔
      httpd.loop.pool.workers[worker]? = some (.processing ⟨fd, .working⟩) := by
  refine ⟨working_of_entered, fun found => ?_⟩
  rw [entered, found]

/-- A thread that has entered a function of an element is inside. -/
theorem inside_of_entered {thread : Option Nat} {fd : Nat}
    (entered : httpd.entered thread = some fd) : httpd.loop.Inside fd thread := by
  cases thread with
  | none =>
      rcases (entered_main_iff httpd fd).mp entered with ⟨_, ready, _, handling, watch⟩
      exact ⟨ready, handling, sockfd_of_watch watch⟩
  | some worker => exact ⟨.working, (entered_worker_iff httpd worker fd).mp entered⟩

/-- The workers in a call that has closed nothing are not touched by a step that replaces
another one. -/
theorem getElem?_set_working {workers : List (Worker Call)} {worker other fd : Nat}
    {old new : Worker Call} (found : workers[worker]? = some old)
    (notWorking : old ≠ .processing ⟨fd, .working⟩)
    (working : workers[other]? = some (.processing ⟨fd, .working⟩)) :
    (workers.set worker new)[other]? = some (.processing ⟨fd, .working⟩) := by
  have different : worker ≠ other := by
    intro same
    rw [same, working] at found
    exact notWorking (Option.some.inj found).symm
  rwa [List.getElem?_set_ne different]

variable (coherent : Coherent past httpd)

include coherent

/-- The main thread has read an element: what it is handling. -/
theorem Coherent.main_loaded {ready : Ready} {fd : Nat} {interest : Interest} {conn : HttpConn}
    (handling : httpd.loop.handling = some ready) (watch : ready.watch = some (fd, interest))
    (loaded : httpd.loaded none = some conn) :
    httpd.entered none = some fd ∧ conn = httpd.users fd ∧
      Sequential (httpd.record fd) ⟨httpd.users fd, some interest⟩ := by
  rcases coherent.loaded none conn loaded with ⟨other, entered, rfl⟩
  rcases (entered_main_iff httpd other).mp entered with
    ⟨returned, otherReady, _, otherHandling, otherWatch⟩
  rw [handling] at otherHandling
  cases otherHandling
  rw [watch] at otherWatch
  cases otherWatch
  exact ⟨entered, rfl, coherent.good fd (.watched interest) (.handled handling returned watch)⟩

end Threads

/-- The thread is through with the function that it was in. -/
inductive Released (loop next : EventLoop) : Option Nat → Prop
  | main (handling : next.handling = none) (workers : next.pool.workers = loop.pool.workers) :
      Released loop next none
  | worker {worker : Nat} {new : Worker Call} (handling : next.handling = loop.handling)
      (workers : next.pool.workers = loop.pool.workers.set worker new)
      (notWorking : ∀ fd, new ≠ .processing ⟨fd, .working⟩) : Released loop next (some worker)

/-! ## One step -/

section Steps

variable {httpd after : Httpd} {past now : List EventLoop.Event}

theorem OneShot.quiet {loop : EventLoop} (oneShot : OneShot past loop) :
    OneShot (past ++ [.quiet]) loop :=
  { oneShot with
    placed := fun fd => by
      rw [EventLoop.dropped_quiet]
      exact oneShot.placed fd }

variable (coherent : Coherent past httpd)

include coherent

/-- A step that changes no element. -/
theorem Coherent.keep {loop : EventLoop} {returned : Option Bool} (oneShot : OneShot now loop)
    (places : ∀ fd phase, { httpd with loop, returned }.At fd phase → httpd.At fd phase)
    (entered : ∀ thread fd, httpd.entered thread = some fd →
      { httpd with loop, returned }.entered thread = some fd)
    (answered : ∀ value, returned = some value →
      ∃ ready fd interest, loop.handling = some ready ∧ ready.watch = some (fd, interest)) :
    Coherent now { httpd with loop, returned } where
  oneShot
  sequential := coherent.sequential
  good := fun fd phase place => by
    have good := coherent.good fd phase (places fd phase place)
    cases phase <;> exact good
  loaded := fun thread conn found => by
    rcases coherent.loaded thread conn found with ⟨fd, enteredFd, equal⟩
    exact ⟨fd, entered thread fd enteredFd, equal⟩
  returned := answered

/-- A step that changes one element. -/
theorem Coherent.change (fd : Nat) (oneShot : OneShot now after.loop)
    (others : ∀ other, other ≠ fd → after.users other = httpd.users other ∧
      after.pieces other = httpd.pieces other ∧ after.record other = httpd.record other)
    (places : ∀ other phase, other ≠ fd → after.At other phase → httpd.At other phase)
    (sequential : ∃ session, Sequential (after.record fd) session)
    (good : ∀ phase, after.At fd phase → after.Good fd phase)
    (loaded : ∀ thread conn, after.loaded thread = some conn → httpd.loaded thread = some conn ∧
      ∀ other, httpd.entered thread = some other → other ≠ fd ∧ after.entered thread = some other)
    (returned : ∀ value, after.returned = some value →
      ∃ ready other interest, after.loop.handling = some ready ∧
        ready.watch = some (other, interest)) : Coherent now after where
  oneShot
  sequential := fun other => by
    by_cases same : other = fd
    · rw [same]
      exact sequential
    · rw [(others other same).2.2]
      exact coherent.sequential other
  good := fun other phase place => by
    by_cases same : other = fd
    · subst same
      exact good phase place
    · rcases others other same with ⟨users, pieces, record⟩
      have before := coherent.good other phase (places other phase same place)
      cases phase with
      | watched interest =>
          rw [Good, record, users]
          exact before
      | received =>
          rw [Good, record, users, pieces]
          exact before
  loaded := fun thread conn found => by
    rcases loaded thread conn found with ⟨foundBefore, entered⟩
    rcases coherent.loaded thread conn foundBefore with ⟨other, enteredOther, equal⟩
    rcases entered other enteredOther with ⟨different, enteredAfter⟩
    exact ⟨other, enteredAfter, by rw [(others other different).1, equal]⟩
  returned

omit coherent in
/-- Only the pool has changed, and every call in it was in it before. -/
theorem at_of_pool {fd : Nat} {phase : Phase} (place : after.At fd phase)
    (returned : after.returned = httpd.returned) (armed : after.loop.armed = httpd.loop.armed)
    (events : after.loop.events = httpd.loop.events)
    (handling : after.loop.handling = httpd.loop.handling)
    (queued : ∀ request ∈ after.loop.pool.workqueue, request ∈ httpd.loop.pool.workqueue)
    (working : ∀ worker fd : Nat,
      after.loop.pool.workers[worker]? = some (.processing ⟨fd, .working⟩) →
        httpd.At fd .received) : httpd.At fd phase := by
  cases place with
  | armed member => exact .armed (armed ▸ member)
  | reported member watch => exact .reported (events ▸ member) watch
  | handled handled none watch => exact .handled (handling ▸ handled) (returned ▸ none) watch
  | read handled isTrue => exact .read (handling ▸ handled) (returned ▸ isTrue)
  | queued member => exact .queued (queued _ member)
  | working found => exact working _ fd found

omit coherent in
/-- The main thread is at no event any more. -/
theorem at_of_idle {fd : Nat} {phase : Phase} (place : after.At fd phase)
    (idle : after.loop.handling = none)
    (armed : ∀ entry ∈ after.loop.armed, entry.1 = fd → entry ∈ httpd.loop.armed)
    (events : after.loop.events = httpd.loop.events)
    (queued : some ⟨fd, .working⟩ ∈ after.loop.pool.workqueue → httpd.At fd .received)
    (workers : after.loop.pool.workers = httpd.loop.pool.workers) : httpd.At fd phase := by
  cases place with
  | armed member => exact .armed (armed _ member rfl)
  | reported member watch => exact .reported (events ▸ member) watch
  | handled handled =>
      rw [idle] at handled
      cases handled
  | read handled =>
      rw [idle] at handled
      cases handled
  | queued member => exact queued member
  | working found => exact .working (workers ▸ found)

omit coherent in
/-- A worker goes on with something that is no call that has closed nothing. -/
theorem at_of_set {worker other fd : Nat} {new : Worker Call}
    (notWorking : ∀ fd, new ≠ .processing ⟨fd, .working⟩)
    (found : (httpd.loop.pool.workers.set worker new)[other]? =
      some (.processing ⟨fd, .working⟩)) : httpd.At fd .received :=
  .working (EventLoop.getElem?_set_waiting (notWorking fd) found)

section Plain

variable {action : EventLoop.Action} {loop : EventLoop} {event : EventLoop.Event}
  (plain : Plain action) (taken : httpd.loop.step action = some (loop, event))

include plain taken

omit coherent in
theorem plain_handling {ready : Ready} {fd : Nat} {interest : Interest}
    (handling : httpd.loop.handling = some ready) (watch : ready.watch = some (fd, interest)) :
    loop.handling = some ready := by
  cases EventLoop.stepped_of_step taken with
  | accept => exact plain.elim
  | close => exact plain.elim
  | written => exact plain.elim
  | drop => exact plain.elim
  | push => exact plain.elim
  | rearm => exact plain.elim
  | closeNone => exact plain.elim
  | closeFd => exact plain.elim
  | poll idle => exact handling
  | take idle =>
      rw [idle.1] at handling
      cases handling
  | refuse handled =>
      rw [handled] at handling
      cases handling
      cases watch
  | post => exact handling
  | wait => exact handling
  | popEmpty => exact handling
  | pop => exact handling
  | clear => exact handling
  | leave => rwa [← EventLoop.modfd_handling httpd.loop _ .output] at handling

omit coherent in
theorem plain_working {worker fd : Nat}
    (working : httpd.loop.pool.workers[worker]? = some (.processing ⟨fd, .working⟩)) :
    loop.pool.workers[worker]? = some (.processing ⟨fd, .working⟩) := by
  cases EventLoop.stepped_of_step taken with
  | accept => exact plain.elim
  | close => exact plain.elim
  | written => exact plain.elim
  | drop => exact plain.elim
  | push => exact plain.elim
  | rearm => exact plain.elim
  | closeNone => exact plain.elim
  | closeFd => exact plain.elim
  | poll => exact working
  | take => exact working
  | refuse => exact working
  | post => exact working
  | wait waiting => exact getElem?_set_working waiting (by simp) working
  | popEmpty passed => exact getElem?_set_working passed (by simp) working
  | pop passed => exact getElem?_set_working passed (by simp) working
  | clear closed => exact getElem?_set_working closed (by simp) working
  | leave cleared => exact getElem?_set_working cleared (by simp) working

omit coherent in
theorem plain_entered {thread : Option Nat} {fd : Nat} (entered : httpd.entered thread = some fd) :
    { httpd with loop }.entered thread = some fd := by
  cases thread with
  | none =>
      rcases (entered_main_iff httpd fd).mp entered with
        ⟨returned, ready, interest, handling, watch⟩
      exact (entered_main_iff _ fd).mpr
        ⟨returned, ready, interest, plain_handling plain taken handling watch, watch⟩
  | some worker =>
      exact (entered_worker_iff _ worker fd).mpr
        (plain_working plain taken ((entered_worker_iff httpd worker fd).mp entered))

/-- A connection that is somewhere after the step was in the same phase before it. -/
theorem Coherent.plain_places {fd : Nat} {phase : Phase} (place : { httpd with loop }.At fd phase) :
    httpd.At fd phase := by
  have untaken : httpd.loop.handling = none → httpd.returned = none := by
    intro idle
    cases returned : httpd.returned with
    | none => rfl
    | some value =>
        rcases coherent.returned value returned with ⟨ready, _, _, handling, _⟩
        rw [idle] at handling
        cases handling
  cases EventLoop.stepped_of_step taken with
  | accept => exact plain.elim
  | close => exact plain.elim
  | written => exact plain.elim
  | drop => exact plain.elim
  | push => exact plain.elim
  | rearm => exact plain.elim
  | closeNone => exact plain.elim
  | closeFd => exact plain.elim
  | poll idle handled nodup reportable =>
      cases place with
      | armed member => exact .armed (List.mem_filter.mp member).1
      | @reported ready interest member watch =>
          have isArmed := reportable ready member
          cases ready <;> cases watch <;> exact .armed isArmed
      | handled handling returned watch => exact .handled handling returned watch
      | read handling returned => exact .read handling returned
      | queued member => exact .queued member
      | working found => exact .working found
  | @take ready rest idle front =>
      have isIn : ∀ other ∈ ready :: rest, other ∈ httpd.loop.events := by
        rw [front]
        exact fun _ => id
      cases place with
      | armed member => exact .armed member
      | reported member watch => exact .reported (isIn _ (List.mem_cons_of_mem _ member)) watch
      | handled handling returned watch =>
          cases handling
          exact .reported (isIn _ List.mem_cons_self) watch
      | read handling returned =>
          dsimp only at returned
          rw [untaken idle.1] at returned
          cases returned
      | queued member => exact .queued member
      | working found => exact .working found
  | refuse handled =>
      exact at_of_idle place rfl (fun _ member _ => member) rfl (fun member => .queued member) rfl
  | post pushed =>
      exact at_of_pool place rfl rfl rfl rfl (fun _ => id) fun _ _ found => .working found
  | wait waiting positive =>
      exact at_of_pool place rfl rfl rfl rfl (fun _ => id) fun _ _ found =>
        at_of_set (by simp) found
  | popEmpty passed empty =>
      exact at_of_pool place rfl rfl rfl rfl (fun _ => id) fun _ _ found =>
        at_of_set (by simp) found
  | @pop worker request rest passed front =>
      have isIn : ∀ other ∈ request :: rest, other ∈ httpd.loop.pool.workqueue := by
        rw [front]
        exact fun _ => id
      refine at_of_pool place rfl rfl rfl rfl
        (fun other member => isIn other (List.mem_cons_of_mem _ member)) fun other fd found => ?_
      by_cases call : Worker.take request = .processing ⟨fd, .working⟩
      · cases request with
        | none => cases call
        | some request =>
            cases call
            exact .queued (isIn _ List.mem_cons_self)
      · exact .working (EventLoop.getElem?_set_waiting call found)
  | clear closed =>
      exact at_of_pool place rfl rfl rfl rfl (fun _ => id) fun _ _ found =>
        at_of_set (by simp) found
  | leave cleared =>
      rw [coherent.oneShot.cleared _ _ cleared] at place
      exact at_of_pool place rfl rfl rfl rfl (fun _ => id) fun _ _ found =>
        at_of_set (by simp) found

end Plain

section Ends

variable {thread : Option Nat}

omit coherent in
theorem Released.entered_other (released : Released httpd.loop after.loop thread)
    (returned : after.returned = httpd.returned) {other : Option Nat} {fd : Nat}
    (different : other ≠ thread) (entered : httpd.entered other = some fd) :
    after.entered other = some fd := by
  cases other with
  | none =>
      rcases (entered_main_iff httpd fd).mp entered with ⟨none, ready, interest, handled, watch⟩
      refine (entered_main_iff after fd).mpr
        ⟨returned.trans none, ready, interest, ?_, watch⟩
      cases released with
      | main => exact absurd rfl different
      | worker handling => rw [handling, handled]
  | some other =>
      have working := (entered_worker_iff httpd other fd).mp entered
      apply (entered_worker_iff after other fd).mpr
      cases released with
      | main handling workers => rw [workers, working]
      | @worker worker new handling workers notWorking =>
          have apart : worker ≠ other := fun same => different (congrArg some same.symm)
          rw [workers, List.getElem?_set_ne apart, working]

omit coherent in
/-- Where a connection is that has not been armed by the step. -/
theorem Released.at_before (released : Released httpd.loop after.loop thread)
    (returned : after.returned = httpd.returned) {fd : Nat} {phase : Phase}
    (armed : ∀ interest, (fd, interest) ∈ after.loop.armed → (fd, interest) ∈ httpd.loop.armed)
    (events : after.loop.events = httpd.loop.events)
    (queued : after.loop.pool.workqueue = httpd.loop.pool.workqueue)
    (place : after.At fd phase) : httpd.At fd phase := by
  have handled : ∀ ready, after.loop.handling = some ready →
      httpd.loop.handling = some ready := by
    intro ready found
    cases released with
    | main handling => 
        rw [handling] at found
        cases found
    | worker handling => rwa [handling] at found
  cases place with
  | armed member => exact .armed (armed _ member)
  | reported member watch => exact .reported (events ▸ member) watch
  | handled found none watch => exact .handled (handled _ found) (returned ▸ none) watch
  | read found isTrue => exact .read (handled _ found) (returned ▸ isTrue)
  | queued member => exact .queued (queued ▸ member)
  | working found =>
      cases released with
      | main handling workers => exact .working (workers ▸ found)
      | worker handling workers notWorking =>
          rw [workers] at found
          exact .working (EventLoop.getElem?_set_waiting (notWorking fd) found)

/-- While a thread is in a function of an element, the connection is nowhere else; when it is
through, the connection is where it has been armed. -/
theorem Coherent.at_released {fd : Nat} (entered : httpd.entered thread = some fd)
    (released : Released httpd.loop after.loop thread)
    (events : after.loop.events = httpd.loop.events)
    (queued : after.loop.pool.workqueue = httpd.loop.pool.workqueue) {phase : Phase}
    (place : after.At fd phase) :
    ∃ interest, phase = .watched interest ∧ (fd, interest) ∈ after.loop.armed := by
  have inside := inside_of_entered entered
  rcases coherent.oneShot.inside_alone inside with ⟨_, unreported, unqueued⟩
  have handled : ∀ ready, after.loop.handling = some ready → ready.sockfd = some fd → False := by
    intro ready found isFor
    cases released with
    | main handling =>
        rw [handling] at found
        cases found
    | worker handling =>
        rw [handling] at found
        have inMain : httpd.loop.Inside fd none := ⟨ready, found, isFor⟩
        cases coherent.oneShot.inside_unique inside inMain
  cases place with
  | armed member => exact ⟨_, rfl, member⟩
  | reported member watch =>
      rw [events] at member
      exact absurd (List.mem_filterMap.mpr ⟨_, member, sockfd_of_watch watch⟩) unreported
  | handled found none watch => exact (handled _ found (sockfd_of_watch watch)).elim
  | read found isTrue => exact (handled _ found rfl).elim
  | queued member => exact absurd (queued ▸ member) unqueued
  | @working other found =>
      cases released with
      | main handling workers =>
          rw [workers] at found
          have inWorker : httpd.loop.Inside fd (some other) := ⟨.working, found⟩
          cases coherent.oneShot.inside_unique inside inWorker
      | @worker worker new handling workers notWorking =>
          rw [workers] at found
          have inWorker : httpd.loop.Inside fd (some other) :=
            ⟨.working, EventLoop.getElem?_set_waiting (notWorking fd) found⟩
          cases coherent.oneShot.inside_unique inside inWorker
          rw [List.getElem?_set] at found
          split at found
          · split at found
            · exact absurd (Option.some.inj found) (notWorking fd)
            · cases found
          · next apart => exact absurd rfl apart

/-- A function of an element has ended, by which the connection has been armed or closed. -/
theorem Coherent.finish {fd : Nat} {conn : HttpConn} {event : SocketEvent} {ending : Ending}
    {sent : List Byte} (entered : httpd.entered thread = some fd)
    (served : Sequential (httpd.record fd ++ [(event, .ended ending sent)])
      ⟨conn, ending.watched⟩)
    (afterEq : after = { (httpd.store thread fd conn).note fd event (.ended ending sent) with
      loop := after.loop })
    (oneShot : OneShot now after.loop) (released : Released httpd.loop after.loop thread)
    (armed : ∀ entry ∈ after.loop.armed,
      if entry.1 = fd then ending.watched = some entry.2 else entry ∈ httpd.loop.armed)
    (events : after.loop.events = httpd.loop.events)
    (queued : after.loop.pool.workqueue = httpd.loop.pool.workqueue) : Coherent now after := by
  have record : after.record fd = httpd.record fd ++ [(event, .ended ending sent)] := by
    rw [afterEq]
    exact if_pos rfl
  have element : after.users fd = conn := by
    rw [afterEq]
    exact if_pos rfl
  have returned : after.returned = httpd.returned := by
    rw [afterEq]
    rfl
  refine coherent.change fd oneShot ?_ ?_ ⟨⟨conn, ending.watched⟩, ?_⟩ ?_ ?_ ?_
  · intro other different
    rw [afterEq]
    exact ⟨if_neg different, rfl, if_neg different⟩
  · intro other phase different place
    refine released.at_before returned (fun interest member => ?_) events queued place
    have entry := armed _ member
    rwa [if_neg different] at entry
  · rwa [record]
  · intro phase place
    rcases coherent.at_released entered released events queued place with ⟨interest, rfl, member⟩
    have watched := armed _ member
    rw [if_pos rfl] at watched
    rwa [Good, record, element, ← watched]
  · intro other read found
    rw [afterEq] at found
    have different : other ≠ thread := fun same => by
      simp [store, note, same] at found
    refine ⟨(if_neg different).symm.trans found, fun given enteredGiven => ⟨?_, ?_⟩⟩
    · intro same
      subst same
      exact different (coherent.oneShot.inside_unique (inside_of_entered enteredGiven)
        (inside_of_entered entered))
    · exact released.entered_other returned different enteredGiven
  · intro value answered
    rw [returned] at answered
    rcases coherent.returned value answered with ⟨ready, other, interest, handled, watch⟩
    refine ⟨ready, other, interest, ?_, watch⟩
    cases released with
    | main =>
        rw [((entered_main_iff httpd fd).mp entered).1] at answered
        cases answered
    | worker handling => exact handling.trans handled

end Ends

/-! ## The functions -/

/-- A function has returned to the main thread, and the connection is still nowhere else. -/
theorem Coherent.answer {fd : Nat} (conn : HttpConn) (value : Bool)
    (entered : httpd.entered none = some fd) (loop : after.loop = httpd.loop)
    (returned : after.returned = some value)
    (users : after.users = (httpd.store none fd conn).users)
    (loaded : after.loaded = (httpd.store none fd conn).loaded)
    (others : ∀ other, other ≠ fd →
      after.pieces other = httpd.pieces other ∧ after.record other = httpd.record other)
    (sequential : ∃ session, Sequential (after.record fd) session)
    (good : value = true → after.Good fd .received) : Coherent (past ++ [.quiet]) after := by
  have inside := inside_of_entered entered
  rcases coherent.oneShot.inside_alone inside with ⟨unarmed, unreported, unqueued⟩
  rcases (entered_main_iff httpd fd).mp entered with ⟨_, ready, interest, handling, watch⟩
  refine coherent.change fd (loop ▸ OneShot.quiet coherent.oneShot) ?_ ?_ sequential ?_ ?_ ?_
  · intro other different
    rw [users]
    exact ⟨if_neg different, others other different⟩
  · intro other phase different place
    cases place with
    | armed member => exact .armed (loop ▸ member)
    | reported member watch => exact .reported (loop ▸ member) watch
    | handled _ none =>
        rw [returned] at none
        cases none
    | read found =>
        rw [loop, handling] at found
        cases found
        cases watch
        exact absurd rfl different
    | queued member => exact .queued (loop ▸ member)
    | working found => exact .working (loop ▸ found)
  · intro phase place
    cases place with
    | armed member => exact absurd (List.mem_map_of_mem (loop ▸ member)) unarmed
    | reported member watch =>
        rw [loop] at member
        exact absurd (List.mem_filterMap.mpr ⟨_, member, sockfd_of_watch watch⟩) unreported
    | handled _ none =>
        rw [returned] at none
        cases none
    | read _ isTrue =>
        rw [returned] at isTrue
        exact good (Option.some.inj isTrue)
    | queued member => exact absurd (loop ▸ member) unqueued
    | working found =>
        rw [loop] at found
        have inWorker : httpd.loop.Inside fd (some _) := ⟨.working, found⟩
        cases coherent.oneShot.inside_unique inside inWorker
  · intro thread read found
    rw [loaded] at found
    cases thread with
    | none => cases found
    | some worker =>
        refine ⟨found, fun other enteredOther => ⟨?_, ?_⟩⟩
        · intro same
          subst same
          cases coherent.oneShot.inside_unique inside (inside_of_entered enteredOther)
        · rw [entered_worker_iff, loop]
          exact (entered_worker_iff httpd worker other).mp enteredOther
  · intro _ _
    exact ⟨ready, fd, interest, loop ▸ handling, watch⟩

theorem Coherent.read {outcomes : List Recv} {fd : Nat} {conn result : HttpConn} {readable : Bool}
    (handling : httpd.loop.handling = some (.input fd)) (loaded : httpd.loaded none = some conn)
    (received : conn.read outcomes = .ok (readable, result)) :
    Coherent (past ++ [.quiet]) (httpd.endRead fd outcomes readable result) := by
  rcases coherent.main_loaded handling rfl loaded with ⟨entered, rfl, sequential⟩
  have answered := (read_pieces (httpd.users fd) outcomes).trans received
  cases readable with
  | true =>
      refine coherent.answer result true entered rfl rfl rfl rfl ?_
        ⟨_, sequential⟩ fun _ => ⟨httpd.users fd, sequential, ?_⟩
      · exact fun other different => ⟨if_neg different, rfl⟩
      · simpa [endRead, store] using answered
  | false =>
      refine coherent.answer result false entered rfl rfl rfl rfl ?_
        ⟨⟨result, none⟩, ?_⟩ fun isTrue => by cases isTrue
      · exact fun other different => ⟨if_neg different, if_neg different⟩
      · have arrived : (httpd.users fd).arrive (fun _ => none) (fun _ => .noRequest)
            (outcomes.map Recv.piece) = .ok (.closes, result) := by
          rw [HttpConn.arrive, answered]
          rfl
        have taken : Session.step ⟨httpd.users fd, some .input⟩
            (unread (outcomes.map Recv.piece)) = some (⟨result, none⟩, .ended .closes []) := by
          simp [Session.step, unread, arrived, Ending.watched]
        have record := sequential.snoc taken
        simpa [endRead, note, store] using record

theorem Coherent.isOpen {fd : Nat} {phase : Phase} (place : httpd.At fd phase) :
    httpd.loop.sockets fd = some fd ∧ fd ∈ httpd.loop.connections := by
  have held : 0 < httpd.loop.places fd := by
    cases place with
    | armed member =>
        have counted : 0 < (httpd.loop.armed.map Prod.fst).count fd :=
          List.count_pos_iff.mpr (List.mem_map_of_mem member)
        rw [EventLoop.places]
        omega
    | reported member watch =>
        have counted := List.count_pos_iff.mpr
          (List.mem_filterMap.mpr ⟨_, member, sockfd_of_watch watch⟩)
        rw [EventLoop.places]
        omega
    | handled handling _ watch => exact EventLoop.places_handling handling (sockfd_of_watch watch)
    | read handling => exact EventLoop.places_handling handling rfl
    | queued member =>
        have counted := List.count_pos_iff.mpr member
        rw [EventLoop.places]
        omega
    | working found => exact EventLoop.places_working found
  rcases coherent.oneShot.isOpen held with ⟨_, _, connections, _, socket⟩
  exact ⟨socket, List.count_pos_iff.mp (by omega)⟩

theorem Coherent.entered_open {thread : Option Nat} {fd : Nat}
    (entered : httpd.entered thread = some fd) :
    httpd.loop.sockets fd = some fd ∧ fd ∈ httpd.loop.connections := by
  cases thread with
  | none =>
      rcases (entered_main_iff httpd fd).mp entered with ⟨returned, ready, _, handling, watch⟩
      exact coherent.isOpen (.handled handling returned watch)
  | some worker =>
      exact coherent.isOpen (.working ((entered_worker_iff httpd worker fd).mp entered))

/-- What `modfd` arms for a connection that a thread is inside of. -/
theorem Coherent.mem_modfd {thread : Option Nat} {fd : Nat} (interest : Interest)
    (entered : httpd.entered thread = some fd) :
    ∀ entry ∈ (httpd.loop.modfd (httpd.loop.sockets fd) interest).armed,
      if entry.1 = fd then some interest = some entry.2 else entry ∈ httpd.loop.armed := by
  rcases coherent.entered_open entered with ⟨socket, isOpen⟩
  rw [socket, EventLoop.modfd_open isOpen]
  intro entry member
  rcases List.mem_cons.mp member with rfl | member
  · simp
  · rcases List.mem_filter.mp member with ⟨member, different⟩
    rw [if_neg (by simpa using different)]
    exact member

theorem Coherent.write {outcomes : List Writev} {fd : Nat} {conn : HttpConn} {call : WriteCall}
    {event : EventLoop.Event} (handling : httpd.loop.handling = some (.output fd))
    (loaded : httpd.loaded none = some conn) (wrote : conn.write outcomes = some call)
    (ended : httpd.endWrite fd outcomes call = some (after, event)) :
    Coherent (past ++ [event]) after := by
  rcases coherent.main_loaded handling rfl loaded with ⟨entered, rfl, sequential⟩
  have taken : Session.step ⟨httpd.users fd, some .output⟩ (.writable outcomes) =
      some (⟨call.conn, call.ending.watched⟩, .ended call.ending call.sent) := by
    simp [Session.step, wrote]
  have served := sequential.snoc taken
  have armed : ∀ interest, call.ending.watched = some interest →
      ((httpd.store none fd call.conn).note fd (.writable outcomes)
        (.ended call.ending call.sent)).follow (.written interest) = some (after, event) →
      Coherent (past ++ [event]) after := by
    intro interest watched followed
    rcases follow_eq_some followed with ⟨loop, stepped, rfl⟩
    have oneShot := coherent.oneShot.step (fun equal => by cases equal) stepped
    cases EventLoop.stepped_of_step stepped with
    | written handled =>
        have same : some (Ready.output fd) = some (.output _) := handling.symm.trans handled
        cases same
        refine coherent.finish entered served rfl oneShot (.main rfl ?_) ?_ ?_ ?_
        · exact congrArg ThreadPool.workers (EventLoop.modfd_pool ..)
        · rw [watched]
          exact coherent.mem_modfd interest entered
        · exact EventLoop.modfd_events ..
        · exact congrArg ThreadPool.workqueue (EventLoop.modfd_pool ..)
  rw [endWrite] at ended
  split at ended
  · next waits => exact armed .input (congrArg Ending.watched waits) ended
  · next answers => exact armed .output (congrArg Ending.watched answers) ended
  · next closes =>
      cases ended
      refine coherent.answer call.conn false entered rfl rfl rfl rfl ?_
        ⟨⟨call.conn, call.ending.watched⟩, ?_⟩ fun isTrue => by cases isTrue
      · exact fun other different => ⟨rfl, if_neg different⟩
      · simpa [note, store] using served

theorem Coherent.process {worker fd : Nat} {files : Files} {undefinedCode : HttpConn → HttpCode}
    {conn result : HttpConn} {ending : Ending} {event : EventLoop.Event}
    (working : httpd.loop.pool.workers[worker]? = some (.processing ⟨fd, .working⟩))
    (loaded : httpd.loaded (some worker) = some conn)
    (processed : conn.process files (fun conn => undefinedCode conn.bare) = .ok (ending, result))
    (ended : httpd.endProcess worker fd (.readable (httpd.pieces fd) files undefinedCode) ending
      result = some (after, event)) : Coherent (past ++ [event]) after := by
  have entered := (entered_worker_iff httpd worker fd).mpr working
  have same : conn = httpd.users fd := by
    rcases coherent.loaded (some worker) conn loaded with ⟨other, otherEntered, equal⟩
    rw [entered] at otherEntered
    cases otherEntered
    exact equal
  subst same
  rcases coherent.good fd .received (.working working) with ⟨before, sequential, received⟩
  have arrived : before.arrive files (fun conn => undefinedCode conn.bare) (httpd.pieces fd) =
      .ok (ending, result) := by
    rw [HttpConn.arrive, received]
    exact processed
  have taken : Session.step ⟨before, some .input⟩
      (.readable (httpd.pieces fd) files undefinedCode) =
        some (⟨result, ending.watched⟩, .ended ending []) := by
    simp [Session.step, arrived]
  have served := sequential.snoc taken
  have armed : ∀ interest, ending.watched = some interest →
      ((httpd.store (some worker) fd result).note fd
        (.readable (httpd.pieces fd) files undefinedCode) (.ended ending [])).follow
          (.rearm worker interest) = some (after, event) → Coherent (past ++ [event]) after := by
    intro interest watched followed
    rcases follow_eq_some followed with ⟨loop, stepped, rfl⟩
    have oneShot := coherent.oneShot.step (fun equal => by cases equal) stepped
    cases EventLoop.stepped_of_step stepped with
    | rearm found =>
        cases working.symm.trans found
        refine coherent.finish entered served rfl oneShot (.worker ?_ rfl (by simp)) ?_ ?_ rfl
        · exact EventLoop.modfd_handling ..
        · rw [watched]
          exact coherent.mem_modfd interest entered
        · exact EventLoop.modfd_events ..
  cases ending with
  | waits => exact armed .input rfl ended
  | answers => exact armed .output rfl ended
  | closes =>
      rcases follow_eq_some ended with ⟨loop, stepped, rfl⟩
      have oneShot := coherent.oneShot.step (fun equal => by cases equal) stepped
      have socket := (coherent.entered_open entered).1
      cases EventLoop.stepped_of_step stepped with
      | closeNone found unset =>
          cases working.symm.trans found
          cases socket.symm.trans unset
      | closeFd found isSet =>
          cases working.symm.trans found
          cases socket.symm.trans isSet
          refine coherent.finish entered served rfl oneShot (.worker rfl rfl (by simp)) ?_ rfl rfl
          intro entry member
          rcases List.mem_filter.mp member with ⟨member, different⟩
          rw [if_neg (by simpa using different)]
          exact member

/-! ## Opening and closing -/

theorem Coherent.accept {loop : EventLoop} {event : EventLoop.Event}
    (apart : httpd.loop.Apart .accept) (taken : httpd.loop.step .accept = some (loop, event)) :
    Coherent (past ++ [event])
      { httpd.initUser (lowestUnused (alwaysOpen ++ httpd.loop.connections)) with loop } := by
  have oneShot := coherent.oneShot.step apart taken
  have unused : lowestUnused (alwaysOpen ++ httpd.loop.connections) ∉ httpd.loop.connections :=
    fun member => (lowestUnused_spec (alwaysOpen ++ httpd.loop.connections)).1
      (List.mem_append_right _ member)
  cases EventLoop.stepped_of_step taken with
  | accept handled within =>
      generalize lowestUnused (alwaysOpen ++ httpd.loop.connections) = connfd at *
      have closed : ∀ phase, ¬httpd.At connfd phase :=
        fun phase place => unused (coherent.isOpen place).2
      refine coherent.change connfd oneShot ?_ ?_ ⟨.start (httpd.users connfd), ?_⟩ ?_ ?_ ?_
      · exact fun other different => ⟨if_neg different, rfl, if_neg different⟩
      · intro other phase different place
        refine at_of_idle place rfl (fun entry member isFor => ?_) rfl
          (fun member => .queued member) rfl
        rcases List.mem_cons.mp member with rfl | member
        · exact absurd isFor.symm different
        · exact member
      · simpa [initUser] using sequential_nil (httpd.users connfd)
      · intro phase place
        cases place with
        | armed member =>
            rcases List.mem_cons.mp member with equal | member
            · cases equal
              simpa [Good, initUser, Session.start] using sequential_nil (httpd.users connfd)
            · exact (closed _ (.armed member)).elim
        | reported member watch => exact (closed _ (.reported member watch)).elim
        | handled handling => cases handling
        | read handling => cases handling
        | queued member => exact (closed _ (.queued member)).elim
        | working found => exact (closed _ (.working found)).elim
      · intro thread conn found
        refine ⟨found, fun other entered => ⟨?_, ?_⟩⟩
        · intro same
          exact unused (same ▸ (coherent.entered_open entered).2)
        · cases thread with
          | none =>
              rcases (entered_main_iff httpd other).mp entered with ⟨_, ready, _, handling, watch⟩
              rw [handled] at handling
              cases handling
              cases watch
          | some worker =>
              exact (entered_worker_iff _ worker other).mpr
                ((entered_worker_iff httpd worker other).mp entered)
      · intro value answered
        rcases coherent.returned value answered with ⟨ready, _, _, handling, watch⟩
        rw [handled] at handling
        cases handling
        cases watch

theorem Coherent.append {loop : EventLoop} {event : EventLoop.Event}
    (returned : httpd.returned = some true)
    (taken : httpd.loop.step .append = some (loop, event)) :
    Coherent (past ++ [event]) { httpd with returned := none, loop } := by
  have oneShot := coherent.oneShot.step (fun equal => by cases equal) taken
  have outside : ∀ thread fd, httpd.entered thread = some fd → ∃ worker, thread = some worker := by
    intro thread fd entered
    cases thread with
    | none =>
        rw [((entered_main_iff httpd fd).mp entered).1] at returned
        cases returned
    | some worker => exact ⟨worker, rfl⟩
  cases EventLoop.stepped_of_step taken with
  | drop handled full =>
      refine coherent.keep oneShot (fun fd phase place => ?_) (fun thread fd entered => ?_)
        fun value equal => by cases equal
      · exact at_of_idle place rfl (fun _ member _ => member) rfl (fun member => .queued member)
          rfl
      · rcases outside thread fd entered with ⟨worker, rfl⟩
        exact (entered_worker_iff _ worker fd).mpr ((entered_worker_iff _ worker fd).mp entered)
  | push handled idle room =>
      refine coherent.keep oneShot (fun fd phase place => ?_) (fun thread fd entered => ?_)
        fun value equal => by cases equal
      · refine at_of_idle place rfl (fun _ member _ => member) rfl (fun member => ?_) rfl
        rcases List.mem_append.mp member with old | new
        · exact .queued old
        · cases List.mem_singleton.mp new
          exact .read handled returned
      · rcases outside thread fd entered with ⟨worker, rfl⟩
        exact (entered_worker_iff _ worker fd).mpr ((entered_worker_iff _ worker fd).mp entered)

omit coherent in
theorem closeConn_frame (loop : EventLoop) (sockfd : Nat) :
    (loop.closeConn sockfd).pool = loop.pool ∧ (loop.closeConn sockfd).events = loop.events ∧
      ∀ entry ∈ (loop.closeConn sockfd).armed, entry ∈ loop.armed := by
  rw [EventLoop.closeConn]
  split
  · exact ⟨rfl, rfl, fun _ => id⟩
  · exact ⟨rfl, rfl, fun entry member => (List.mem_filter.mp member).1⟩

theorem Coherent.close {loop : EventLoop} {event : EventLoop.Event}
    (must : httpd.mustClose = true) (taken : httpd.loop.step .close = some (loop, event)) :
    Coherent (past ++ [event]) { httpd with returned := none, loop } := by
  have oneShot := coherent.oneShot.step (fun equal => by cases equal) taken
  cases EventLoop.stepped_of_step taken with
  | @close ready sockfd handled isFor =>
      rcases closeConn_frame httpd.loop sockfd with ⟨pool, events, armed⟩
      refine coherent.keep oneShot (fun fd phase place => ?_) (fun thread fd entered => ?_)
        fun value equal => by cases equal
      · exact at_of_idle place rfl (fun entry member _ => armed entry member) events
          (fun member => .queued (pool ▸ member)) (congrArg ThreadPool.workers pool)
      · cases thread with
        | none =>
            rcases (entered_main_iff httpd fd).mp entered with
              ⟨returned, other, _, handling, watch⟩
            rw [handled] at handling
            cases handling
            rw [mustClose, handled, returned] at must
            split at must
            · next equal =>
                cases equal
                cases watch
            · cases must
        | some worker =>
            rw [entered_worker_iff] at entered ⊢
            exact pool ▸ entered

theorem Coherent.step {action : Action} {event : EventLoop.Event} (apart : httpd.Apart action)
    (stepped : httpd.step action = some (after, event)) : Coherent (past ++ [event]) after := by
  cases stepped_of_step stepped with
  | plain plain taken =>
      refine coherent.keep (coherent.oneShot.step apart taken)
        (fun fd phase place => coherent.plain_places plain taken place)
        (fun thread fd entered => plain_entered plain taken entered) ?_
      intro value answered
      rcases coherent.returned value answered with ⟨ready, fd, interest, handling, watch⟩
      exact ⟨ready, fd, interest, plain_handling plain taken handling watch, watch⟩
  | accept taken => exact coherent.accept apart taken
  | append returned taken => exact coherent.append returned taken
  | close must taken => exact coherent.close must taken
  | @enter thread fd entered =>
      refine { coherent with oneShot := OneShot.quiet coherent.oneShot, good := ?_, loaded := ?_ }
      · intro other phase place
        have before := coherent.good other phase
          (at_of_pool place rfl rfl rfl rfl (fun _ => id) fun _ _ found => .working found)
        cases phase <;> exact before
      · intro other conn found
        dsimp only at found
        by_cases same : other = thread
        · rw [if_pos same] at found
          cases found
          exact ⟨fd, same ▸ entered, rfl⟩
        · rw [if_neg same] at found
          exact coherent.loaded other conn found
  | read handling loaded received => exact coherent.read handling loaded received
  | write handling loaded wrote ended => exact coherent.write handling loaded wrote ended
  | process working loaded processed ended =>
      exact coherent.process working loaded processed ended

end Steps

/-! ## Runs -/

section Runs

variable {users : Nat → HttpConn} {maxRequest workers : Nat} {actions : List Action}
  {httpd : Httpd} {log : List EventLoop.Event}

theorem coherent_run (apart : EveryTaken step Apart (start users maxRequest workers) actions)
    (ran : runSteps step (start users maxRequest workers) actions = some (httpd, log)) :
    Coherent log httpd := by
  have kept := apart.induction Coherent
    (fun past state action after event coherent apart stepped => coherent.step apart stepped)
    actions [] (start users maxRequest workers) httpd log
    (start_coherent users maxRequest workers) ran
  rwa [List.nil_append] at kept

/-- A worker processes the first byte of a request while another client is accepted. -/
def twoClients : List Action :=
  [.other (.poll [.connection]), .other .take, .other .accept,
    .other (.poll [.input 5, .connection]), .other .take, .enter none, .read [.received [71]],
    .other .append, .other .post, .other (.wait 0), .other (.pop 0), .enter (some 0),
    .other .take, .other .accept, .process 0 (fun _ => none) fun _ => .noRequest]

end Runs

end Httpd

end DataStructAlgorithm.HTTPD2
