import DataStructAlgorithm.HTTPD2.EventLoop

/-! # One thread for each connection

An open connection is at one place at a time: armed in `epoll`, reported, in the main thread,
in the queue or in a worker. A connection whose `append` fails is at none of them any more. -/

namespace DataStructAlgorithm.HTTPD2

open Foundation

/-- The worker is in a call for this descriptor, which has not closed it. -/
def Worker.works (fd : Nat) : Worker Call → Bool
  | .processing ⟨sockfd, .working⟩ => sockfd == fd
  | _ => false

/-- The worker is in the rest of a call that has closed this descriptor. -/
def Worker.leaves (fd : Nat) : Worker Call → Bool
  | .processing ⟨_, .working⟩ => false
  | .processing ⟨sockfd, _⟩ => sockfd == fd
  | _ => false

namespace EventLoop

/-! ## The places of a connection -/

/-- How often a connection is armed, reported, in the main thread, in the queue or in a
worker that has not closed it. -/
def places (loop : EventLoop) (fd : Nat) : Nat :=
  (loop.armed.map Prod.fst).count fd + (loop.events.filterMap Ready.sockfd).count fd +
    (loop.handling.toList.filterMap Ready.sockfd).count fd +
    loop.pool.workqueue.count (some ⟨fd, .working⟩) + loop.pool.workers.countP (Worker.works fd)

/-- The workers that have closed this descriptor and are not through with `process`. -/
def leaving (loop : EventLoop) (fd : Nat) : Nat := loop.pool.workers.countP (Worker.leaves fd)

/-- The connections whose `append` has returned false. -/
def dropped (log : List Event) : List Nat :=
  log.filterMap fun
    | .dropped sockfd => some sockfd
    | .quiet => none

/-- A descriptor is not given out again while a worker is still leaving its last connection. -/
def Apart (loop : EventLoop) (action : Action) : Prop :=
  action = .accept → loop.leaving (lowestUnused (alwaysOpen ++ loop.connections)) = 0

instance (loop : EventLoop) (action : Action) : Decidable (loop.Apart action) :=
  inferInstanceAs (Decidable (_ → _))

/-- The invariant of a run. -/
structure OneShot (past : List Event) (loop : EventLoop) : Prop where
  placed : ∀ fd, loop.places fd + (dropped past).count fd = loop.connections.count fd
  once : ∀ fd, loop.connections.count fd + loop.leaving fd ≤ 1
  owned : ∀ fd ∈ loop.connections, loop.sockets fd = some fd
  cleared : ∀ worker fd : Nat,
    loop.pool.workers[worker]? = some (.processing ⟨fd, .cleared⟩) → loop.sockets fd = none
  queued : ∀ request ∈ loop.pool.workqueue, ∃ fd, request = some ⟨fd, .working⟩

theorem start_oneShot (maxRequest workers : Nat) : OneShot [] (start maxRequest workers) where
  placed := by
    intro fd
    have none : (List.replicate workers (Worker.waiting : Worker Call)).countP
        (Worker.works fd) = 0 := by
      rw [List.countP_replicate]
      rfl
    simp [places, start, ThreadPool.initial, dropped, none]
  once := by
    intro fd
    have none : (List.replicate workers (Worker.waiting : Worker Call)).countP
        (Worker.leaves fd) = 0 := by
      rw [List.countP_replicate]
      rfl
    simp [leaving, start, ThreadPool.initial, none]
  owned := by simp [start]
  cleared := by
    intro worker fd found
    rw [start, ThreadPool.initial, List.getElem?_replicate] at found
    split at found <;> cases found
  queued := by simp [start, ThreadPool.initial]

theorem dropped_quiet (past : List Event) : dropped (past ++ [.quiet]) = dropped past := by
  simp [dropped]

theorem dropped_dropped (past : List Event) (sockfd : Nat) :
    dropped (past ++ [.dropped sockfd]) = dropped past ++ [sockfd] := by
  simp [dropped]

theorem count_filter_keep (armed : List (Nat × Interest)) (keep : Nat → Bool) (fd : Nat) :
    ((armed.filter fun entry => keep entry.1).map Prod.fst).count fd =
      if keep fd then (armed.map Prod.fst).count fd else 0 := by
  have moved : (armed.filter fun entry => keep entry.1).map Prod.fst =
      (armed.map Prod.fst).filter keep := by
    rw [List.filter_map]
    rfl
  rw [moved]
  by_cases kept : keep fd
  · rw [if_pos kept, List.count_filter kept]
  · rw [if_neg kept]
    exact List.count_eq_zero.mpr fun member => kept (List.mem_filter.mp member).2

theorem modfd_open {loop : EventLoop} {fd : Nat} (member : fd ∈ loop.connections)
    (interest : Interest) : loop.modfd (some fd) interest =
      { loop with armed := (fd, interest) :: loop.armed.filter (·.1 ≠ fd) } := if_pos member

/-- What is armed after a descriptor has been armed again. -/
theorem count_rearm (armed : List (Nat × Interest)) (interest : Interest) (sockfd fd : Nat) :
    (((sockfd, interest) :: armed.filter (·.1 ≠ sockfd)).map Prod.fst).count fd =
      if fd = sockfd then 1 else (armed.map Prod.fst).count fd := by
  rw [List.map_cons, List.count_cons, count_filter_keep armed (fun number => number ≠ sockfd) fd]
  by_cases same : fd = sockfd
  · simp [same]
  · simp [same, Ne.symm same]

theorem count_disarm (armed : List (Nat × Interest)) (sockfd fd : Nat) :
    ((armed.filter (·.1 ≠ sockfd)).map Prod.fst).count fd =
      if fd = sockfd then 0 else (armed.map Prod.fst).count fd := by
  rw [count_filter_keep armed (fun number => number ≠ sockfd) fd]
  by_cases same : fd = sockfd <;> simp [same]

/-- The numbers of a list of events that is reported. -/
theorem mem_armed_of_reportable {loop : EventLoop} {ready : Ready} {fd : Nat}
    (reportable : loop.Reportable ready) (isFor : ready.sockfd = some fd) :
    fd ∈ loop.armed.map Prod.fst := by
  cases ready with
  | connection => cases isFor
  | failed sockfd =>
      cases isFor
      exact reportable
  | input sockfd =>
      cases isFor
      exact List.mem_map_of_mem reportable
  | output sockfd =>
      cases isFor
      exact List.mem_map_of_mem reportable

theorem getElem?_set_waiting {workers : List (Worker Call)} {worker other : Nat}
    {new : Worker Call} {call : Call} (notCall : new ≠ .processing call)
    (found : (workers.set worker new)[other]? = some (.processing call)) :
    workers[other]? = some (.processing call) := by
  rw [List.getElem?_set] at found
  split at found
  · split at found
    · exact absurd (Option.some.inj found) notCall
    · cases found
  · exact found

section Steps

variable {past : List Event} {loop : EventLoop}

theorem places_working {worker fd : Nat}
    (working : loop.pool.workers[worker]? = some (.processing ⟨fd, .working⟩)) :
    0 < loop.places fd := by
  have positive : 0 < loop.pool.workers.countP (Worker.works fd) :=
    List.countP_pos_iff.mpr ⟨_, List.mem_of_getElem? working, beq_self_eq_true fd⟩
  rw [places]
  omega

theorem places_handling {ready : Ready} {fd : Nat} (handled : loop.handling = some ready)
    (isFor : ready.sockfd = some fd) : 0 < loop.places fd := by
  simp only [places, handled, Option.toList_some, List.filterMap_cons, List.filterMap_nil, isFor,
    List.count_singleton_self]
  omega

theorem leaving_pos {worker fd : Nat} {stage : Stage} (isLeaving : stage ≠ .working)
    (found : loop.pool.workers[worker]? = some (.processing ⟨fd, stage⟩)) :
    0 < loop.leaving fd := by
  refine List.countP_pos_iff.mpr ⟨_, List.mem_of_getElem? found, ?_⟩
  cases stage with
  | working => exact absurd rfl isLeaving
  | closed => exact beq_self_eq_true fd
  | cleared => exact beq_self_eq_true fd

variable (oneShot : OneShot past loop)

include oneShot

/-- A connection that is anywhere is open, and it is at no other place. -/
theorem OneShot.isOpen {fd : Nat} (held : 0 < loop.places fd) :
    loop.places fd = 1 ∧ (dropped past).count fd = 0 ∧ loop.connections.count fd = 1 ∧
      loop.leaving fd = 0 ∧ loop.sockets fd = some fd := by
  have placed := oneShot.placed fd
  have once := oneShot.once fd
  have member : fd ∈ loop.connections := List.count_pos_iff.mp (by omega)
  exact ⟨by omega, by omega, by omega, by omega, oneShot.owned fd member⟩

/-- A step that opens and closes no connection. -/
theorem OneShot.move {now : List Event} {after : EventLoop}
    (connections : after.connections = loop.connections) (sockets : after.sockets = loop.sockets)
    (placed : ∀ fd, after.places fd + (dropped now).count fd =
      loop.places fd + (dropped past).count fd)
    (fewer : ∀ fd, after.leaving fd ≤ loop.leaving fd)
    (cleared : ∀ worker fd : Nat,
      after.pool.workers[worker]? = some (.processing ⟨fd, .cleared⟩) →
        loop.pool.workers[worker]? = some (.processing ⟨fd, .cleared⟩))
    (queued : ∀ request ∈ after.pool.workqueue,
      request ∈ loop.pool.workqueue ∨ ∃ fd, request = some ⟨fd, .working⟩) :
    OneShot now after where
  placed := by
    intro fd
    rw [placed, connections]
    exact oneShot.placed fd
  once := by
    intro fd
    have once := oneShot.once fd
    have fewer := fewer fd
    rw [connections]
    omega
  owned := by
    rw [connections, sockets]
    exact oneShot.owned
  cleared := by
    rw [sockets]
    exact fun worker fd found => oneShot.cleared worker fd (cleared worker fd found)
  queued := by
    intro request member
    rcases queued request member with old | new
    · exact oneShot.queued request old
    · exact new

/-- A worker goes on with what is no call, or none that has closed its connection. -/
theorem OneShot.replace {worker : Nat} {old new : Worker Call} {pool : ThreadPool Call}
    {armed : List (Nat × Interest)} (found : loop.pool.workers[worker]? = some old)
    (workers : pool.workers = loop.pool.workers.set worker new)
    (stays : ∀ fd, new.leaves fd = false)
    (placed : ∀ fd, (armed.map Prod.fst).count fd +
        pool.workqueue.count (some ⟨fd, .working⟩) + (new.works fd).toNat =
      (loop.armed.map Prod.fst).count fd +
        loop.pool.workqueue.count (some ⟨fd, .working⟩) + (old.works fd).toNat)
    (queued : ∀ request ∈ pool.workqueue, request ∈ loop.pool.workqueue) :
    OneShot (past ++ [.quiet]) { loop with armed, pool } := by
  refine oneShot.move ?_ ?_ ?_ ?_ ?_ ?_
  · rfl
  · rfl
  · intro fd
    have counted := ThreadPool.countP_replace (Worker.works fd) found new
    have placed := placed fd
    rw [dropped_quiet]
    simp only [places, workers]
    omega
  · intro fd
    have counted := ThreadPool.countP_replace (Worker.leaves fd) found new
    rw [stays fd, Bool.toNat_false] at counted
    simp only [leaving, workers]
    omega
  · intro other fd isCleared
    dsimp only at isCleared
    rw [workers] at isCleared
    refine getElem?_set_waiting ?_ isCleared
    intro equal
    have stays := stays fd
    rw [equal] at stays
    simp [Worker.leaves] at stays
  · exact fun request member => .inl (queued request member)

/-- The main thread goes on, and the connection it was at is armed or pushed, or is not. -/
theorem OneShot.handle {now : List Event} {handling : Option Ready} {events : List Ready}
    {armed : List (Nat × Interest)} {pool : ThreadPool Call}
    (workers : pool.workers = loop.pool.workers)
    (placed : ∀ fd, (armed.map Prod.fst).count fd + (events.filterMap Ready.sockfd).count fd +
        (handling.toList.filterMap Ready.sockfd).count fd +
        pool.workqueue.count (some ⟨fd, .working⟩) + (dropped now).count fd =
      (loop.armed.map Prod.fst).count fd + (loop.events.filterMap Ready.sockfd).count fd +
        (loop.handling.toList.filterMap Ready.sockfd).count fd +
        loop.pool.workqueue.count (some ⟨fd, .working⟩) + (dropped past).count fd)
    (queued : ∀ request ∈ pool.workqueue,
      request ∈ loop.pool.workqueue ∨ ∃ fd, request = some ⟨fd, .working⟩) :
    OneShot now { loop with armed, events, handling, pool } := by
  refine oneShot.move ?_ ?_ ?_ ?_ ?_ ?_
  · rfl
  · rfl
  · intro fd
    have placed := placed fd
    simp only [places, workers]
    omega
  · intro fd
    simp only [leaving, workers, Nat.le_refl]
  · intro worker fd found
    dsimp only at found
    rwa [workers] at found
  · exact queued

theorem OneShot.poll {events : List Ready} (handled : loop.events = [])
    (nodup : (events.filterMap Ready.sockfd).Nodup)
    (reportable : ∀ ready ∈ events, loop.Reportable ready) :
    OneShot (past ++ [.quiet])
      { loop with
        events
        armed := loop.armed.filter (·.1 ∉ events.filterMap Ready.sockfd) } := by
  refine oneShot.handle ?_ ?_ ?_
  · rfl
  · intro fd
    have kept := count_filter_keep loop.armed (fun number => number ∉ events.filterMap Ready.sockfd)
      fd
    have placed := oneShot.placed fd
    have once := oneShot.once fd
    rw [kept, handled, dropped_quiet]
    simp only [List.filterMap_nil, List.count_nil, Nat.add_zero]
    by_cases isReported : fd ∈ events.filterMap Ready.sockfd
    · rcases List.mem_filterMap.mp isReported with ⟨ready, member, isFor⟩
      have isArmed := List.count_pos_iff.mpr
        (mem_armed_of_reportable (reportable ready member) isFor)
      have isOnce := (nodup.count (a := fd)).trans (if_pos isReported)
      rw [places] at placed
      simp only [isReported, not_true_eq_false, decide_false, Bool.false_eq_true, if_false]
      omega
    · have isNever := List.count_eq_zero.mpr isReported
      simp only [isReported, not_false_eq_true, decide_true, if_true]
      omega
  · exact fun request member => .inl member

/-- A descriptor that is given out, of which no worker is leaving the last connection. -/
theorem OneShot.init {fd : Nat} (handled : loop.handling = some .connection)
    (unused : fd ∉ loop.connections) (apart : loop.leaving fd = 0) :
    OneShot (past ++ [.quiet]) { loop.init fd with handling := none } where
  placed := by
    intro other
    have placed := oneShot.placed other
    rw [dropped_quiet]
    simp only [places, handled, EventLoop.init, setSocket, Option.toList_none, Option.toList_some,
      List.filterMap_nil, List.filterMap_cons, Ready.sockfd, List.count_nil, List.map_cons,
      List.count_cons] at placed ⊢
    omega
  once := by
    intro other
    have once := oneShot.once other
    simp only [leaving, EventLoop.init, setSocket, List.count_cons] at once apart ⊢
    by_cases same : fd = other
    · subst same
      rw [List.count_eq_zero.mpr unused, apart]
      simp
    · simp [same]
      omega
  owned := by
    intro other member
    dsimp only [EventLoop.init, setSocket] at member ⊢
    by_cases same : other = fd
    · rw [if_pos same, same]
    · rw [if_neg same]
      rcases List.mem_cons.mp member with equal | old
      · exact absurd equal same
      · exact oneShot.owned other old
  cleared := by
    intro worker other found
    have isLeaving := leaving_pos (fun equal => by cases equal) found
    dsimp only [EventLoop.init, setSocket] at found isLeaving ⊢
    have different : other ≠ fd := by
      intro same
      rw [same] at isLeaving
      exact absurd apart (Nat.pos_iff_ne_zero.mp isLeaving)
    rw [if_neg different]
    exact oneShot.cleared worker other found
  queued := oneShot.queued

omit oneShot in
theorem count_erase (sockfd fd : Nat) : (loop.connections.erase sockfd).count fd =
    if fd = sockfd then loop.connections.count fd - 1 else loop.connections.count fd := by
  by_cases same : fd = sockfd
  · rw [if_pos same, same, List.count_erase_self]
  · rw [if_neg same, List.count_erase_of_ne same]

/-- The main thread closes the connection that it is at. -/
theorem OneShot.close {ready : Ready} {sockfd : Nat} (handled : loop.handling = some ready)
    (isFor : ready.sockfd = some sockfd) :
    OneShot (past ++ [.quiet]) { loop.closeConn sockfd with handling := none } := by
  rcases oneShot.isOpen (places_handling handled isFor) with ⟨once, _, isOpen, none, socket⟩
  have closed : loop.closeConn sockfd = (loop.removefd sockfd).setSocket sockfd .none := by
    rw [closeConn, socket]
  rw [closed]
  constructor
  · intro fd
    have placed := oneShot.placed fd
    rw [dropped_quiet]
    simp only [places, removefd, setSocket, handled, Option.toList_none, Option.toList_some,
      List.filterMap_nil, List.filterMap_cons, isFor, List.count_nil, count_disarm,
      count_erase, List.count_singleton, beq_iff_eq] at placed once ⊢
    by_cases same : fd = sockfd
    · subst same
      simp only [if_true] at placed once ⊢
      omega
    · simp only [if_neg same, if_neg (Ne.symm same)] at placed ⊢
      omega
  · intro fd
    have once := oneShot.once fd
    have fewer := List.count_le_length (a := fd) (l := loop.connections)
    simp only [leaving, removefd, setSocket, count_erase] at once ⊢
    split <;> omega
  · intro fd member
    dsimp only [removefd, setSocket] at member ⊢
    have different : fd ≠ sockfd := by
      intro same
      have gone : (loop.connections.erase sockfd).count fd = _ := count_erase sockfd fd
      rw [if_pos same, same, isOpen] at gone
      exact absurd (List.count_pos_iff.mpr (same ▸ member)) (by omega)
    rw [if_neg different]
    exact oneShot.owned fd (List.mem_of_mem_erase member)
  · intro worker fd found
    dsimp only [removefd, setSocket] at found ⊢
    split
    · rfl
    · exact oneShot.cleared worker fd found
  · exact oneShot.queued

/-- A worker closes the connection that it is at. -/
theorem OneShot.closeFd {worker sockfd : Nat}
    (working : loop.pool.workers[worker]? = some (.processing ⟨sockfd, .working⟩)) :
    OneShot (past ++ [.quiet]) ((loop.removefd sockfd).advance worker sockfd .closed) := by
  rcases oneShot.isOpen (places_working working) with ⟨once, _, isOpen, none, socket⟩
  constructor
  · intro fd
    have placed := oneShot.placed fd
    have counted := ThreadPool.countP_replace (Worker.works fd) working
      (.processing ⟨sockfd, .closed⟩)
    rw [dropped_quiet]
    simp only [places, removefd, advance, count_disarm, count_erase, Worker.works,
      Bool.toNat_false] at placed once counted ⊢
    by_cases same : fd = sockfd
    · subst same
      simp only [if_true, beq_self_eq_true, Bool.toNat_true] at placed once counted ⊢
      omega
    · have other : (sockfd == fd) = false := beq_false_of_ne (Ne.symm same)
      simp only [if_neg same, other, Bool.toNat_false] at placed counted ⊢
      omega
  · intro fd
    have once := oneShot.once fd
    have counted := ThreadPool.countP_replace (Worker.leaves fd) working
      (.processing ⟨sockfd, .closed⟩)
    simp only [leaving, removefd, advance, count_erase, Worker.leaves, Bool.toNat_false]
      at once none counted ⊢
    by_cases same : fd = sockfd
    · subst same
      simp only [if_true, beq_self_eq_true, Bool.toNat_true] at counted ⊢
      omega
    · have other : (sockfd == fd) = false := beq_false_of_ne (Ne.symm same)
      simp only [if_neg same, other, Bool.toNat_false] at counted ⊢
      omega
  · intro fd member
    exact oneShot.owned fd (List.mem_of_mem_erase member)
  · intro other fd found
    refine oneShot.cleared other fd (getElem?_set_waiting ?_ found)
    simp
  · exact oneShot.queued

/-- A worker has closed its connection and now changes `m_sockfd`. -/
theorem OneShot.clear {worker sockfd : Nat}
    (closed : loop.pool.workers[worker]? = some (.processing ⟨sockfd, .closed⟩)) :
    OneShot (past ++ [.quiet]) ((loop.setSocket sockfd none).advance worker sockfd .cleared) := by
  have isLeaving := leaving_pos (fun equal => by cases equal) closed
  constructor
  · intro fd
    have placed := oneShot.placed fd
    have counted := ThreadPool.countP_replace (Worker.works fd) closed
      (.processing ⟨sockfd, .cleared⟩)
    rw [dropped_quiet]
    simp only [places, setSocket, advance, Worker.works, Bool.toNat_false] at placed counted ⊢
    omega
  · intro fd
    have once := oneShot.once fd
    have counted := ThreadPool.countP_replace (Worker.leaves fd) closed
      (.processing ⟨sockfd, .cleared⟩)
    simp only [leaving, setSocket, advance, Worker.leaves] at once counted ⊢
    omega
  · intro fd member
    dsimp only [setSocket, advance] at member ⊢
    have different : fd ≠ sockfd := by
      intro same
      have once := oneShot.once fd
      have isOpen := List.count_pos_iff.mpr member
      rw [same] at once isOpen
      omega
    rw [if_neg different]
    exact oneShot.owned fd member
  · intro other fd found
    dsimp only [setSocket, advance] at found ⊢
    by_cases same : fd = sockfd
    · rw [if_pos same]
    · rw [if_neg same]
      refine oneShot.cleared other fd (getElem?_set_waiting ?_ found)
      simp [Ne.symm same]
  · exact oneShot.queued

omit oneShot in
theorem toNat_beq (left right : Nat) : (left == right).toNat = if right = left then 1 else 0 := by
  by_cases same : right = left
  · simp [same]
  · rw [if_neg same, beq_false_of_ne (Ne.symm same), Bool.toNat_false]

/-- One step keeps the invariant. -/
theorem OneShot.step {after : EventLoop} {action : Action} {event : Event}
    (apart : loop.Apart action) (stepped : loop.step action = some (after, event)) :
    OneShot (past ++ [event]) after := by
  cases stepped_of_step stepped with
  | poll idle handled nodup reportable => exact oneShot.poll handled nodup reportable
  | @take ready rest idle front =>
      refine oneShot.handle rfl ?_ fun request member => .inl member
      intro fd
      have split : loop.events = [ready] ++ rest := front
      rw [split, idle.1, dropped_quiet, List.filterMap_append, List.count_append]
      simp only [Option.toList_some, Option.toList_none, List.filterMap_nil, List.count_nil]
      omega
  | refuse handled =>
      refine oneShot.handle rfl ?_ fun request member => .inl member
      intro fd
      simp [handled, List.filterMap_cons, Ready.sockfd, dropped_quiet]
  | accept handled within =>
      have unused := (lowestUnused_spec (alwaysOpen ++ loop.connections)).1
      exact oneShot.init handled (fun member => unused (List.mem_append_right _ member))
        (apart rfl)
  | close handled isFor => exact oneShot.close handled isFor
  | @written sockfd interest handled =>
      rcases oneShot.isOpen (places_handling handled rfl) with ⟨once, _, isOpen, _, socket⟩
      rw [socket, modfd_open (List.count_pos_iff.mp (by omega))]
      refine oneShot.handle rfl ?_ fun request member => .inl member
      intro fd
      rw [count_rearm, dropped_quiet]
      simp only [places, handled, Option.toList_some, Option.toList_none, List.filterMap_cons,
        List.filterMap_nil, Ready.sockfd, List.count_nil, List.count_singleton, beq_iff_eq]
        at once ⊢
      by_cases same : fd = sockfd
      · subst same
        simp only [if_true] at once ⊢
        omega
      · simp only [if_neg same, if_neg (Ne.symm same)]
  | @drop sockfd handled full =>
      refine oneShot.handle rfl ?_ fun request member => .inl member
      intro fd
      rw [dropped_dropped, List.count_append]
      simp only [handled, Option.toList_some, Option.toList_none, List.filterMap_cons,
        List.filterMap_nil, Ready.sockfd, List.count_nil]
      omega
  | @push sockfd handled outside room =>
      refine oneShot.handle rfl ?_ ?_
      · intro fd
        simp only [handled, Option.toList_some, Option.toList_none, List.filterMap_cons,
          List.filterMap_nil, Ready.sockfd, List.count_nil, List.count_append, dropped_quiet,
          List.count_singleton, beq_iff_eq, Option.some.injEq, Call.mk.injEq, and_true]
        omega
      · intro request member
        rcases List.mem_append.mp member with old | new
        · exact .inl old
        · exact .inr ⟨sockfd, List.mem_singleton.mp new⟩
  | post pushed =>
      refine oneShot.handle rfl (fun fd => ?_) fun request member => .inl member
      rw [dropped_quiet]
  | wait waiting positive =>
      exact oneShot.replace waiting rfl (fun fd => rfl) (fun fd => rfl) fun request => id
  | popEmpty passed empty =>
      exact oneShot.replace passed rfl (fun fd => rfl) (fun fd => rfl) fun request => id
  | @pop worker request rest passed front =>
      have isQueued : request ∈ loop.pool.workqueue := by
        rw [front]
        exact List.mem_cons_self
      rcases oneShot.queued request isQueued with ⟨sockfd, rfl⟩
      refine oneShot.replace passed rfl (fun fd => rfl) (fun fd => ?_) ?_
      · rw [front, List.count_cons]
        simp only [Worker.take, Worker.works, toNat_beq, Bool.toNat_false, beq_iff_eq,
          Option.some.injEq, Call.mk.injEq, and_true]
        by_cases same : fd = sockfd
        · simp only [if_pos same, if_pos same.symm]
          omega
        · simp only [if_neg same, if_neg (Ne.symm same)]
          omega
      · intro other member
        rw [front]
        exact List.mem_cons_of_mem _ member
  | @rearm worker sockfd interest working =>
      rcases oneShot.isOpen (places_working working) with ⟨once, _, isOpen, _, socket⟩
      rw [socket, modfd_open (List.count_pos_iff.mp (by omega))]
      refine oneShot.replace working rfl (fun fd => rfl) (fun fd => ?_) fun request => id
      have counted := ThreadPool.countP_replace (Worker.works fd) working .waiting
      rw [count_rearm]
      simp only [places, Worker.works, toNat_beq, Bool.toNat_false] at once counted ⊢
      by_cases same : fd = sockfd
      · subst same
        simp only [if_true] at once counted ⊢
        omega
      · simp only [if_neg same]
  | closeNone working unset =>
      have socket := (oneShot.isOpen (places_working working)).2.2.2.2
      rw [unset] at socket
      cases socket
  | closeFd working isSet =>
      have socket := (oneShot.isOpen (places_working working)).2.2.2.2
      rw [isSet] at socket
      cases socket
      exact oneShot.closeFd working
  | clear closed => exact oneShot.clear closed
  | leave cleared =>
      rw [oneShot.cleared _ _ cleared]
      exact oneShot.replace cleared rfl (fun fd => rfl) (fun fd => rfl) fun request => id

end Steps

/-! ## Runs -/

/-- The thread is in a function of this element of `users`: the main thread with an event, a
worker in `process`. -/
def Inside (loop : EventLoop) (fd : Nat) : Option Nat → Prop
  | none => ∃ ready, loop.handling = some ready ∧ ready.sockfd = some fd
  | some worker => ∃ stage, loop.pool.workers[worker]? = some (.processing ⟨fd, stage⟩)

theorem index_unique {test : Worker Call → Bool} {workers : List (Worker Call)}
    (once : workers.countP test ≤ 1) {first second : Nat} {left right : Worker Call}
    (foundLeft : workers[first]? = some left) (foundRight : workers[second]? = some right)
    (passesLeft : test left = true) (passesRight : test right = true)
    (fails : test .waiting = false) : first = second := by
  apply Classical.byContradiction
  intro different
  have counted := ThreadPool.countP_replace test foundLeft .waiting
  rw [passesLeft, fails, Bool.toNat_true, Bool.toNat_false] at counted
  have still : (workers.set first .waiting)[second]? = some right :=
    (List.getElem?_set_ne different).trans foundRight
  have positive := List.countP_pos_iff.mpr ⟨right, List.mem_of_getElem? still, passesRight⟩
  omega

/-- A thread that is inside counts as a place, or it is leaving. -/
theorem Inside.counted {loop : EventLoop} {fd : Nat} {thread : Option Nat}
    (inside : loop.Inside fd thread) :
    (∃ ready, thread = none ∧ loop.handling = some ready ∧ ready.sockfd = some fd) ∨
      (∃ worker current, thread = some worker ∧ loop.pool.workers[worker]? = some current ∧
        current.works fd = true) ∨
      ∃ worker current, thread = some worker ∧ loop.pool.workers[worker]? = some current ∧
        current.leaves fd = true := by
  cases thread with
  | none =>
      rcases inside with ⟨ready, handled, isFor⟩
      exact .inl ⟨ready, rfl, handled, isFor⟩
  | some worker =>
      rcases inside with ⟨stage, found⟩
      cases stage with
      | working => exact .inr (.inl ⟨worker, _, rfl, found, beq_self_eq_true fd⟩)
      | closed => exact .inr (.inr ⟨worker, _, rfl, found, beq_self_eq_true fd⟩)
      | cleared => exact .inr (.inr ⟨worker, _, rfl, found, beq_self_eq_true fd⟩)

section Threads

variable {past : List Event} {loop : EventLoop} (oneShot : OneShot past loop)

include oneShot

/-- The threads that are inside, counted with the other places of the connection. -/
theorem OneShot.sum_le (fd : Nat) :
    (loop.armed.map Prod.fst).count fd + (loop.events.filterMap Ready.sockfd).count fd +
      (loop.handling.toList.filterMap Ready.sockfd).count fd +
      loop.pool.workqueue.count (some ⟨fd, .working⟩) +
      loop.pool.workers.countP (Worker.works fd) + loop.leaving fd ≤ 1 := by
  have placed := oneShot.placed fd
  have once := oneShot.once fd
  rw [places] at placed
  omega

/-- No two threads are inside the same element of `users`. -/
theorem OneShot.inside_unique {fd : Nat} {first second : Option Nat}
    (left : loop.Inside fd first) (right : loop.Inside fd second) : first = second := by
  have sum := oneShot.sum_le fd
  rw [leaving] at sum
  have main : ∀ ready, loop.handling = some ready → ready.sockfd = some fd →
      (loop.handling.toList.filterMap Ready.sockfd).count fd = 1 := by
    intro ready handled isFor
    simp [handled, isFor]
  have worker : ∀ (test : Worker Call → Bool) (worker : Nat) (current : Worker Call),
      loop.pool.workers[worker]? = some current → test current = true →
      0 < loop.pool.workers.countP test := fun test worker current found passes =>
    List.countP_pos_iff.mpr ⟨current, List.mem_of_getElem? found, passes⟩
  rcases left.counted with ⟨ready, rfl, handled, isFor⟩ | ⟨one, current, rfl, found, passes⟩ |
    ⟨one, current, rfl, found, passes⟩ <;>
  rcases right.counted with ⟨other, rfl, handled', isFor'⟩ | ⟨two, other, rfl, found', passes'⟩ |
    ⟨two, other, rfl, found', passes'⟩
  · rfl
  · have inMain := main ready handled isFor
    have inWorker := worker _ two other found' passes'
    omega
  · have inMain := main ready handled isFor
    have inWorker := worker _ two other found' passes'
    omega
  · have inMain := main other handled' isFor'
    have inWorker := worker _ one current found passes
    omega
  · exact congrArg some (index_unique (by omega) found found' passes passes' rfl)
  · have working := worker _ one current found passes
    have isLeaving := worker _ two other found' passes'
    omega
  · have inMain := main other handled' isFor'
    have inWorker := worker _ one current found passes
    omega
  · have isLeaving := worker _ one current found passes
    have working := worker _ two other found' passes'
    omega
  · exact congrArg some (index_unique (by omega) found found' passes passes' rfl)

/-- What a thread is inside of is not armed, reported or queued. -/
theorem OneShot.inside_alone {fd : Nat} {thread : Option Nat} (inside : loop.Inside fd thread) :
    fd ∉ loop.armed.map Prod.fst ∧ fd ∉ loop.events.filterMap Ready.sockfd ∧
      some ⟨fd, .working⟩ ∉ loop.pool.workqueue := by
  have sum := oneShot.sum_le fd
  have one : 0 < (loop.handling.toList.filterMap Ready.sockfd).count fd +
      loop.pool.workers.countP (Worker.works fd) + loop.leaving fd := by
    rcases inside.counted with ⟨ready, _, handled, isFor⟩ | ⟨worker, current, _, found, passes⟩ |
      ⟨worker, current, _, found, passes⟩
    · have positive : 0 < (loop.handling.toList.filterMap Ready.sockfd).count fd := by
        simp [handled, isFor]
      omega
    · have positive := List.countP_pos_iff.mpr ⟨current, List.mem_of_getElem? found, passes⟩
      omega
    · have positive : 0 < loop.leaving fd :=
        List.countP_pos_iff.mpr ⟨current, List.mem_of_getElem? found, passes⟩
      omega
  refine ⟨fun member => ?_, fun member => ?_, fun member => ?_⟩
  · have isArmed := List.count_pos_iff.mpr member
    omega
  · have isReported := List.count_pos_iff.mpr member
    omega
  · have isQueued := List.count_pos_iff.mpr member
    omega

end Threads

section Runs

variable {maxRequest workers : Nat} {actions : List Action} {loop : EventLoop}
  {log : List Event}

theorem oneShot_run (apart : EveryTaken step Apart (start maxRequest workers) actions)
    (ran : runSteps step (start maxRequest workers) actions = some (loop, log)) :
    OneShot log loop := by
  have kept := apart.induction OneShot
    (fun past state action after event oneShot apart stepped => oneShot.step apart stepped)
    actions [] (start maxRequest workers) loop log (start_oneShot maxRequest workers) ran
  rwa [List.nil_append] at kept

/-- In every interleaving in which no descriptor is given out again before the worker that
closed it is through with `process`: no two threads are inside the same element of `users`,
and while a thread is inside, the connection is not armed, not reported and not queued; each
open connection is at exactly one place, or its `append` has failed and it is at none. -/
theorem run_exclusive (apart : EveryTaken step Apart (start maxRequest workers) actions)
    (ran : runSteps step (start maxRequest workers) actions = some (loop, log)) :
    (∀ fd first second, loop.Inside fd first → loop.Inside fd second → first = second) ∧
      (∀ fd thread, loop.Inside fd thread → fd ∉ loop.armed.map Prod.fst ∧
        fd ∉ loop.events.filterMap Ready.sockfd ∧ some ⟨fd, .working⟩ ∉ loop.pool.workqueue) ∧
      loop.connections.Nodup ∧
      ∀ fd, loop.places fd + (dropped log).count fd = if fd ∈ loop.connections then 1 else 0 := by
  have oneShot := oneShot_run apart ran
  have atMost : ∀ fd, loop.connections.count fd ≤ 1 := by
    intro fd
    have once := oneShot.once fd
    omega
  refine ⟨fun fd first second left right => oneShot.inside_unique left right,
    fun fd thread inside => oneShot.inside_alone inside, List.nodup_iff_count.mpr atMost, ?_⟩
  intro fd
  rw [oneShot.placed fd]
  split
  · next member =>
      have isOpen := List.count_pos_iff.mpr member
      have atMost := atMost fd
      omega
  · next missing => exact List.count_eq_zero.mpr missing

/-- One client whose request a worker processes. -/
def oneClient : List Action :=
  [.poll [.connection], .take, .accept, .poll [.input 5], .take, .append, .post, .wait 1, .pop 1]

theorem run_exclusive_oneClient :
    ∃ loop log, runSteps step (start 1 2) oneClient = some (loop, log) ∧
      loop.Inside 5 (some 1) ∧ ∀ thread, loop.Inside 5 thread → some 1 = thread := by
  have apart : EveryTaken step Apart (start 1 2) oneClient := by decide
  refine ⟨_, _, rfl, ⟨.working, rfl⟩, fun thread inside => ?_⟩
  exact (run_exclusive apart rfl).1 5 (some 1) thread ⟨.working, rfl⟩ inside

/-- A descriptor that is given out again too early: the last `modfd` of the worker that has
closed the old connection arms the new one, and the main thread and a worker are inside. -/
theorem shared_after_reuse :
    ∃ loop log, runSteps step (start 1 2) [.poll [.connection], .take, .accept, .poll [.input 5],
        .take, .append, .post, .wait 0, .pop 0, .closeFd 0, .clear 0,
        .poll [.connection], .take, .accept, .poll [.input 5], .take, .append, .post, .wait 1,
        .pop 1, .leave 0, .poll [.output 5], .take] = some (loop, log) ∧
      loop.Inside 5 none ∧ loop.Inside 5 (some 1) :=
  ⟨_, _, rfl, ⟨.output 5, rfl, rfl⟩, ⟨.working, rfl⟩⟩

end Runs

end EventLoop

end DataStructAlgorithm.HTTPD2
