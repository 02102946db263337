import DataStructAlgorithm.HTTPD2.OneShot

/-! # Between two calls of `epoll_wait`

Without another call of `epoll_wait` all threads come to rest, and then every open connection
whose `append` has not failed is armed again. -/

namespace DataStructAlgorithm.HTTPD2

open Foundation

/-- The worker is in a call that has not closed its connection. -/
def Worker.isWorking : Worker Call → Bool
  | .processing ⟨_, .working⟩ => true
  | _ => false

def Worker.isClosed : Worker Call → Bool
  | .processing ⟨_, .closed⟩ => true
  | _ => false

theorem Worker.weight_le (worker : Worker Call) :
    2 * worker.isWorking.toNat + worker.isClosed.toNat ≤ 2 := by
  cases worker with
  | waiting => decide
  | passed => decide
  | processing call =>
      rcases call with ⟨sockfd, stage⟩
      cases stage <;> simp [isWorking, isClosed]

namespace EventLoop

/-- A step that is no call of `epoll_wait`. -/
def Action.isPoll : Action → Bool
  | .poll _ => true
  | _ => false

/-- The threads and the semaphore. -/
structure Staffed (workers : Nat) (loop : EventLoop) : Prop where
  balanced : loop.pool.Balanced
  producers : loop.pool.producers.length = 1
  workers : loop.pool.workers.length = workers

/-- A bound on the steps that are left without another call of `epoll_wait`. -/
def work (loop : EventLoop) : Nat :=
  14 * loop.events.length + 13 * loop.handling.toList.length + 3 * loop.pool.work +
    2 * loop.pool.workers.countP Worker.isWorking + loop.pool.workers.countP Worker.isClosed

theorem start_staffed (maxRequest workers : Nat) :
    Staffed workers (start maxRequest workers) where
  balanced := ThreadPool.balanced_initial maxRequest 1 workers
  producers := rfl
  workers := List.length_replicate

section Steps

variable {loop : EventLoop} {workers : Nat}

/-- A step of the pool. -/
theorem Staffed.pooled (staffed : Staffed workers loop) {action : ThreadPool.Action Call}
    {pool : ThreadPool Call} {event : ThreadPool.Event Call}
    (stepped : loop.pool.step action = some (pool, event)) :
    pool.Balanced ∧ pool.producers.length = 1 ∧ pool.workers.length = workers := by
  refine ⟨staffed.balanced.step stepped, ?_,
    (ThreadPool.workers_length_step stepped).trans staffed.workers⟩
  have one := staffed.producers
  cases ThreadPool.stepped_of_step stepped <;> simp [one]

/-- A worker goes on with its call. -/
theorem Staffed.advance (staffed : Staffed workers loop) {worker : Nat} {call : Call}
    (found : loop.pool.workers[worker]? = some (.processing call)) (sockfd : Nat)
    (stage : Stage) : Staffed workers (loop.advance worker sockfd stage) where
  balanced := by
    have balanced := staffed.balanced
    have counted := ThreadPool.countP_replace Worker.isPassed found (.processing ⟨sockfd, stage⟩)
    simp only [ThreadPool.Balanced, ThreadPool.passed, ThreadPool.pushed, EventLoop.advance,
      Worker.isPassed, Bool.toNat_false] at balanced counted ⊢
    omega
  producers := staffed.producers
  workers := List.length_set.trans staffed.workers

/-- What a step of the pool is in the loop. -/
theorem pool_of_step {after : EventLoop} {action : Action} {event : Event}
    (stepped : loop.step action = some (after, event)) :
    after.pool = loop.pool ∨
      (∃ poolAction poolEvent, loop.pool.step poolAction = some (after.pool, poolEvent)) ∨
      ∃ worker call sockfd stage, loop.pool.workers[worker]? = some (.processing call) ∧
        after.pool = (loop.advance worker sockfd stage).pool := by
  cases stepped_of_step stepped with
  | poll idle handled nodup reportable => exact .inl rfl
  | take idle front => exact .inl rfl
  | refuse handled => exact .inl rfl
  | accept handled within => exact .inl rfl
  | @close ready sockfd handled isFor =>
      refine .inl ?_
      dsimp only
      rw [closeConn]
      split <;> rfl
  | written handled => exact .inl (modfd_pool _ _ _)
  | drop handled full => exact .inl rfl
  | @push sockfd handled outside room =>
      refine .inr (.inl ⟨.append 0 (some ⟨sockfd, .working⟩), .accepted 0 (some ⟨sockfd, .working⟩),
        ?_⟩)
      rw [ThreadPool.step, ThreadPool.append, outside]
      exact if_neg (by omega)
  | post pushed =>
      refine .inr (.inl ⟨.post 0, .posted 0, ?_⟩)
      rw [ThreadPool.step, ThreadPool.post, pushed]
  | @wait worker value waiting positive =>
      refine .inr (.inl ⟨.wait worker, .passed worker, ?_⟩)
      rw [ThreadPool.step, ThreadPool.wait, waiting, positive]
  | @popEmpty worker passed empty =>
      refine .inr (.inl ⟨.pop worker, .foundEmpty worker, ?_⟩)
      simp only [ThreadPool.step, ThreadPool.pop, passed, empty]
  | @pop worker request rest passed front =>
      refine .inr (.inl ⟨.pop worker, .popped worker request, ?_⟩)
      simp only [ThreadPool.step, ThreadPool.pop, passed, front]
  | @rearm worker sockfd interest working =>
      exact .inr (.inl ⟨.process worker, _, process_processing working⟩)
  | @closeNone worker sockfd working unset =>
      exact .inr (.inr ⟨worker, _, sockfd, .cleared, working, rfl⟩)
  | @closeFd worker sockfd socket working isSet =>
      exact .inr (.inr ⟨worker, _, sockfd, .closed, working, rfl⟩)
  | @clear worker sockfd closed =>
      exact .inr (.inr ⟨worker, _, sockfd, .cleared, closed, rfl⟩)
  | @leave worker sockfd cleared =>
      exact .inr (.inl ⟨.process worker, _, process_processing cleared⟩)

theorem Staffed.step (staffed : Staffed workers loop) {after : EventLoop} {action : Action}
    {event : Event} (stepped : loop.step action = some (after, event)) :
    Staffed workers after := by
  rcases pool_of_step stepped with same | ⟨poolAction, poolEvent, poolStepped⟩ |
    ⟨worker, call, sockfd, stage, found, same⟩
  · exact ⟨same ▸ staffed.balanced, same ▸ staffed.producers, same ▸ staffed.workers⟩
  · rcases staffed.pooled poolStepped with ⟨balanced, producers, isStaffed⟩
    exact ⟨balanced, producers, isStaffed⟩
  · have next := staffed.advance found sockfd stage
    exact ⟨same ▸ next.balanced, same ▸ next.producers, same ▸ next.workers⟩

/-- The work that a worker has left when it goes on with its call. -/
theorem work_advance (loop : EventLoop) {worker : Nat} {call : Call}
    (found : loop.pool.workers[worker]? = some (.processing call)) (sockfd : Nat)
    (stage : Stage) :
    (loop.advance worker sockfd stage).work + (2 * (Worker.processing call).isWorking.toNat +
        (Worker.processing call).isClosed.toNat) =
      loop.work + (2 * (Worker.processing ⟨sockfd, stage⟩).isWorking.toNat +
        (Worker.processing ⟨sockfd, stage⟩).isClosed.toNat) := by
  have processing := ThreadPool.countP_replace Worker.isProcessing found
    (.processing ⟨sockfd, stage⟩)
  have working := ThreadPool.countP_replace Worker.isWorking found (.processing ⟨sockfd, stage⟩)
  have closed := ThreadPool.countP_replace Worker.isClosed found (.processing ⟨sockfd, stage⟩)
  simp only [work, advance, ThreadPool.work, ThreadPool.processing, ThreadPool.pushed]
    at processing working closed ⊢
  simp only [Worker.isProcessing, Bool.toNat_true] at processing
  omega

/-- Each step that is no call of `epoll_wait` brings the threads closer to rest. -/
theorem Staffed.work_lt (staffed : Staffed workers loop) {after : EventLoop} {action : Action}
    {event : Event} (noPoll : action.isPoll = false)
    (stepped : loop.step action = some (after, event)) : after.work < loop.work := by
  have balanced := staffed.balanced
  cases stepped_of_step stepped with
  | poll idle handled nodup reportable => cases noPoll
  | take idle front =>
      simp only [work, front, idle.1, List.length_cons, Option.toList_some, Option.toList_none,
        List.length_nil]
      omega
  | refuse handled =>
      simp only [work, handled, Option.toList_some, Option.toList_none, List.length_cons,
        List.length_nil]
      omega
  | accept handled within =>
      simp only [work, init, setSocket, handled, Option.toList_some, Option.toList_none,
        List.length_cons, List.length_nil]
      omega
  | @close ready sockfd handled isFor =>
      have pool : (loop.closeConn sockfd).pool = loop.pool := by
        rw [closeConn]
        split <;> rfl
      have events : (loop.closeConn sockfd).events = loop.events := by
        rw [closeConn]
        split <;> rfl
      simp only [work, pool, events, handled, Option.toList_some, Option.toList_none,
        List.length_cons, List.length_nil]
      omega
  | written handled =>
      simp only [work, modfd_pool, modfd_events, handled, Option.toList_some, Option.toList_none,
        List.length_cons, List.length_nil]
      omega
  | drop handled full =>
      simp only [work, handled, Option.toList_some, Option.toList_none, List.length_cons,
        List.length_nil]
      omega
  | push handled outside room =>
      have counted := ThreadPool.countP_replace Producer.isPushed outside .pushed
      simp only [work, ThreadPool.work, ThreadPool.pushed, ThreadPool.processing, handled,
        Option.toList_some, Option.toList_none, List.length_cons, List.length_nil,
        List.length_append, Producer.isPushed, Bool.toNat_true, Bool.toNat_false] at counted ⊢
      omega
  | post pushed =>
      have counted := ThreadPool.countP_replace Producer.isPushed pushed .outside
      simp only [work, ThreadPool.work, ThreadPool.pushed, ThreadPool.processing,
        Producer.isPushed, Bool.toNat_true, Bool.toNat_false] at counted ⊢
      omega
  | wait waiting positive =>
      have processing := ThreadPool.countP_replace Worker.isProcessing waiting .passed
      have working := ThreadPool.countP_replace Worker.isWorking waiting .passed
      have closed := ThreadPool.countP_replace Worker.isClosed waiting .passed
      simp only [work, ThreadPool.work, ThreadPool.processing, ThreadPool.pushed,
        Worker.isProcessing, Worker.isWorking, Worker.isClosed, Bool.toNat_false]
        at processing working closed ⊢
      omega
  | popEmpty passed empty => exact absurd empty (balanced.workqueue_ne_nil passed)
  | @pop worker request rest passed front =>
      have processing := ThreadPool.countP_replace Worker.isProcessing passed (Worker.take request)
      have working := ThreadPool.countP_replace Worker.isWorking passed (Worker.take request)
      have closed := ThreadPool.countP_replace Worker.isClosed passed (Worker.take request)
      have small := Bool.toNat_le (Worker.isProcessing (Worker.take request))
      have light := (Worker.take request).weight_le
      change _ + 0 = _ at processing working closed
      simp only [work, ThreadPool.work, ThreadPool.processing, ThreadPool.pushed, front,
        List.length_cons] at processing working closed small light ⊢
      omega
  | rearm working =>
      have processing := ThreadPool.countP_replace Worker.isProcessing working .waiting
      have isWorking := ThreadPool.countP_replace Worker.isWorking working .waiting
      have isClosed := ThreadPool.countP_replace Worker.isClosed working .waiting
      simp only [work, ThreadPool.work, ThreadPool.processing, ThreadPool.pushed, modfd_events,
        modfd_handling, Worker.isProcessing, Worker.isWorking, Worker.isClosed, Bool.toNat_true,
        Bool.toNat_false] at processing isWorking isClosed ⊢
      omega
  | @closeNone worker sockfd working unset =>
      have lighter := work_advance loop working sockfd .cleared
      simp only [Worker.isWorking, Worker.isClosed, Bool.toNat_true, Bool.toNat_false] at lighter
      omega
  | @closeFd worker sockfd socket working isSet =>
      have lighter := work_advance (loop.removefd socket) working sockfd .closed
      have same : (loop.removefd socket).work = loop.work := rfl
      simp only [Worker.isWorking, Worker.isClosed, Bool.toNat_true, Bool.toNat_false] at lighter
      omega
  | @clear worker sockfd closed =>
      have lighter := work_advance (loop.setSocket sockfd none) closed sockfd .cleared
      have same : (loop.setSocket sockfd none).work = loop.work := rfl
      simp only [Worker.isWorking, Worker.isClosed, Bool.toNat_true, Bool.toNat_false] at lighter
      omega
  | leave cleared =>
      have processing := ThreadPool.countP_replace Worker.isProcessing cleared .waiting
      have isWorking := ThreadPool.countP_replace Worker.isWorking cleared .waiting
      have isClosed := ThreadPool.countP_replace Worker.isClosed cleared .waiting
      simp only [work, ThreadPool.work, ThreadPool.processing, ThreadPool.pushed, modfd_events,
        modfd_handling, Worker.isProcessing, Worker.isWorking, Worker.isClosed, Bool.toNat_true,
        Bool.toNat_false] at processing isWorking isClosed ⊢
      omega

/-- A loop at which no thread can go on, unless the main thread calls `epoll_wait`. -/
def Still (loop : EventLoop) : Prop :=
  ∀ action, action.isPoll = false → loop.step action = none

theorem Still.handling_eq_none (still : loop.Still) : loop.handling = none := by
  cases handled : loop.handling with
  | none => rfl
  | some ready =>
      cases ready with
      | connection =>
          have refused := still .refuse rfl
          simp [step, mainStep, workerStep, handled] at refused
      | failed sockfd =>
          have closed := still .close rfl
          simp [step, mainStep, handled, Ready.sockfd] at closed
      | input sockfd =>
          have closed := still .close rfl
          simp [step, mainStep, handled, Ready.sockfd] at closed
      | output sockfd =>
          have closed := still .close rfl
          simp [step, mainStep, handled, Ready.sockfd] at closed

theorem Still.not_processing (still : loop.Still) {worker : Nat} {call : Call} :
    loop.pool.workers[worker]? ≠ some (.processing call) := by
  intro found
  rcases call with ⟨sockfd, stage⟩
  cases stage with
  | working =>
      have rearmed := still (.rearm worker .input) rfl
      simp [step, mainStep, workerStep, found, inPool, process_processing found] at rearmed
  | closed =>
      have cleared := still (.clear worker) rfl
      simp [step, mainStep, workerStep, found] at cleared
  | cleared =>
      have left := still (.leave worker) rfl
      simp [step, mainStep, workerStep, found, inPool, process_processing found] at left

/-- A loop in which the main thread is idle and all workers wait. -/
theorem still_of_waiting (handling : loop.handling = none) (events : loop.events = [])
    (outside : loop.pool.producers = [.outside]) (queuestat : loop.pool.queuestat = 0)
    (waiting : ∀ worker ∈ loop.pool.workers, worker = .waiting) : loop.Still := by
  have noCall : ∀ (worker : Nat) (call : Call),
      loop.pool.workers[worker]? ≠ some (.processing call) := fun worker call found =>
    absurd (waiting _ (List.mem_of_getElem? found)) (by simp)
  have noPassed : ∀ worker : Nat, loop.pool.workers[worker]? ≠ some .passed := fun worker found =>
    absurd (waiting _ (List.mem_of_getElem? found)) (by simp)
  intro action noPoll
  cases stepped : loop.step action with
  | none => rfl
  | some result =>
      rcases result with ⟨after, event⟩
      cases stepped_of_step stepped with
      | poll idle handled nodup reportable => cases noPoll
      | take idle front => simp [events] at front
      | refuse handled => simp [handling] at handled
      | accept handled within => simp [handling] at handled
      | close handled isFor => simp [handling] at handled
      | written handled => simp [handling] at handled
      | drop handled full => simp [handling] at handled
      | push handled isOutside room => simp [handling] at handled
      | post pushed => simp [outside] at pushed
      | wait isWaiting positive => simp [queuestat] at positive
      | popEmpty passed empty => exact absurd passed (noPassed _)
      | pop passed front => exact absurd passed (noPassed _)
      | rearm working => exact absurd working (noCall _ _)
      | closeNone working unset => exact absurd working (noCall _ _)
      | closeFd working isSet => exact absurd working (noCall _ _)
      | clear closed => exact absurd closed (noCall _ _)
      | leave cleared => exact absurd cleared (noCall _ _)

theorem Staffed.outside (staffed : Staffed workers loop) (still : loop.Still) :
    loop.pool.producers = [.outside] := by
  have one := staffed.producers
  cases equal : loop.pool.producers with
  | nil => simp [equal] at one
  | cons producer rest =>
      cases rest with
      | cons other rest => simp [equal] at one
      | nil =>
          cases producer with
          | outside => rfl
          | pushed =>
              have posted := still .post rfl
              simp [EventLoop.step, mainStep, workerStep, inPool, ThreadPool.post, equal] at posted

theorem Staffed.events_eq_nil (staffed : Staffed workers loop) (still : loop.Still) :
    loop.events = [] := by
  cases front : loop.events with
  | nil => rfl
  | cons ready rest =>
      have idle : loop.Idle := ⟨still.handling_eq_none, staffed.outside still⟩
      have taken := still .take rfl
      simp [EventLoop.step, mainStep, workerStep, front, idle] at taken

theorem Staffed.workqueue_eq_nil (staffed : Staffed workers loop) (still : loop.Still)
    (manned : 0 < workers) : loop.pool.workqueue = [] := by
  apply Classical.byContradiction
  intro nonempty
  have some : loop.pool.workers ≠ [] := by
    intro none
    have length := staffed.workers
    rw [none, List.length_nil] at length
    omega
  rcases staffed.balanced.can_step some nonempty with ⟨action, noAppend, canStep⟩
  cases action with
  | append producer request => cases noAppend
  | post producer =>
      rcases Option.ne_none_iff_exists'.mp canStep with ⟨⟨pool, event⟩, stepped⟩
      cases ThreadPool.stepped_of_step stepped with
      | post pushed =>
          rw [staffed.outside still] at pushed
          rcases List.mem_singleton.mp (List.mem_of_getElem? pushed)
  | wait worker =>
      rcases Option.ne_none_iff_exists'.mp canStep with ⟨⟨pool, event⟩, stepped⟩
      have waited := still (.wait worker) rfl
      rw [ThreadPool.step] at stepped
      simp [EventLoop.step, mainStep, workerStep, inPool, stepped] at waited
  | pop worker =>
      rcases Option.ne_none_iff_exists'.mp canStep with ⟨⟨pool, event⟩, stepped⟩
      have popped := still (.pop worker) rfl
      rw [ThreadPool.step] at stepped
      simp [EventLoop.step, mainStep, workerStep, inPool, stepped] at popped
  | process worker =>
      rcases Option.ne_none_iff_exists'.mp canStep with ⟨⟨pool, event⟩, stepped⟩
      cases ThreadPool.stepped_of_step stepped with
      | process processing => exact still.not_processing processing

/-- At rest every open connection is armed, or its `append` has failed. -/
theorem OneShot.armed_of_still {past : List Event} (oneShot : OneShot past loop)
    (staffed : Staffed workers loop) (still : loop.Still) (manned : 0 < workers) {fd : Nat}
    (isOpen : fd ∈ loop.connections) : fd ∈ loop.armed.map Prod.fst ∨ fd ∈ dropped past := by
  have placed := oneShot.placed fd
  have one := List.count_pos_iff.mpr isOpen
  have noWorker : loop.pool.workers.countP (Worker.works fd) = 0 := by
    refine List.countP_eq_zero.mpr fun current member passes => ?_
    rcases List.getElem?_of_mem member with ⟨worker, found⟩
    cases current with
    | waiting => cases passes
    | passed => cases passes
    | processing call => exact still.not_processing found
  rw [places, still.handling_eq_none, staffed.events_eq_nil still,
    staffed.workqueue_eq_nil still manned, noWorker] at placed
  simp only [Option.toList_none, List.filterMap_nil, List.count_nil] at placed
  by_cases isArmed : fd ∈ loop.armed.map Prod.fst
  · exact .inl isArmed
  · have notArmed := List.count_eq_zero.mpr isArmed
    exact .inr (List.count_pos_iff.mp (by omega))

end Steps

section Runs

variable {maxRequest workers : Nat} {actions more : List Action} {loop final : EventLoop}
  {log later : List Event}

theorem staffed_run (ran : runSteps step (start maxRequest workers) actions = some (loop, log)) :
    Staffed workers loop :=
  runSteps_induction (fun _ loop => Staffed workers loop)
    (fun _ _ _ _ _ staffed stepped => staffed.step stepped) actions []
    (start maxRequest workers) loop log (start_staffed maxRequest workers) ran

/-- The loop when the request of the one client is processed. -/
def oneClientLoop : EventLoop :=
  ⟨fun fd => if fd = 5 then some 5 else none, [5], [], [], none,
    ⟨1, [], 0, [.outside], [.waiting, .processing ⟨5, .working⟩]⟩⟩

end Runs

end EventLoop

end DataStructAlgorithm.HTTPD2
