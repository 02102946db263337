import DataStructAlgorithm.HTTPD2.ThreadPool

/-! # Runs of the thread pool

Push and post are separate steps, and so are wait and pop. The length of the queue
is the value of the semaphore and the number of threads that are in between. -/

namespace DataStructAlgorithm.HTTPD2

open Foundation

variable {Request : Type}

def Producer.isPushed : Producer → Bool
  | .outside => false
  | .pushed => true

def Worker.isPassed : Worker Request → Bool
  | .passed => true
  | _ => false

def Worker.isProcessing : Worker Request → Bool
  | .processing _ => true
  | _ => false

theorem Worker.isPassed_take (request : Option Request) : (take request).isPassed = false := by
  cases request <;> rfl

namespace ThreadPool

/-- What the steps do. -/
inductive Stepped (pool : ThreadPool Request) :
    Action Request → ThreadPool Request → Event Request → Prop
  | reject {producer : Nat} {request : Option Request}
      (outside : pool.producers[producer]? = some .outside)
      (full : pool.maxRequest < pool.workqueue.length) :
      Stepped pool (.append producer request) pool (.rejected producer request)
  | accept {producer : Nat} {request : Option Request}
      (outside : pool.producers[producer]? = some .outside)
      (room : pool.workqueue.length ≤ pool.maxRequest) :
      Stepped pool (.append producer request)
        { pool with
          workqueue := pool.workqueue ++ [request]
          producers := pool.producers.set producer .pushed } (.accepted producer request)
  | post {producer : Nat} (pushed : pool.producers[producer]? = some .pushed) :
      Stepped pool (.post producer)
        { pool with
          queuestat := pool.queuestat + 1
          producers := pool.producers.set producer .outside } (.posted producer)
  | wait {worker value : Nat} (waiting : pool.workers[worker]? = some .waiting)
      (positive : pool.queuestat = value + 1) :
      Stepped pool (.wait worker)
        { pool with queuestat := value, workers := pool.workers.set worker .passed }
        (.passed worker)
  | popEmpty {worker : Nat} (passed : pool.workers[worker]? = some .passed)
      (empty : pool.workqueue = []) :
      Stepped pool (.pop worker)
        { pool with workers := pool.workers.set worker .waiting } (.foundEmpty worker)
  | pop {worker : Nat} {request : Option Request} {rest : List (Option Request)}
      (passed : pool.workers[worker]? = some .passed) (front : pool.workqueue = request :: rest) :
      Stepped pool (.pop worker)
        { pool with
          workqueue := rest
          workers := pool.workers.set worker (Worker.take request) } (.popped worker request)
  | process {worker : Nat} {request : Request}
      (processing : pool.workers[worker]? = some (.processing request)) :
      Stepped pool (.process worker)
        { pool with workers := pool.workers.set worker .waiting } (.processed worker request)

theorem stepped_of_step {pool after : ThreadPool Request} {action : Action Request}
    {event : Event Request} (stepped : pool.step action = some (after, event)) :
    Stepped pool action after event := by
  cases action with
  | append producer request =>
      rw [step, append] at stepped
      split at stepped
      · next outside =>
          by_cases full : pool.maxRequest < pool.workqueue.length
          · rw [if_pos full] at stepped
            cases stepped
            exact .reject outside full
          · rw [if_neg full] at stepped
            cases stepped
            exact .accept outside (by omega)
      · cases stepped
  | post producer =>
      rw [step, post] at stepped
      split at stepped
      · next pushed =>
          cases stepped
          exact .post pushed
      · cases stepped
  | wait worker =>
      rw [step, wait] at stepped
      split at stepped
      · next waiting positive =>
          cases stepped
          exact .wait waiting positive
      · cases stepped
  | pop worker =>
      rw [step, pop] at stepped
      split at stepped
      · next passed empty =>
          cases stepped
          exact .popEmpty passed empty
      · next passed front =>
          cases stepped
          exact .pop passed front
      · cases stepped
  | process worker =>
      rw [step, process] at stepped
      split at stepped
      · next processing =>
          cases stepped
          exact .process processing
      · cases stepped

/-! ## Counting the threads in between -/

theorem countP_replace {Item : Type} (test : Item → Bool) {items : List Item} {index : Nat}
    {old : Item} (found : items[index]? = some old) (new : Item) :
    (items.set index new).countP test + (test old).toNat =
      items.countP test + (test new).toNat := by
  rcases List.getElem?_eq_some_iff.mp found with ⟨within, oldEq⟩
  rw [List.countP_set within, oldEq]
  by_cases holds : test old = true
  · have positive : 0 < items.countP test :=
      List.countP_pos_iff.mpr ⟨old, oldEq ▸ List.getElem_mem within, holds⟩
    rw [if_pos holds, holds, Bool.toNat_true]
    cases test new <;> simp <;> omega
  · rw [if_neg holds, Bool.eq_false_iff.mpr holds, Bool.toNat_false]
    cases test new <;> simp

/-- Threads between push and post. -/
def pushed (pool : ThreadPool Request) : Nat := pool.producers.countP Producer.isPushed

/-- Threads between wait and pop. -/
def passed (pool : ThreadPool Request) : Nat := pool.workers.countP Worker.isPassed

def processing (pool : ThreadPool Request) : Nat := pool.workers.countP Worker.isProcessing

/-- The counting invariant. -/
def Balanced (pool : ThreadPool Request) : Prop :=
  pool.workqueue.length = pool.queuestat + pool.pushed + pool.passed

theorem balanced_initial (maxRequest producers workers : Nat) :
    Balanced (initial maxRequest producers workers : ThreadPool Request) := by
  have nonePushed : (List.replicate producers Producer.outside).countP Producer.isPushed = 0 := by
    rw [List.countP_replicate]
    rfl
  have nonePassed : (List.replicate workers (Worker.waiting : Worker Request)).countP
      Worker.isPassed = 0 := by
    rw [List.countP_replicate]
    rfl
  simp only [Balanced, initial, pushed, passed, nonePushed, nonePassed, List.length_nil]

/-- One step keeps the balance. -/
theorem Balanced.step {pool after : ThreadPool Request} {action : Action Request}
    {event : Event Request} (balanced : pool.Balanced)
    (stepped : pool.step action = some (after, event)) : after.Balanced := by
  simp only [Balanced, pushed, passed] at balanced ⊢
  cases stepped_of_step stepped with
  | reject outside full => exact balanced
  | accept outside room =>
      have counted := countP_replace Producer.isPushed outside .pushed
      simp only [Producer.isPushed, Bool.toNat_true, Bool.toNat_false, List.length_append,
        List.length_singleton] at counted ⊢
      omega
  | post pushed =>
      have counted := countP_replace Producer.isPushed pushed .outside
      simp only [Producer.isPushed, Bool.toNat_true, Bool.toNat_false] at counted ⊢
      omega
  | wait waiting positive =>
      have counted := countP_replace Worker.isPassed waiting .passed
      simp only [Worker.isPassed, Bool.toNat_true, Bool.toNat_false] at counted ⊢
      omega
  | popEmpty passed empty =>
      have counted := countP_replace Worker.isPassed passed .waiting
      rw [empty] at balanced
      simp only [Worker.isPassed, Bool.toNat_true, Bool.toNat_false, List.length_nil] at counted balanced ⊢
      omega
  | @pop worker request rest passed front =>
      have counted := countP_replace Worker.isPassed passed (Worker.take request)
      rw [Worker.isPassed_take] at counted
      rw [front] at balanced
      simp only [Worker.isPassed, Bool.toNat_true, Bool.toNat_false, List.length_cons]
        at counted balanced ⊢
      omega
  | process processing =>
      have counted := countP_replace Worker.isPassed processing .waiting
      simp only [Worker.isPassed, Bool.toNat_false] at counted ⊢
      omega

/-- A worker between wait and pop finds a request. -/
theorem Balanced.workqueue_ne_nil {pool : ThreadPool Request} (balanced : pool.Balanced)
    {worker : Nat} (found : pool.workers[worker]? = some .passed) : pool.workqueue ≠ [] := by
  intro empty
  have positive : 0 < pool.passed :=
    List.countP_pos_iff.mpr ⟨.passed, List.mem_of_getElem? found, rfl⟩
  rw [Balanced, empty, List.length_nil] at balanced
  omega

/-! ## What the events tell -/

/-- The requests that `append` has accepted, in the order of the pushes. -/
def accepts (log : List (Event Request)) : List (Option Request) :=
  log.filterMap fun
    | .accepted _ request => some request
    | _ => none

/-- The pops, each with its worker, in their order. -/
def pops (log : List (Event Request)) : List (Nat × Option Request) :=
  log.filterMap fun
    | .popped worker request => some (worker, request)
    | _ => none

/-- The invariant of a run: every accepted request has been popped once, in the
order of the pushes, or is still in the queue, and no worker has found it empty. -/
structure Served (log : List (Event Request)) (pool : ThreadPool Request) : Prop where
  balanced : pool.Balanced
  accepts_eq : accepts log = (pops log).map Prod.snd ++ pool.workqueue
  neverEmpty : ∀ worker, .foundEmpty worker ∉ log

theorem served_initial (maxRequest producers workers : Nat) :
    Served [] (initial maxRequest producers workers : ThreadPool Request) :=
  ⟨balanced_initial maxRequest producers workers, rfl, by simp⟩

theorem Served.step {past : List (Event Request)} {pool after : ThreadPool Request}
    {action : Action Request} {event : Event Request} (served : Served past pool)
    (stepped : pool.step action = some (after, event)) : Served (past ++ [event]) after := by
  refine ⟨served.balanced.step stepped, ?_, ?_⟩
  · have accepted := served.accepts_eq
    simp only [accepts, pops] at accepted
    simp only [accepts, pops, List.filterMap_append, List.map_append, accepted]
    cases stepped_of_step stepped with
    | reject outside full => simp
    | accept outside room => simp
    | post pushed => simp
    | wait waiting positive => simp
    | popEmpty passed empty => simp
    | pop passed front => simp [front]
    | process processing => simp
  · intro worker member
    rcases List.mem_append.mp member with earlier | now
    · exact served.neverEmpty worker earlier
    · have isNow := List.mem_singleton.mp now
      subst isNow
      cases stepped_of_step stepped with
      | popEmpty passed empty => exact served.balanced.workqueue_ne_nil passed empty

/-! ## Draining -/

def Action.isAppend : Action Request → Bool
  | .append .. => true
  | _ => false

/-- A bound on the steps that are left when nobody calls `append`. -/
def work (pool : ThreadPool Request) : Nat :=
  2 * pool.workqueue.length + 2 * pool.pushed + pool.queuestat + pool.processing

/-- Each step that is no call of `append` brings the pool closer to an end. -/
theorem Balanced.work_lt {pool after : ThreadPool Request} {action : Action Request}
    {event : Event Request} (balanced : pool.Balanced) (noAppend : action.isAppend = false)
    (stepped : pool.step action = some (after, event)) : after.work < pool.work := by
  cases stepped_of_step stepped with
  | reject outside full => cases noAppend
  | accept outside room => cases noAppend
  | post pushed =>
      have counted := countP_replace Producer.isPushed pushed .outside
      simp only [work, ThreadPool.pushed, processing, Producer.isPushed, Bool.toNat_true,
        Bool.toNat_false] at counted ⊢
      omega
  | wait waiting positive =>
      have counted := countP_replace Worker.isProcessing waiting .passed
      simp only [work, pushed, processing, Worker.isProcessing, Bool.toNat_false] at counted ⊢
      omega
  | popEmpty passed empty => exact absurd empty (balanced.workqueue_ne_nil passed)
  | @pop worker request rest passed front =>
      have counted := countP_replace Worker.isProcessing passed (Worker.take request)
      have small := Bool.toNat_le (Worker.isProcessing (Worker.take request))
      simp only [work, pushed, processing, front, List.length_cons]
      simp only [Worker.isProcessing, Bool.toNat_false] at counted small
      omega
  | process processing =>
      have counted := countP_replace Worker.isProcessing processing .waiting
      simp only [work, pushed, ThreadPool.processing, Worker.isProcessing, Bool.toNat_true,
        Bool.toNat_false] at counted ⊢
      omega

/-- While there is a request in the queue, some thread can go on. -/
theorem Balanced.can_step {pool : ThreadPool Request} (balanced : pool.Balanced)
    (manned : pool.workers ≠ []) (nonempty : pool.workqueue ≠ []) :
    ∃ action, action.isAppend = false ∧ pool.step action ≠ none := by
  have worker : ∃ worker, pool.workers[0]? = some worker := by
    cases equal : pool.workers with
    | nil => exact absurd equal manned
    | cons worker rest => exact ⟨worker, rfl⟩
  rcases worker with ⟨worker, found⟩
  cases worker with
  | processing request => exact ⟨.process 0, rfl, by simp [ThreadPool.step, process, found]⟩
  | passed =>
      cases front : pool.workqueue with
      | nil => exact absurd front nonempty
      | cons request rest => exact ⟨.pop 0, rfl, by simp [ThreadPool.step, pop, found, front]⟩
  | waiting =>
      cases value : pool.queuestat with
      | succ value => exact ⟨.wait 0, rfl, by simp [ThreadPool.step, wait, found, value]⟩
      | zero =>
          have length : 0 < pool.workqueue.length := List.length_pos_iff.mpr nonempty
          rw [Balanced, value] at balanced
          by_cases isPushed : 0 < pool.pushed
          · rcases List.countP_pos_iff.mp isPushed with ⟨producer, member, holds⟩
            rcases List.getElem?_of_mem member with ⟨index, producerFound⟩
            cases producer with
            | outside => cases holds
            | pushed => exact ⟨.post index, rfl, by simp [ThreadPool.step, post, producerFound]⟩
          · have isPassed : 0 < pool.passed := by omega
            rcases List.countP_pos_iff.mp isPassed with ⟨other, member, holds⟩
            rcases List.getElem?_of_mem member with ⟨index, otherFound⟩
            cases other with
            | waiting => cases holds
            | processing request => cases holds
            | passed =>
                cases front : pool.workqueue with
                | nil => exact absurd front nonempty
                | cons request rest =>
                    exact ⟨.pop index, rfl, by simp [ThreadPool.step, pop, otherFound, front]⟩

theorem workers_length_step {pool after : ThreadPool Request} {action : Action Request}
    {event : Event Request} (stepped : pool.step action = some (after, event)) :
    after.workers.length = pool.workers.length := by
  cases stepped_of_step stepped with
  | reject outside full => rfl
  | accept outside room => rfl
  | post pushed => rfl
  | wait waiting positive => simp
  | popEmpty passed empty => simp
  | pop passed front => simp
  | process processing => simp

section Runs

variable {maxRequest producers workers : Nat} {actions : List (Action Request)}
  {pool : ThreadPool Request} {log : List (Event Request)}

theorem served_run (ran : runSteps step (initial maxRequest producers workers) actions =
    some (pool, log)) : Served log pool ∧ pool.workers.length = workers := by
  have kept := runSteps_induction
    (fun past pool => Served past pool ∧ pool.workers.length = workers)
    (fun past pool action after event holds stepped =>
      ⟨holds.1.step stepped, (workers_length_step stepped).trans holds.2⟩)
    actions [] (initial maxRequest producers workers) pool log
    ⟨served_initial maxRequest producers workers, List.length_replicate⟩ ran
  rw [List.nil_append] at kept
  exact kept

/-- In every interleaving: the accepted requests are the popped ones, once each and
in the same order, and then those in the queue; what was not accepted is not
popped; no worker that has passed the semaphore finds the queue empty; and the value
of the semaphore is the length of the queue unless a thread is in between. When no
more requests come the threads stop after a bounded number of steps, and at the
end every accepted request has been popped. -/
theorem run_serves (ran : runSteps step (initial maxRequest producers workers) actions =
    some (pool, log)) :
    accepts log = (pops log).map Prod.snd ++ pool.workqueue ∧
      (∀ request, request ∉ accepts log → ∀ worker, (worker, request) ∉ pops log) ∧
      (∀ worker, Event.foundEmpty worker ∉ log) ∧
      (∀ worker : Nat, pool.workers[worker]? = some Worker.passed → pool.workqueue ≠ []) ∧
      ((∀ producer : Nat, pool.producers[producer]? ≠ some Producer.pushed) →
        (∀ worker : Nat, pool.workers[worker]? ≠ some Worker.passed) →
        pool.queuestat = pool.workqueue.length) ∧
      (0 < workers → ∀ more final later, (∀ action ∈ more, action.isAppend = false) →
        runSteps step pool more = some (final, later) → more.length ≤ pool.work ∧
          ((∀ action, action.isAppend = false → final.step action = none) →
            final.workqueue = [] ∧
              accepts (log ++ later) = (pops (log ++ later)).map Prod.snd)) := by
  rcases served_run ran with ⟨served, manned⟩
  refine ⟨served.accepts_eq, ?_, served.neverEmpty,
    fun worker passed => served.balanced.workqueue_ne_nil passed, ?_, ?_⟩
  · intro request unknown worker member
    have inPops : request ∈ (pops log).map Prod.snd := List.mem_map_of_mem member
    rw [served.accepts_eq] at unknown
    exact unknown (List.mem_append_left _ inPops)
  · intro nonePushed nonePassed
    have balanced := served.balanced
    have pushedZero : pool.pushed = 0 := by
      refine List.countP_eq_zero.mpr fun producer member holds => ?_
      rcases List.getElem?_of_mem member with ⟨index, found⟩
      cases producer with
      | outside => cases holds
      | pushed => exact nonePushed index found
    have passedZero : pool.passed = 0 := by
      refine List.countP_eq_zero.mpr fun worker member holds => ?_
      rcases List.getElem?_of_mem member with ⟨index, found⟩
      cases worker with
      | waiting => cases holds
      | processing request => cases holds
      | passed => exact nonePassed index found
    rw [Balanced, pushedZero, passedZero] at balanced
    omega
  · intro positive more final later noAppend ranMore
    have bounded := runSteps_bounded work Balanced (fun action => action.isAppend = false)
      (fun state action after event balanced allowed stepped =>
        ⟨balanced.step stepped, balanced.work_lt allowed stepped⟩)
      more noAppend pool final later served.balanced ranMore
    have kept := runSteps_induction
      (fun past pool => Served past pool ∧ pool.workers.length = workers)
      (fun past pool action after event holds stepped =>
        ⟨holds.1.step stepped, (workers_length_step stepped).trans holds.2⟩)
      more log pool final later ⟨served, manned⟩ ranMore
    refine ⟨by omega, fun stuck => ?_⟩
    have finalManned : final.workers ≠ [] := by
      intro none
      rw [none, List.length_nil] at kept
      omega
    have empty : final.workqueue = [] := by
      by_cases nonempty : final.workqueue = []
      · exact nonempty
      · rcases kept.1.balanced.can_step finalManned nonempty with ⟨action, allowed, canStep⟩
        exact absurd (stuck action allowed) canStep
    have accepted := kept.1.accepts_eq
    rw [empty, List.append_nil] at accepted
    exact ⟨empty, accepted⟩

/-- Two producers and two workers: the second request is pushed and popped before the
first producer posts. -/
theorem run_serves_two :
    ∃ (pool : ThreadPool Nat) (log : List (Event Nat)),
      accepts log = (pops log).map Prod.snd ++ pool.workqueue ∧
        pops log = [(1, some 7)] ∧ pool.workqueue = [none] ∧ pool.queuestat = 0 :=
  ⟨_, _, (run_serves (rfl : runSteps step (initial 3 2 2)
    [.append 0 (some 7), .append 1 none, .post 1, .wait 1, .pop 1] = some _)).1, rfl, rfl, rfl⟩

end Runs

end ThreadPool

end DataStructAlgorithm.HTTPD2
