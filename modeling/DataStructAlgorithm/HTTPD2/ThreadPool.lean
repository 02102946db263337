import DataStructAlgorithm.Foundation.Transition

/-! # The thread pool of `thread_pool.h`

Any number of threads call `append`, and any number of workers are in `run`. The
steps are those between which the threads can be interleaved. `m_stop` is set by
the destructor only, after which there is no pool. -/

namespace DataStructAlgorithm.HTTPD2

open Foundation

/-- A thread that calls `append`: `pushed` is between the push and `post`. -/
inductive Producer
  | outside
  | pushed
  deriving DecidableEq, Repr

/-- A thread in `run`: `passed` is between `wait` and the locked pop. -/
inductive Worker (Request : Type)
  | waiting
  | passed
  | processing (request : Request)
  deriving DecidableEq, Repr

/-- What a worker does with the request it has popped; it skips a null pointer. -/
def Worker.take {Request : Type} : Option Request → Worker Request
  | none => .waiting
  | some request => .processing request

/-- The pool with the threads that use it. A request is a pointer, `none` if null. -/
structure ThreadPool (Request : Type) where
  maxRequest : Nat
  workqueue : List (Option Request)
  queuestat : Nat
  producers : List Producer
  workers : List (Worker Request)

namespace ThreadPool

variable {Request : Type}

/-- The steps of the threads, which are given by their numbers. -/
inductive Action (Request : Type)
  | append (producer : Nat) (request : Option Request)
  | post (producer : Nat)
  | wait (worker : Nat)
  | pop (worker : Nat)
  | process (worker : Nat)

inductive Event (Request : Type)
  | accepted (producer : Nat) (request : Option Request)
  | rejected (producer : Nat) (request : Option Request)
  | posted (producer : Nat)
  | passed (worker : Nat)
  | popped (worker : Nat) (request : Option Request)
  | foundEmpty (worker : Nat)
  | processed (worker : Nat) (request : Request)

/-- The pool after its construction, with a number of threads that use it. -/
def initial (maxRequest producers workers : Nat) : ThreadPool Request where
  maxRequest := maxRequest
  workqueue := []
  queuestat := 0
  producers := List.replicate producers .outside
  workers := List.replicate workers .waiting

/-- The locked part of `append`; a full queue makes it return false. -/
def append (pool : ThreadPool Request) (producer : Nat) (request : Option Request) :
    Option (ThreadPool Request × Event Request) :=
  match pool.producers[producer]? with
  | some .outside =>
      if pool.maxRequest < pool.workqueue.length then some (pool, .rejected producer request)
      else some ({ pool with
        workqueue := pool.workqueue ++ [request]
        producers := pool.producers.set producer .pushed }, .accepted producer request)
  | _ => none

/-- `m_queuestat.post()`, after which `append` returns true. -/
def post (pool : ThreadPool Request) (producer : Nat) :
    Option (ThreadPool Request × Event Request) :=
  match pool.producers[producer]? with
  | some .pushed => some ({ pool with
      queuestat := pool.queuestat + 1
      producers := pool.producers.set producer .outside }, .posted producer)
  | _ => none

/-- `m_queuestat.wait()`, which blocks while the value is zero. -/
def wait (pool : ThreadPool Request) (worker : Nat) :
    Option (ThreadPool Request × Event Request) :=
  match pool.workers[worker]?, pool.queuestat with
  | some .waiting, value + 1 => some ({ pool with
      queuestat := value
      workers := pool.workers.set worker .passed }, .passed worker)
  | _, _ => none

/-- The locked part of `run`. -/
def pop (pool : ThreadPool Request) (worker : Nat) :
    Option (ThreadPool Request × Event Request) :=
  match pool.workers[worker]?, pool.workqueue with
  | some .passed, [] =>
      some ({ pool with workers := pool.workers.set worker .waiting }, .foundEmpty worker)
  | some .passed, request :: rest => some ({ pool with
      workqueue := rest
      workers := pool.workers.set worker (Worker.take request) }, .popped worker request)
  | _, _ => none

/-- The end of `request->process()`. -/
def process (pool : ThreadPool Request) (worker : Nat) :
    Option (ThreadPool Request × Event Request) :=
  match pool.workers[worker]? with
  | some (.processing request) =>
      some ({ pool with workers := pool.workers.set worker .waiting }, .processed worker request)
  | _ => none

def step (pool : ThreadPool Request) : Action Request →
    Option (ThreadPool Request × Event Request)
  | .append producer request => pool.append producer request
  | .post producer => pool.post producer
  | .wait worker => pool.wait worker
  | .pop worker => pool.pop worker
  | .process worker => pool.process worker

end ThreadPool

end DataStructAlgorithm.HTTPD2
