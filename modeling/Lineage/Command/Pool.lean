/-! # Worker pools

Workers take jobs from one queue, work on them and send back each result with the number of its job.
A `Pool` is the state of such a run; a schedule says, turn by turn, which worker moves next and
which of the queued jobs it gets, so no order of delivery is taken for granted. The pool also logs
which jobs were worked on, in that order. -/

namespace Lineage.Command

/-- What a worker is at. -/
inductive Worker (α β : Type) where
  /-- It will look into the queue next. -/
  | idle
  /-- It has taken a job. -/
  | busy (index : Nat) (job : α)
  /-- It has a result to send. -/
  | done (index : Nat) (result : β)
  /-- It found the queue empty. -/
  | ended
deriving Repr

/-- A turn of a schedule. -/
structure Turn where
  /-- The worker that moves. -/
  worker : Nat
  /-- The place in the queue of the job that it gets, if it looks for one. -/
  place : Nat
deriving DecidableEq, Repr

structure Pool (α β : Type) where
  queue : List (Nat × α)
  workers : List (Worker α β)
  /-- The results sent so far, in that order. -/
  sent : List (Nat × β)
  /-- The numbers of the jobs worked on so far, in that order. -/
  worked : List Nat
deriving Repr

namespace Pool

variable {α β : Type}

/-- Jobs with their numbers. -/
def numbered : Nat → List α → List (Nat × α)
  | _, [] => []
  | index, job :: rest => (index, job) :: numbered (index + 1) rest

/-- All jobs in the queue, and no worker has moved. -/
def start (jobs : List α) (workers : Nat) : Pool α β :=
  { queue := numbered 0 jobs, workers := List.replicate workers .idle, sent := [], worked := [] }

/-- One move of a worker: it takes a job, works on it, or sends its result. Nothing happens where
    the queue is shorter than the turn has it. -/
def step (work : α → β) (pool : Pool α β) (turn : Turn) : Pool α β :=
  match pool.workers[turn.worker]? with
  | none | some .ended => pool
  | some .idle =>
    match pool.queue[turn.place]? with
    | none =>
      if pool.queue.isEmpty then { pool with workers := pool.workers.set turn.worker .ended }
      else pool
    | some (index, job) =>
      { pool with
        queue := pool.queue.eraseIdx turn.place
        workers := pool.workers.set turn.worker (.busy index job) }
  | some (.busy index job) =>
    { pool with
      workers := pool.workers.set turn.worker (.done index (work job))
      worked := pool.worked ++ [index] }
  | some (.done index result) =>
    { pool with
      workers := pool.workers.set turn.worker .idle
      sent := pool.sent ++ [(index, result)] }

/-- The moves of a schedule, one after the other. -/
def run (work : α → β) (pool : Pool α β) (schedule : List Turn) : Pool α β :=
  schedule.foldl (step work) pool

/-- All workers have ended. -/
def isOver (pool : Pool α β) : Bool :=
  pool.workers.all fun worker =>
    match worker with
    | .ended => true
    | _ => false

/-- Every job with the result sent last for it, or with what `missing` says if none was sent. -/
def collect (missing : α → β) (jobs : List α) (sent : List (Nat × β)) : List (α × β) :=
  (numbered 0 jobs).map fun (index, job) =>
    (job, (sent.reverse.lookup index).getD (missing job))

end Pool

/-- The results for all jobs, in their order, from one worker that takes the first job of the queue
    each time until the queue is empty: three moves a job, and one to end. -/
def workAll {α β : Type} (work missing : α → β) (jobs : List α) : List (α × β) :=
  let schedule := List.replicate (3 * jobs.length + 1) ⟨0, 0⟩
  Pool.collect missing jobs ((Pool.start jobs 1).run work schedule).sent

end Lineage.Command
