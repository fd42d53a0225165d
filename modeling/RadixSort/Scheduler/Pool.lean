import RadixSort.Fault

/-!
# A pool of workers with one queue

Tasks wait in one queue. A worker takes a task, executes it, and reports that it
has finished; a task may enqueue further tasks while it is executed. The pool
counts the tasks that were enqueued and have not finished, so the count is zero
only when nothing waits and nobody works. A task that ends in a fault counts as
finished, takes its worker with it and poisons the pool: whoever waits for the
pool to drain waits no longer. A pool that has been closed executes nothing more.

The rules of the pool are the small functions on its record. `serve` is the
execution in which one task at a time is taken, executed and finished. Which of
the waiting tasks is taken is a choice that comes from outside, so every order in
which whole tasks can be executed is a sequence of choices.
-/
namespace RadixSort

/-- The queue and the counters of a pool. -/
structure Pool (τ : Type) where
  /-- Workers the pool was opened with. -/
  workers : Nat
  /-- Tasks that wait, in the order in which they were enqueued. -/
  queue : List τ := []
  /-- Tasks enqueued and not finished. -/
  pending : Nat := 0
  /-- Tasks that ended in a fault. -/
  faulted : Nat := 0
  /-- Nothing is executed any more. -/
  closed : Bool := false
  deriving Repr

namespace Pool

variable {τ σ : Type}

/-- A pool that has been opened and given nothing to do. -/
def opened (workers : Nat) : Except Fault (Pool τ) :=
  if workers = 0 then .error .noWorker else .ok { workers }

/-- Add a task at the end of the queue. -/
def enqueue (pool : Pool τ) (task : τ) : Pool τ :=
  { pool with queue := pool.queue ++ [task], pending := pool.pending + 1 }

/-- Add tasks at the end of the queue, in order. -/
def enqueueAll (pool : Pool τ) (tasks : List τ) : Pool τ := tasks.foldl enqueue pool

@[simp] theorem queue_enqueueAll (pool : Pool τ) (tasks : List τ) :
    (pool.enqueueAll tasks).queue = pool.queue ++ tasks := by
  induction tasks generalizing pool with
  | nil => simp [enqueueAll]
  | cons task rest ih =>
    have := ih (pool.enqueue task)
    simp_all [enqueueAll, enqueue]

@[simp] theorem pending_enqueueAll (pool : Pool τ) (tasks : List τ) :
    (pool.enqueueAll tasks).pending = pool.pending + tasks.length := by
  induction tasks generalizing pool with
  | nil => simp [enqueueAll]
  | cons task rest ih =>
    have := ih (pool.enqueue task)
    simp_all [enqueueAll, enqueue]
    omega

/-- Take the task at a position of the queue. It stays pending. -/
def take? (pool : Pool τ) (position : Nat) : Option (τ × Pool τ) :=
  match pool.queue[position]? with
  | some task => some (task, { pool with queue := pool.queue.eraseIdx position })
  | none => none

/-- A task that was taken has finished, with or without a fault. -/
def finish (pool : Pool τ) (failed : Bool) : Pool τ :=
  { pool with
    pending := pool.pending - 1
    faulted := if failed then pool.faulted + 1 else pool.faulted }

/-- A task has ended in a fault. -/
def poisoned (pool : Pool τ) : Bool := decide (0 < pool.faulted)

/-- Workers that no fault has ended. -/
def living (pool : Pool τ) : Nat := pool.workers - pool.faulted

/-- Whether waiting for the pool to drain is over. -/
def drained (pool : Pool τ) : Bool := pool.pending == 0 || pool.poisoned

/-- Let no worker take another task. -/
def close (pool : Pool τ) : Pool τ := { pool with closed := true }

/-- What executing one task does to the state that tasks share, which tasks it
enqueues in order, and the fault it ends in after that, if any. -/
structure Effect (τ σ : Type) where
  state : σ
  spawned : List τ := []
  fault : Option Fault := none

/-- A pool after tasks have been executed, the state they share, and the fault
that ended the execution, if any. -/
structure Served (τ σ : Type) where
  pool : Pool τ
  state : σ
  fault : Option Fault := none

/-- Record a task that was taken as executed. -/
def absorb (pool : Pool τ) (effect : Effect τ σ) : Pool τ :=
  (pool.enqueueAll effect.spawned).finish effect.fault.isSome

/-- Execute up to `allowance` tasks, one at a time, until none waits or one ends in
a fault. `pick` chooses among the waiting tasks at every turn, and `execute` sees
the number of the turn and the pool as it is when the task starts. -/
def serve (execute : Nat → Pool τ → τ → σ → Effect τ σ) (pick : Nat → Nat) :
    (allowance turn : Nat) → Pool τ → σ → Served τ σ
  | 0, _, pool, state => { pool, state }
  | allowance + 1, turn, pool, state =>
    match pool.take? (pick turn % pool.queue.length) with
    | none => { pool, state }
    | some (task, taken) =>
      let effect := execute turn taken task state
      let pool := taken.absorb effect
      match effect.fault with
      | some fault => { pool, state := effect.state, fault }
      | none => serve execute pick allowance (turn + 1) pool effect.state

end Pool

end RadixSort
