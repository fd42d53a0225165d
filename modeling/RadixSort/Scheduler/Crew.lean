import RadixSort.Scheduler.Pool

/-!
# Several workers at one pool

`Pool.serve` executes one task after the other. Here the workers of a pool act at the
same time, and a run is any interleaving of their actions with those of whoever
owns the pool. An action is one access to what they share: looking whether the
pool is closed, taking a task, counting a task that is being enqueued, putting it
into the queue, counting a task off, reporting a fault, notifying the owner. A task
may be taken from any place of the queue, since nothing here depends on its order.

What a task does to the state that tasks share, which tasks it enqueues and which fault
it ends in is settled when it is taken. That it enqueues its tasks one by one, reports
its fault and is counted off are actions of their own.

The owner waits for the pool to drain under a lock. It takes the lock and looks at the
counter, and then for a fault that has been reported. It goes on if the counter is zero
or there is such a fault. Otherwise it gives the lock back and falls asleep, which is one
action. Nothing but a notification wakes it, and then it takes the lock and looks again.
The worker that counts off the last pending task, or one that ended in a fault, takes the
lock, notifies the owner and gives the lock back; so it never does that while the owner
looks. A worker that goes to sleep or wakes up needs the lock as well. A worker sleeps
for a short time and then looks by itself, so nobody has to notify it.

Every task gets a ticket when it is put into the queue. Tickets are distinct, so
what was executed can be told apart even where two tasks are the same.
-/
namespace RadixSort

/-- A task in the queue or taken from it. -/
structure Ticket (τ : Type) where
  number : Nat
  task : τ

/-- A task that has been taken, with the tasks that it enqueues, in order, and the fault
that it ends in after that, if any. -/
structure Execution (τ : Type) extends Ticket τ where
  spawned : List τ
  fault : Option Fault

/-- What a worker is about to do. -/
inductive Worker (τ : Type) where
  /-- Look whether the pool is closed. -/
  | ready
  /-- Take a task, having found the pool open. -/
  | searching
  /-- Sleep until there is a task or the pool is closed. -/
  | parked
  /-- Execute a task, of whose tasks those listed are still to be enqueued. The
  first of them may have been counted already. -/
  | busy (execution : Execution τ) (left : List τ) (counted : Bool)
  /-- Count off a task that has ended in a fault, having reported it. -/
  | failing (execution : Execution τ) (fault : Fault)
  /-- Notify the owner, having counted off a task, and be ended by the fault of that
  task, if it has one. -/
  | notifying (fault : Option Fault)
  /-- Nothing, having found the pool closed. -/
  | retired
  /-- Nothing, ended by a fault. -/
  | lost (fault : Fault)

/-- A worker that will never act again. -/
def Worker.isDone {τ : Type} : Worker τ → Bool
  | .retired => true
  | .lost _ => true
  | _ => false

/-- A worker that sleeps until there is a task. -/
def Worker.isParked {τ : Type} : Worker τ → Bool
  | .parked => true
  | _ => false

/-- What a worker does when it has notified the owner. -/
def Worker.notified {τ : Type} : Option Fault → Worker τ
  | none => .ready
  | some fault => .lost fault

/-- Where the owner is with its wait for the pool to drain. -/
inductive Watch where
  /-- It does not wait. -/
  | away
  /-- Look at the counter. -/
  | reading
  /-- Look for a fault that has been reported, as the counter is not zero. -/
  | doubting
  /-- Fall asleep, as there is no fault either. -/
  | drowsy
  /-- Sleep until notified. -/
  | asleep
  /-- Take the lock again, having been notified. -/
  | woken
  deriving DecidableEq, Repr

/-- The owner has the lock. -/
def Watch.locks : Watch → Bool
  | .reading => true
  | .doubting => true
  | .drowsy => true
  | _ => false

/-- What a notification makes of the owner. -/
def Watch.notified : Watch → Watch
  | .asleep => .woken
  | watch => watch

/-- A pool with the state of each worker and of its owner, and a record of the tickets. -/
structure Crew (τ σ : Type) where
  /-- The state that tasks share. -/
  state : σ
  workers : List (Worker τ)
  queue : List (Ticket τ)
  /-- Tickets given out so far. -/
  issued : Nat
  /-- The counter of tasks enqueued and not finished. -/
  pending : Nat
  /-- A fault has been reported. -/
  poisoned : Bool
  closed : Bool
  owner : Watch
  /-- Tasks that the owner has counted so far, in order. -/
  announced : List τ
  /-- Tasks that the owner has counted and not put into the queue yet. -/
  entering : List τ
  /-- Executed tasks, in the order in which they were taken. -/
  started : List (Execution τ)
  /-- Numbers of the tickets that have been counted off. -/
  ended : List Nat

namespace Crew

variable {τ σ : Type}

/-- A pool that has been opened, before its workers start. -/
def opened (state : σ) : Crew τ σ := ⟨state, [], [], 0, 0, false, false, .away, [], [], [], []⟩

/-- Put a task into the queue under a new ticket. -/
def push (crew : Crew τ σ) (task : τ) : Crew τ σ :=
  { crew with queue := crew.queue ++ [⟨crew.issued, task⟩], issued := crew.issued + 1 }

/-- The owner counts a task that it enqueues. -/
def announce (crew : Crew τ σ) (task : τ) : Crew τ σ :=
  { crew with
    pending := crew.pending + 1
    announced := crew.announced ++ [task]
    entering := crew.entering ++ [task] }

/-- Change what one worker is about to do. -/
def become (crew : Crew τ σ) (position : Nat) (worker : Worker τ) : Crew τ σ :=
  { crew with workers := crew.workers.set position worker }

/-- What is executed if a task is the next to be taken. -/
def execution (execute : Nat → τ → σ → Pool.Effect τ σ) (crew : Crew τ σ) (ticket : Ticket τ) :
    Execution τ :=
  let effect := execute crew.started.length ticket.task crew.state
  { ticket with spawned := effect.spawned, fault := effect.fault }

/-- A worker takes the task at a place of the queue. -/
def takeUp (execute : Nat → τ → σ → Pool.Effect τ σ) (crew : Crew τ σ) (position place : Nat)
    (ticket : Ticket τ) : Crew τ σ :=
  let execution := crew.execution execute ticket
  { crew.become position (.busy execution execution.spawned false) with
    state := (execute crew.started.length ticket.task crew.state).state
    queue := crew.queue.eraseIdx place
    started := crew.started ++ [execution] }

/-- A task is counted off. -/
def countOff (crew : Crew τ σ) (position : Nat) (execution : Execution τ) (worker : Worker τ) :
    Crew τ σ :=
  { crew.become position worker with
    pending := crew.pending - 1, ended := crew.ended ++ [execution.number] }

/-- What a worker does when it has counted off a task that ended without a fault: if that
was the last one, the owner is to be notified. -/
def afterwards (crew : Crew τ σ) : Worker τ :=
  if crew.pending = 1 then .notifying none else .ready

/-- What becomes of the owner when it acts while it waits for the pool to drain. -/
def look (crew : Crew τ σ) : Watch :=
  match crew.owner with
  | .away => .reading
  | .reading => if crew.pending = 0 then .away else .doubting
  | .doubting => if crew.poisoned then .away else .drowsy
  | .drowsy => .asleep
  | .asleep => .asleep
  | .woken => .reading

/-- One action of a worker or of the owner of the pool. -/
inductive Step (execute : Nat → τ → σ → Pool.Effect τ σ) : Crew τ σ → Crew τ σ → Prop where
  /-- The owner starts workers, all at once, when none of an earlier run is left. -/
  | start (crew : Crew τ σ) (count : Nat) (free : crew.owner = .away)
      (idle : ∀ worker ∈ crew.workers, worker.isDone) :
      Step execute crew { crew with workers := List.replicate count .ready }
  /-- The owner counts a task that it enqueues. -/
  | announce (crew : Crew τ σ) (task : τ) (free : crew.owner = .away) :
      Step execute crew (crew.announce task)
  /-- The owner puts a counted task into the queue. -/
  | submit (crew : Crew τ σ) (task : τ) (rest : List τ) (free : crew.owner = .away)
      (counted : crew.entering = task :: rest) :
      Step execute crew { crew.push task with entering := rest }
  /-- The owner closes the pool. -/
  | close (crew : Crew τ σ) (free : crew.owner = .away) :
      Step execute crew { crew with closed := true }
  /-- The owner acts while it waits for the pool to drain, or begins to wait. -/
  | look (crew : Crew τ σ) (awake : crew.owner ≠ .asleep) :
      Step execute crew { crew with owner := crew.look }
  /-- A worker finds the pool open. -/
  | findOpen (crew : Crew τ σ) (position : Nat) (here : crew.workers[position]? = some .ready)
      (isOpen : crew.closed = false) : Step execute crew (crew.become position .searching)
  /-- A worker finds the pool closed. -/
  | findClosed (crew : Crew τ σ) (position : Nat) (here : crew.workers[position]? = some .ready)
      (isClosed : crew.closed = true) : Step execute crew (crew.become position .retired)
  /-- A worker takes a task, which is executed from now on. -/
  | take (crew : Crew τ σ) (position place : Nat) (ticket : Ticket τ)
      (here : crew.workers[position]? = some .searching)
      (queued : crew.queue[place]? = some ticket) :
      Step execute crew (crew.takeUp execute position place ticket)
  /-- A worker finds no task and goes to sleep. -/
  | park (crew : Crew τ σ) (position : Nat) (here : crew.workers[position]? = some .searching)
      (none : crew.queue = []) (unlocked : crew.owner.locks = false) :
      Step execute crew (crew.become position .parked)
  /-- A sleeping worker wakes up. -/
  | wake (crew : Crew τ σ) (position : Nat) (here : crew.workers[position]? = some .parked)
      (reason : crew.queue ≠ [] ∨ crew.closed = true) (unlocked : crew.owner.locks = false) :
      Step execute crew (crew.become position .ready)
  /-- A task counts the next task that it enqueues. -/
  | count (crew : Crew τ σ) (position : Nat) (execution : Execution τ) (left : List τ)
      (here : crew.workers[position]? = some (.busy execution left false)) (more : left ≠ []) :
      Step execute crew { crew.become position (.busy execution left true) with
        pending := crew.pending + 1 }
  /-- A task puts a counted task into the queue. -/
  | spawn (crew : Crew τ σ) (position : Nat) (execution : Execution τ) (task : τ) (left : List τ)
      (here : crew.workers[position]? = some (.busy execution (task :: left) true)) :
      Step execute crew ((crew.become position (.busy execution left false)).push task)
  /-- A task that ends without a fault is counted off. -/
  | finish (crew : Crew τ σ) (position : Nat) (execution : Execution τ)
      (here : crew.workers[position]? = some (.busy execution [] false))
      (clean : execution.fault = none) :
      Step execute crew (crew.countOff position execution crew.afterwards)
  /-- A task that ends in a fault reports it. -/
  | report (crew : Crew τ σ) (position : Nat) (execution : Execution τ) (fault : Fault)
      (here : crew.workers[position]? = some (.busy execution [] false))
      (faulty : execution.fault = some fault) :
      Step execute crew { crew.become position (.failing execution fault) with poisoned := true }
  /-- A task whose fault was reported is counted off, whether or not it is the last one. -/
  | fail (crew : Crew τ σ) (position : Nat) (execution : Execution τ) (fault : Fault)
      (here : crew.workers[position]? = some (.failing execution fault)) :
      Step execute crew (crew.countOff position execution (.notifying (some fault)))
  /-- A worker notifies the owner. If a fault has brought it here, the worker is gone. -/
  | notify (crew : Crew τ σ) (position : Nat) (fault : Option Fault)
      (here : crew.workers[position]? = some (.notifying fault))
      (unlocked : crew.owner.locks = false) :
      Step execute crew { crew.become position (.notified fault) with
        owner := crew.owner.notified }

/-- Any number of actions, interleaved in any way. -/
inductive Run (execute : Nat → τ → σ → Pool.Effect τ σ) : Crew τ σ → Crew τ σ → Prop where
  | done (crew : Crew τ σ) : Run execute crew crew
  | step {crew next last : Crew τ σ} (first : Run execute crew next)
      (action : Step execute next last) : Run execute crew last

/-- What can come about from a pool that has just been opened. -/
def Reachable (execute : Nat → τ → σ → Pool.Effect τ σ) (state : σ) (crew : Crew τ σ) : Prop :=
  Run execute (opened state) crew

/-- Whoever waits for the pool to drain may go on. -/
def mayReturn (crew : Crew τ σ) : Bool := crew.pending == 0 || crew.poisoned

/-- Some worker waits for a task. Whoever asks may act on the answer when it is no longer
so. -/
def hasIdleWorker (crew : Crew τ σ) : Bool := crew.workers.any Worker.isParked

/-- How a run of the pool ends once every worker is done: with the fault of the
first worker that one has ended, if any. -/
def verdict? (crew : Crew τ σ) : Option Fault :=
  crew.workers.findSome? fun
    | .lost fault => some fault
    | _ => none

end Crew

end RadixSort
