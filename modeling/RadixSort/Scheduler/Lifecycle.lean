import RadixSort.Scheduler.Crew

/-!
# The life of a pool

Whoever owns a pool enqueues tasks and runs it. A run starts the workers, does what it was
asked to do between start and end, closes the pool, waits for all workers to end, and ends
as they did. What it is asked to do is again to enqueue tasks, and to wait until the pool is
drained. A pool that has been closed is never opened again, but it may be run again, and
tasks may still be enqueued.

The owner goes through its commands one by one while the workers act. An execution is a
sequence of turns: at each turn either the owner acts or one of the workers, and a worker
that takes a task takes the one at a place that the turn names. A turn is possible or not;
who sleeps, and who waits for the lock or for others to end, has no turn.
-/
namespace RadixSort

/-- What a run is asked to do between its start and its end. -/
inductive Request (τ : Type) where
  /-- Enqueue a task. -/
  | enqueue (task : τ)
  /-- Wait until the pool is drained. -/
  | drain

/-- What the owner does with a pool. -/
inductive Activity (τ : Type) where
  /-- Enqueue a task while the pool does not run. -/
  | enqueue (task : τ)
  /-- Run the pool. -/
  | run (requests : List (Request τ))

/-- One command of the owner. -/
inductive Command (τ : Type) where
  /-- Enqueue a task. -/
  | enqueue (task : τ)
  /-- Start the workers. -/
  | start
  /-- Wait until the pool is drained. -/
  | drain
  /-- Close the pool. -/
  | close
  /-- Wait for all workers to end, and end as they did. -/
  | join

/-- The command of a request. -/
def Request.command {τ : Type} : Request τ → Command τ
  | .enqueue task => .enqueue task
  | .drain => .drain

/-- The commands of an activity. -/
def Activity.commands {τ : Type} : Activity τ → List (Command τ)
  | .enqueue task => [.enqueue task]
  | .run requests => .start :: (requests.map Request.command ++ [.close, .join])

/-- The requests of a run that drains the pool, and then once more for each of some tasks. -/
def Request.rounds {τ : Type} (tasks : List τ) : List (Request τ) :=
  .drain :: tasks.flatMap fun task => [.enqueue task, .drain]

/-- What the worker at a position makes of the pool at its turn. If it takes a task, it
takes the one at `place`. -/
def Crew.act {τ σ : Type} (execute : Nat → τ → σ → Pool.Effect τ σ) (crew : Crew τ σ)
    (position place : Nat) : Option (Crew τ σ) :=
  match crew.workers[position]? with
  | some .ready => some (crew.become position (if crew.closed then .retired else .searching))
  | some .searching =>
    match crew.queue with
    | [] => if crew.owner.locks then none else some (crew.become position .parked)
    | _ :: _ => crew.queue[place]?.map (crew.takeUp execute position place)
  | some .parked =>
    if crew.queue.isEmpty ∧ crew.closed = false ∨ crew.owner.locks then none
    else some (crew.become position .ready)
  | some (.busy execution left counted) =>
    match left, counted with
    | [], false =>
      match execution.fault with
      | none => some (crew.countOff position execution crew.afterwards)
      | some fault =>
        some { crew.become position (.failing execution fault) with poisoned := true }
    | [], true => none
    | task :: rest, false => some { crew.become position (.busy execution (task :: rest) true) with
        pending := crew.pending + 1 }
    | task :: rest, true =>
      some ((crew.become position (.busy execution rest false)).push task)
  | some (.failing execution fault) =>
    some (crew.countOff position execution (.notifying (some fault)))
  | some (.notifying fault) =>
    if crew.owner.locks then none
    else some { crew.become position (.notified fault) with owner := crew.owner.notified }
  | some .retired => none
  | some (.lost _) => none
  | none => none

/-- Whose turn it is. -/
inductive Turn where
  | owner
  | worker (position place : Nat)
  deriving DecidableEq, Repr

/-- A worker whose turn it is takes the task that has waited longest. -/
def Turn.inOrder : Turn → Bool
  | .owner => true
  | .worker _ place => place == 0

/-- A pool with what its owner has still to do. -/
structure Lifecycle (τ σ : Type) where
  /-- Workers that each run starts. -/
  size : Nat
  crew : Crew τ σ
  /-- Commands that the owner has still to carry out. -/
  todo : List (Command τ)
  /-- The faults that the runs so far ended with, if any. -/
  verdicts : List (Option Fault) := []

namespace Lifecycle

variable {τ σ : Type}

/-- A pool that has just been opened. -/
def fresh (size : Nat) (state : σ) (activities : List (Activity τ)) : Lifecycle τ σ :=
  { size, crew := .opened state, todo := activities.flatMap Activity.commands }

/-- A pool that is run once, for some tasks: the run enqueues them and waits until the pool is
drained. -/
def once (size : Nat) (state : σ) (tasks : List τ) : Lifecycle τ σ :=
  fresh size state [.run (tasks.map .enqueue ++ [.drain])]

/-- What the owner makes of the pool at its turn. A task that has been counted is put into
the queue before anything else, and the command to wait is carried out when the owner goes
on from its wait. -/
def own (life : Lifecycle τ σ) : Option (Lifecycle τ σ) :=
  match life.crew.entering with
  | task :: rest => some { life with crew := { life.crew.push task with entering := rest } }
  | [] =>
    match life.todo with
    | [] => none
    | .enqueue task :: todo => some { life with crew := life.crew.announce task, todo }
    | .start :: todo =>
      if life.crew.workers.all Worker.isDone then
        some { life with
          crew := { life.crew with workers := List.replicate life.size .ready }, todo }
      else none
    | .drain :: todo =>
      if life.crew.owner = .asleep then none
      else some { life with
        crew := { life.crew with owner := life.crew.look }
        todo := if life.crew.look = .away then todo else life.todo }
    | .close :: todo => some { life with crew := { life.crew with closed := true }, todo }
    | .join :: todo =>
      if life.crew.workers.all Worker.isDone then
        some { life with todo, verdicts := life.verdicts ++ [life.crew.verdict?] }
      else none

/-- What a turn makes of the pool, if it is possible. -/
def turn (execute : Nat → τ → σ → Pool.Effect τ σ) (life : Lifecycle τ σ) :
    Turn → Option (Lifecycle τ σ)
  | .owner => life.own
  | .worker position place =>
    (life.crew.act execute position place).map fun crew => { life with crew }

/-- What turns one after the other make of the pool, if they are possible. -/
def play (execute : Nat → τ → σ → Pool.Effect τ σ) :
    List Turn → Lifecycle τ σ → Option (Lifecycle τ σ)
  | [], life => some life
  | turn :: rest, life => (life.turn execute turn).bind (play execute rest)

end Lifecycle

end RadixSort
