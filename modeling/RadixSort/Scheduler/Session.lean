import RadixSort.Scheduler.Pool

/-!
# Sessions of task trees

A task tree says what a task does: it is noted when it starts, enqueues its
children in order, and then ends in a fault or not. A session enqueues trees,
runs the pool while further trees come in one per round, and keeps a log of what
was executed. Tasks are taken in the order in which they were enqueued.

A run ends with the notes its rounds have made, or with the fault of a task. After
either the pool is closed, and later trees only wait.
-/
namespace RadixSort

/-- A task, the tasks it enqueues, and the fault it ends in, if any. -/
inductive TaskTree (ι : Type) where
  | node (id : ι) (children : List (TaskTree ι)) (fault : Option Fault)

namespace TaskTree

variable {ι : Type}

/-- The name under which a task is noted. -/
def id : TaskTree ι → ι
  | .node id _ _ => id

/-- The tasks a task enqueues. -/
def children : TaskTree ι → List (TaskTree ι)
  | .node _ children _ => children

/-- The fault a task ends in. -/
def fault : TaskTree ι → Option Fault
  | .node _ _ fault => fault

mutual

/-- The number of tasks of a tree. -/
def size : TaskTree ι → Nat
  | .node _ children _ => sizeAll children + 1

/-- The number of tasks of a forest. -/
def sizeAll : List (TaskTree ι) → Nat
  | [] => 0
  | tree :: rest => size tree + sizeAll rest

end

/-- Executing a task enqueues its children. Tasks share no state. -/
def execute (_turn : Nat) (task : TaskTree ι) (_state : Unit) :
    Pool.Effect (TaskTree ι) Unit where
  state := ()
  spawned := task.children
  fault := task.fault

end TaskTree

/-- What is noted when a task starts: its name, the number of pending tasks, and
whether a worker is idle. -/
structure LogEntry (ι : Type) where
  id : ι
  pending : Nat
  idle : Bool
  deriving DecidableEq, Repr

/-- What is noted after each round: pending tasks, and tasks executed so far. -/
structure RoundNote where
  pending : Nat
  executed : Nat
  deriving DecidableEq, Repr

/-- What a run reports: the notes of its rounds, and whether a worker became idle
after the last of them, if the run waits for that. -/
structure RunReport where
  notes : List RoundNote
  idle : Option Bool
  deriving DecidableEq, Repr

/-- A pool, and the log of the tasks it has executed. -/
structure Session (ι : Type) where
  pool : Pool (TaskTree ι)
  log : List (LogEntry ι) := []

namespace Session

variable {ι : Type}

/-- A session on a new pool. -/
def opened (workers : Nat) : Except Fault (Session ι) := do
  return { pool := ← Pool.opened workers }

/-- Whether a worker is idle. No worker is before the pool runs or after it is
closed; `busy` workers are executing tasks, and the living others wait. -/
def hasIdleWorker (pool : Pool (TaskTree ι)) (running : Bool) (busy : Nat) : Bool :=
  running && !pool.closed && decide (busy < pool.living)

/-- Execute one task of a tree. -/
def execute (_turn : Nat) (pool : Pool (TaskTree ι)) (task : TaskTree ι)
    (log : List (LogEntry ι)) : Pool.Effect (TaskTree ι) (List (LogEntry ι)) where
  state := log ++ [⟨task.id, pool.pending, hasIdleWorker pool true 1⟩]
  spawned := task.children
  fault := task.fault

/-- Enqueue a tree. -/
def enqueue (session : Session ι) (tree : TaskTree ι) : Session ι :=
  { session with pool := session.pool.enqueue tree }

/-- Enqueue trees before the pool runs, with the number of pending tasks after each. -/
def enqueueEach (session : Session ι) : List (TaskTree ι) → Session ι × List Nat
  | [] => (session, [])
  | tree :: rest =>
    let next := session.enqueue tree
    let (last, counts) := next.enqueueEach rest
    (last, next.pool.pending :: counts)

/-- Run until the pool is drained. A pool that is poisoned or closed executes nothing. -/
def runUntilEmpty (session : Session ι) : Session ι × Option Fault :=
  if session.pool.drained || session.pool.closed then
    (session, none)
  else
    let served := Pool.serve execute (fun _ => 0) (TaskTree.sizeAll session.pool.queue) 0
      session.pool session.log
    ({ pool := served.pool, log := served.state }, served.fault)

/-- The note after a round. -/
def note (session : Session ι) : RoundNote := ⟨session.pool.pending, session.log.length⟩

/-- Enqueue one tree per round and drain the pool each time. -/
def rounds : List (TaskTree ι) → Session ι → Session ι × Option Fault × List RoundNote
  | [], session => (session, none, [])
  | tree :: rest, session =>
    let (drained, fault) := (session.enqueue tree).runUntilEmpty
    let (last, later, notes) := rounds rest drained
    (last, fault.or later, drained.note :: notes)

/-- Run the pool: drain what is queued, then one tree per round, and close it. The
first fault of a task ends the run once the pool is closed; otherwise the run ends
with its report. -/
def run (session : Session ι) (awaitIdle : Bool) (trees : List (TaskTree ι)) :
    Session ι × Except Fault RunReport :=
  let (drained, first) := session.runUntilEmpty
  let (last, later, notes) := rounds trees drained
  let idle := if awaitIdle then some (hasIdleWorker last.pool true 0) else none
  let closed := { last with pool := last.pool.close }
  match first.or later with
  | some fault => (closed, .error fault)
  | none => (closed, .ok ⟨drained.note :: notes, idle⟩)

/-- The names of the tasks executed, in order. -/
def executed (session : Session ι) : List ι := session.log.map LogEntry.id

end Session

end RadixSort
