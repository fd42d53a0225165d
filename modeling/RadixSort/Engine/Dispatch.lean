import RadixSort.Engine.SmallJob
import RadixSort.Engine.RadixStep

/-!
# Tasks of the engine

A range to be sorted becomes a sequential job, or, if it is long enough to keep
several workers busy and has digits left, a partition by several tasks. Executing
a task changes the shared work and may make more tasks. The two kinds of tasks of
a partition name it by number, and the engine keeps the partitions that have not
finished under their numbers.

When a partition finishes, its buckets lie in the shadow side of its range. A
bucket of one element is copied back at once; every larger one is dispatched one
digit deeper, with the sides of its window exchanged.

The threshold is read twice for a long range, once to see that it is long and once to
divide it, and others may finish elements in between. What a task hears of the others
comes from outside.
-/
namespace RadixSort

/-- A unit of work that one worker executes without interruption. -/
inductive EngineTask where
  | small (job : Job)
  | count (step part : Nat)
  | distribute (step part : Nat)
  deriving DecidableEq, Repr

/-- What a task hears of the others while it is executed. -/
structure News where
  /-- Whether a worker is idle, each time the task asks. -/
  idle : Nat → Bool
  /-- How many elements the others finish while a range is dispatched. -/
  settled : Job → Nat := fun _ => 0

/-- Everything the tasks of one sort share. -/
structure Engine (α : Type) (radix : Nat) where
  work : Work α
  /-- Partitions that have not finished, by number. -/
  steps : List (Nat × RadixStep radix)
  /-- The number of the next partition. -/
  nextStep : Nat

namespace Engine

variable {α : Type} {radix : Nat}

/-- The engine at the start of a sort. -/
def fresh (data : Array α) : Engine α radix := ⟨Work.fresh data, [], 0⟩

/-- The partition with a given number. -/
def step (engine : Engine α radix) (number : Nat) : Except Fault (RadixStep radix) :=
  match engine.steps.lookup number with
  | some step => .ok step
  | none => .error (.indexOutOfBounds engine.nextStep number)

/-- Put a partition in the place of the one with its number. -/
def updateStep (engine : Engine α radix) (number : Nat) (step : RadixStep radix) :
    Engine α radix :=
  { engine with
    steps := engine.steps.map fun entry => if entry.1 = number then (number, step) else entry }

/-- Forget a partition that has finished. -/
def removeStep (engine : Engine α radix) (number : Nat) : Engine α radix :=
  { engine with steps := engine.steps.filter fun entry => entry.1 ≠ number }

/-- Whether a range is partitioned by several tasks. -/
def isLong (rules : Rules α radix) (work : Work α) (job : Job) : Bool :=
  rules.settings.parallelStep && decide (job.depth < rules.maxDepth) &&
    decide (work.sequentialThreshold rules.settings work.memory.primary.size < job.window.length)

/-- Make the tasks of a range that is to be sorted. -/
def dispatch (rules : Rules α radix) (settled : Job → Nat) (engine : Engine α radix)
    (job : Job) : Except Fault (Engine α radix × List EngineTask) := do
  if isLong rules engine.work job then
    let reread := engine.work.settledElsewhere job.window.length (settled job)
    let threshold := reread.sequentialThreshold rules.settings engine.work.memory.primary.size
    let step ← RadixStep.start job.window job.depth threshold
    let stats := { engine.work.stats with bigSteps := engine.work.stats.bigSteps + 1 }
    let number := engine.nextStep
    return ({ engine with
        work := { engine.work with stats }
        steps := engine.steps ++ [(number, step)]
        nextStep := number + 1 },
      (List.range step.parts).map (.count number))
  else
    return (engine, [.small job])

/-- Dispatch the buckets of a range whose elements have been scattered. -/
def dispatchBuckets (rules : Rules α radix) (settled : Job → Nat) (window : Window)
    (depth : Nat) : List Bucket → Engine α radix → Except Fault (Engine α radix × List EngineTask)
  | [], engine => .ok (engine, [])
  | bucket :: rest, engine => do
    let part ← window.flip bucket.start bucket.length
    if bucket.length = 1 then
      let work := { engine.work with memory := engine.work.memory.copyBack part }
      dispatchBuckets rules settled window depth rest
        { engine with work := work.settle rules.settings part.settled }
    else
      let (engine, tasks) ← dispatch rules settled engine ⟨part, depth + 1⟩
      let (engine, later) ← dispatchBuckets rules settled window depth rest engine
      return (engine, tasks ++ later)

/-- Execute a sequential job. -/
def performSmall (rules : Rules α radix) (idle : Nat → Bool) (job : Job)
    (engine : Engine α radix) : Except Fault (Engine α radix × List EngineTask) := do
  let stats := { engine.work.stats with smallJobs := engine.work.stats.smallJobs + 1 }
  let (work, donated) ← SmallJob.run rules idle job { engine.work with stats }
  return ({ engine with work }, donated.map .small)

/-- Count one chunk, and after the last one lay out the buckets. -/
def performCount (rules : Rules α radix) (number part : Nat) (engine : Engine α radix) :
    Except Fault (Engine α radix × List EngineTask) := do
  let step ← engine.step number
  let counted ← step.count rules.digits engine.work.memory part
  if counted.left = 0 then
    let laidOut ← counted.layOut
    return (engine.updateStep number laidOut,
      (List.range laidOut.parts).map (.distribute number))
  else
    return (engine.updateStep number counted, [])

/-- Scatter one chunk, and after the last one dispatch the buckets. -/
def performDistribute (rules : Rules α radix) (settled : Job → Nat) (number part : Nat)
    (engine : Engine α radix) : Except Fault (Engine α radix × List EngineTask) := do
  let step ← engine.step number
  let (scattered, memory) ← step.distribute rules.digits engine.work.memory part
  let engine := { engine with work := { engine.work with memory } }
  if scattered.left = 0 then
    let buckets ← scattered.buckets
    dispatchBuckets rules settled step.window step.depth buckets (engine.removeStep number)
  else
    return (engine.updateStep number scattered, [])

/-- Execute a task. The result is the engine afterwards and the tasks it made. -/
def perform (rules : Rules α radix) (news : News) (task : EngineTask)
    (engine : Engine α radix) : Except Fault (Engine α radix × List EngineTask) :=
  match task with
  | .small job => performSmall rules news.idle job engine
  | .count number part => performCount rules number part engine
  | .distribute number part => performDistribute rules news.settled number part engine

end Engine

end RadixSort
