import RadixSort.Comparison
import RadixSort.Resources
import RadixSort.Engine.Dispatch
import RadixSort.Scheduler.Lifecycle
import RadixSort.Key.Integer

/-!
# Sorting from the most significant digit

A call checks its settings, reserves the scratch array, starts the workers, and
lets them execute the tasks of the whole range until none is left. It is refused
without a change of the data if a setting is zero, the reservation fails or a
worker cannot be started, in this order; a sequence of at most one element needs
only the check of the settings.

Which waiting task is executed next, and what a task hears of the others, belong to the
schedule. The outcome of `sort` is a function of the schedule, and the schedule of one worker
takes the tasks in order and reports nobody idle.

`sortByTurns?` is the same call with all its workers and their owner: the run of a pool, whose
owner makes the tasks of the whole range, waits until the pool is drained, closes it, waits
for all workers to end, and ends as the first of them did that a fault has ended. Others go
on when a fault has ended one, and nobody asks whether a task is left. What a turn does is
settled by whose it is, so a list of turns says all about an execution.

A task is one step of an execution, and it is executed when it is taken. The order in which
the element moves of two tasks reach memory is not part of it: two tasks that wait at once own
disjoint cells, or differ only in the counts that they add to, and `Engine.StepProtocol` has
the executions in which such tasks advance by turns. A task that ends in a fault leaves
nothing. So it is where an element that refuses to be read does so at every depth: such an
element is met when the whole range is counted, before anything else is done, or never.
-/
namespace RadixSort

/-- The choices that belong to nobody in particular: which of the waiting tasks
is executed at each turn, and what the task of that turn hears of the others. -/
structure Schedule where
  pick : Nat → Nat
  news : Nat → News

/-- One worker: tasks in the order of the queue, and nobody is ever idle. -/
def Schedule.inOrder : Schedule := ⟨fun _ => 0, fun _ => { idle := fun _ => false }⟩

namespace Msd

variable {α : Type} {radix : Nat}

/-- Execute one task of the engine, which hears some news of the others. A task that ends in a
fault leaves nothing. -/
def carryOut (rules : Rules α radix) (news : News) (task : EngineTask) (engine : Engine α radix) :
    Pool.Effect EngineTask (Engine α radix) :=
  match engine.perform rules news task with
  | .ok (engine, spawned) => { state := engine, spawned }
  | .error fault => { state := engine, fault }

/-- Execute one task of the engine at a turn. -/
def execute (rules : Rules α radix) (schedule : Schedule) (turn : Nat) (_pool : Pool EngineTask)
    (task : EngineTask) (engine : Engine α radix) : Pool.Effect EngineTask (Engine α radix) :=
  carryOut rules (schedule.news turn) task engine

/-- How many tasks a sort of `length` elements may execute. At every depth the
ranges are disjoint, and a range makes at most two tasks for each of its elements. -/
def allowance (length maxDepth : Nat) : Nat := 2 * length * (maxDepth + 1)

/-- The pool, the engine and the fault, if any, after up to `count` tasks of a sort
have been executed. -/
def serveTasks (rules : Rules α radix) (schedule : Schedule) (count : Nat) (data : Array α) :
    Except Fault (Pool.Served EngineTask (Engine α radix)) := do
  let pool : Pool EngineTask ← Pool.opened rules.settings.threads
  let (engine, tasks) ← (Engine.fresh data).dispatch rules (fun _ => 0) ⟨Window.whole data.size, 0⟩
  return Pool.serve (execute rules schedule) schedule.pick count 0 (pool.enqueueAll tasks) engine

/-- What a sort returns whose run has ended without a fault. -/
def returned (rules : Rules α radix) (work : Work α) : Except Fault (Array α × Stats) :=
  if rules.settings.trackRemaining ∧ work.rest ≠ 0 then throw .elementsLeft
  else return (work.memory.primary, work.stats)

/-- Sort at least two elements with workers that have been started. -/
def sortStarted (rules : Rules α radix) (schedule : Schedule) (data : Array α) :
    Except Fault (Array α × Stats) := do
  let served ← serveTasks rules schedule (allowance data.size rules.maxDepth) data
  match served.fault with
  | some fault => throw fault
  | none =>
    if served.pool.pending ≠ 0 then throw .elementsLeft
    else returned rules served.state.work

/-- How a call ends that does not get as far as its elements. -/
def early? (settings : Settings) (resources : Resources) (data : Array α) :
    Option (Outcome α Stats) :=
  match settings.refusal? with
  | some error => some (.refused error data)
  | none =>
    if data.size ≤ 1 then some (.sorted data {})
    else if !resources.grants .shadow then some (.refused (.allocation data.size) data)
    else resources.spawnFailure?.map fun text => .refused (.threadSpawn text) data

/-- Sort by digits from the most significant end, with a fallback for short ranges. -/
def sort (rules : Rules α radix) (resources : Resources) (schedule : Schedule)
    (data : Array α) : Outcome α Stats :=
  match early? rules.settings resources data with
  | some outcome => outcome
  | none => .ofStarted (sortStarted rules schedule data)

/-- The pool of a sort, which is run once for the tasks of the whole range. -/
def manned (rules : Rules α radix) (data : Array α) :
    Except Fault (Lifecycle EngineTask (Engine α radix)) := do
  let _ : Pool EngineTask ← Pool.opened rules.settings.threads
  let (engine, tasks) ← (Engine.fresh data).dispatch rules (fun _ => 0) ⟨Window.whole data.size, 0⟩
  return .once rules.settings.threads engine tasks

/-- What some turns make of the pool of a sort, if they are possible. The tasks hear the news
in the order in which they are taken. -/
def playTurns (rules : Rules α radix) (news : Nat → News) (turns : List Turn)
    (life : Lifecycle EngineTask (Engine α radix)) :
    Option (Lifecycle EngineTask (Engine α radix)) :=
  life.play (fun turn => carryOut rules (news turn)) turns

/-- Sort at least two elements by turns of the workers and of their owner. There is no result
unless the turns are possible and bring the run to its end. -/
def startedByTurns? (rules : Rules α radix) (news : Nat → News) (turns : List Turn)
    (data : Array α) : Option (Except Fault (Array α × Stats)) :=
  match manned rules data with
  | .error fault => some (throw fault)
  | .ok life => do
    let ended ← playTurns rules news turns life
    match ← ended.verdicts.head? with
    | some fault => some (throw fault)
    | none => some (returned rules ended.crew.state.work)

/-- Sort by turns of the workers and of their owner. -/
def sortByTurns? (rules : Rules α radix) (resources : Resources) (news : Nat → News)
    (turns : List Turn) (data : Array α) : Option (Outcome α Stats) :=
  match early? rules.settings resources data with
  | some outcome => some outcome
  | none => (startedByTurns? rules news turns data).map .ofStarted

/-- The digits of keys, from the most significant end. -/
def keyDigits {V : Type} (format : KeyFormat V) (width : DigitWidth) :
    DigitRule V width.radix :=
  .ofChecked fun value depth => format.msdDigit width value depth

/-- The rules for sorting values by their keys: all digits of the key are used,
and short ranges are finished by the order of the values. -/
def keyRules {V : Type} (format : KeyFormat V) (width : DigitWidth)
    (compare : V → V → Ordering) (settings : Settings) : Rules V width.radix where
  settings := settings
  digits := keyDigits format width
  fallback := Comparison.sort { compare }
  maxDepth := format.msdDepth width

/-- The numeric order of a primitive integer type. -/
def numeric (type : IntType) (x y : type.Value) : Ordering :=
  Ord.compare (type.toInt x) (type.toInt y)

/-- Sort primitive integers. -/
def sortIntegers (type : IntType) (width : DigitWidth) (settings : Settings)
    (resources : Resources) (schedule : Schedule) (data : Array type.Value) :
    Outcome type.Value Stats :=
  sort (keyRules type.format width (numeric type) settings) resources schedule data

end Msd

end RadixSort
