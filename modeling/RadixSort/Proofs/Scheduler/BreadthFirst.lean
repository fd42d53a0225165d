import RadixSort.Proofs.Scheduler.Lifecycle
import RadixSort.Proofs.Scheduler.Log

/-!
# One worker is a breadth-first executor

Tickets are numbered as tasks are put into the queue, so tasks are executed first in, first
out if those that were taken, followed by those that wait, have their numbers in order. One
worker that takes the task that has waited longest keeps it so, and executes each round in
level order before any task of the next. While it executes a task, the counter tells how many
tasks have been enqueued and not been taken, and one more. The owner waits for the pool to be
drained in each round, and goes on when all tasks of all trees so far have been executed.
-/
namespace RadixSort

variable {ι : Type}

open TaskTree

namespace Crew

section

variable {τ σ : Type} {execute : Nat → τ → σ → Pool.Effect τ σ} {crew next : Crew τ σ}

/-- The tasks that were taken, and behind them those that wait, stand in the order in which
they were put into the queue. -/
def InLine (crew : Crew τ σ) : Prop :=
  crew.numbers ++ crew.queue.map Ticket.number = List.range crew.issued

/-- A task is put into the queue behind all others. -/
theorem InLine.push (inLine : crew.InLine) (task : τ) : (crew.push task).InLine := by
  have waits : (crew.push task).queue.map Ticket.number =
      crew.queue.map Ticket.number ++ [crew.issued] := List.map_append
  change crew.numbers ++ (crew.push task).queue.map Ticket.number = List.range (crew.issued + 1)
  rw [waits, ← List.append_assoc, inLine, List.range_succ]

/-- A worker that takes no task out of order keeps the tasks in line. -/
theorem InLine.act (inLine : crew.InLine) {position : Nat}
    (acted : crew.act execute position 0 = some next) : next.InLine := by
  refine act_cases (motive := InLine) acted ?findOpen ?findClosed ?take ?park ?wake ?count ?spawn
    ?finish ?report ?fail ?notify
  case findOpen => exact fun _ _ => inLine
  case findClosed => exact fun _ _ => inLine
  case take =>
    intro ticket _ waits
    rw [← List.head?_eq_getElem?] at waits
    obtain ⟨left, queue⟩ := List.head?_eq_some_iff.mp waits
    change (crew.started ++ [crew.execution execute ticket]).map _ ++
      (crew.queue.eraseIdx 0).map Ticket.number = List.range crew.issued
    rw [← inLine, queue, List.map_append, List.append_assoc]
    rfl
  case park => exact fun _ _ _ => inLine
  case wake => exact fun _ _ _ => inLine
  case count => exact fun _ _ _ _ => inLine
  case spawn => exact fun _ task _ _ => InLine.push inLine task
  case finish => exact fun _ _ _ => inLine
  case report => exact fun _ _ _ _ => inLine
  case fail => exact fun _ _ _ => inLine
  case notify => exact fun _ _ _ => inLine

/-- While one task is executed, the counter is the number of tasks that have been enqueued and
not been taken, and one more. -/
theorem Sound.pending_of_one (sound : crew.Sound) (one : crew.executing.length = 1) :
    crew.pending + crew.started.length = 1 + crew.enqueued := by
  have pending := sound.pending_eq
  have taken := sound.executed.length_eq
  rw [numbers, List.length_append, List.length_map, List.length_map] at taken
  omega

end

/-- A worker is ended by a fault only if some task of the order ends in one. -/
theorem Halted.faulty {crew : Crew (TaskTree ι) Unit} {order : List (TaskTree ι)} {fault : Fault}
    (halted : Halted order crew fault) : ¬∀ task ∈ order, task.fault = none := by
  intro clean
  have first := halted.first
  rw [List.findSome?_eq_none_iff.mpr clean] at first
  cases first

end Crew

/-- The command to wait until the pool is drained. -/
def Command.drains {τ : Type} : Command τ → Bool
  | .drain => true
  | _ => false

/-- The command to wait for the workers to end. -/
def Command.joins {τ : Type} : Command τ → Bool
  | .join => true
  | _ => false

/-- A run that has been started has its end before it. -/
theorem Script.join_mem {τ : Type} {period : Period} {todo : List (Command τ)}
    (script : Script period todo) (started : period ≠ .between) : .join ∈ todo := by
  induction script with
  | done => exact absurd rfl started
  | enqueue _ _ => exact absurd rfl started
  | start _ _ => exact absurd rfl started
  | request _ ih => exact List.mem_cons_of_mem _ (ih started)
  | drain _ ih => exact List.mem_cons_of_mem _ (ih started)
  | close _ ih => exact List.mem_cons_of_mem _ (ih nofun)
  | join _ _ => exact List.mem_cons_self

namespace Lifecycle

open Crew

section

variable {τ σ : Type} {execute : Nat → τ → σ → Pool.Effect τ σ} {life next first : Lifecycle τ σ}

/-- A turn at which the only worker takes no task out of order keeps the tasks in line. -/
theorem inLine_of_turn {turn : Turn} (inOrder : turn.inOrder = true) (inLine : life.crew.InLine)
    (turned : life.turn execute turn = some next) : next.crew.InLine := by
  cases turn with
  | worker position place =>
    obtain ⟨crew, acted, rfl⟩ := Option.map_eq_some_iff.mp turned
    rw [beq_iff_eq.mp inOrder] at acted
    exact inLine.act acted
  | owner =>
    refine own_cases (motive := fun next => next.crew.InLine) turned ?submit ?enqueue ?start ?look
      ?leave ?close ?join
    case submit => exact fun task _ _ => InLine.push inLine task
    case enqueue => exact fun _ _ _ _ => inLine
    case start => exact fun _ _ _ _ => inLine
    case look => exact fun _ _ _ _ _ => inLine
    case leave => exact fun _ _ _ _ _ => inLine
    case close => exact fun _ _ _ => inLine
    case join => exact fun _ _ _ _ => inLine

/-- The commands that are left are the last of those there were, and every verdict is that of
an end that is no longer ahead. -/
def Remains (first life : Lifecycle τ σ) : Prop :=
  life.todo <:+ first.todo ∧ life.verdicts.length + life.todo.countP Command.joins =
    first.verdicts.length + first.todo.countP Command.joins

/-- A turn uses up at most the first of the commands that are left. -/
theorem Remains.turn {turn : Turn} (remains : Remains first life)
    (turned : life.turn execute turn = some next) : Remains first next := by
  obtain ⟨suffix, count⟩ := remains
  have passes {command : Command τ} {todo : List (Command τ)} {verdicts : List (Option Fault)}
      {crew : Crew τ σ} (same : life.todo = command :: todo)
      (verdict : verdicts.length = life.verdicts.length + if command.joins then 1 else 0) :
      Remains first { life with crew, todo, verdicts } := by
    rw [same] at suffix count
    rw [List.countP_cons] at count
    refine ⟨(List.suffix_cons command todo).trans suffix, ?_⟩
    change verdicts.length + todo.countP Command.joins = _
    omega
  cases turn with
  | worker position place =>
    obtain ⟨crew, -, rfl⟩ := Option.map_eq_some_iff.mp turned
    exact ⟨suffix, count⟩
  | owner =>
    refine own_cases (motive := Remains first) turned ?submit ?enqueue ?start ?look ?leave ?close
      ?join
    case submit => exact fun _ _ _ => ⟨suffix, count⟩
    case enqueue => exact fun _ _ _ same => passes same rfl
    case start => exact fun _ _ same _ => passes same rfl
    case look => exact fun _ _ _ _ _ => ⟨suffix, count⟩
    case leave => exact fun _ _ same _ _ => passes same rfl
    case close => exact fun _ _ same => passes same rfl
    case join => exact fun _ _ same _ => passes same List.length_append

/-- Turns use up the commands from the first one on. -/
theorem remains_of_play {turns : List Turn} (played : play execute turns first = some life) :
    Remains first life :=
  play_induction (fun _ => True) (motive := Remains first)
    (fun _ _ _ _ remains turned => remains.turn turned) (fun _ _ => trivial)
    ⟨List.suffix_refl _, rfl⟩ played

/-- While the owner waits for the pool to be drained, the end of the run is ahead. -/
theorem Lives.join_ahead (lives : life.Lives) {todo : List (Command τ)}
    (first : life.todo = .drain :: todo) : .join ∈ life.todo := by
  obtain ⟨period, script, -⟩ := lives
  rw [first] at script ⊢
  cases script with
  | drain later => exact (Script.drain later).join_mem nofun

/-- The owner goes on from a wait only if it has put all it has counted into the queue, and has
found nothing pending or a fault reported. -/
theorem leaves_exact {todo : List (Command τ)} (first : life.todo = .drain :: todo)
    (owned : life.own = some next) (leaves : next.todo = todo) :
    life.crew.entering = [] ∧ life.crew.look = .away ∧
      next = { life with crew := { life.crew with owner := .away }, todo } := by
  have longer : life.todo ≠ todo := by
    rw [first]
    exact (List.cons_ne_self _ _)
  revert leaves
  refine own_cases (motive := fun next => next.todo = todo → life.crew.entering = [] ∧
    life.crew.look = .away ∧ next = { life with crew := { life.crew with owner := .away }, todo })
    owned ?submit ?enqueue ?start ?look ?leave ?close ?join
  case submit => exact fun _ _ _ same => absurd same longer
  case enqueue => exact fun _ _ _ other => by cases first.symm.trans other
  case start => exact fun _ _ other _ => by cases first.symm.trans other
  case look => exact fun _ _ _ _ _ same => absurd same longer
  case leave =>
    rintro other entered same awake away rfl
    exact ⟨entered, away, rfl⟩
  case close => exact fun _ _ other => by cases first.symm.trans other
  case join => exact fun _ _ other _ => by cases first.symm.trans other

end

variable {life next first : Lifecycle (TaskTree ι) Unit} {before rounds : List (TaskTree ι)}
  {later : List (Command (TaskTree ι))}

/-- Each round enqueues its tree, waits once, and does not end the run. -/
theorem roundCommands_exact (trees : List (TaskTree ι)) :
    (roundCommands trees).filterMap Command.task? = trees ∧
      (roundCommands trees).countP Command.drains = trees.length ∧
      (roundCommands trees).countP Command.joins = 0 := by
  induction trees with
  | nil => exact ⟨rfl, rfl, rfl⟩
  | cons tree rest ih =>
    obtain ⟨trees, drains, joins⟩ := ih
    have split : roundCommands (tree :: rest) = .enqueue tree :: .drain :: roundCommands rest := rfl
    rw [split]
    refine ⟨congrArg (tree :: ·) trees, ?_, ?_⟩
    · rw [List.countP_cons, List.countP_cons, drains]
      rfl
    · rw [List.countP_cons, List.countP_cons, joins]
      rfl

/-- The commands of a run in rounds enqueue all its trees, wait once more than there are
rounds, and end one run. -/
theorem commands_exact (before rounds : List (TaskTree ι)) :
    let commands := before.map Command.enqueue ++ .start :: .drain ::
      (roundCommands rounds ++ [.close, .join])
    commands.filterMap Command.task? = before ++ rounds ∧
      commands.countP Command.drains = rounds.length + 1 ∧
      commands.countP Command.joins = 1 := by
  obtain ⟨trees, drains, joins⟩ := roundCommands_exact rounds
  induction before with
  | nil =>
    refine ⟨?_, ?_, ?_⟩
    · change (roundCommands rounds ++ [Command.close, Command.join]).filterMap Command.task? = _
      rw [List.filterMap_append, trees]
      exact List.append_nil rounds
    · change (Command.start :: .drain :: (roundCommands rounds ++ [.close, .join])).countP _ = _
      rw [List.countP_cons, List.countP_cons, List.countP_append, drains]
      rfl
    · change (Command.start :: .drain :: (roundCommands rounds ++ [.close, .join])).countP _ = _
      rw [List.countP_cons, List.countP_cons, List.countP_append, joins]
      rfl
  | cons tree rest ih =>
    obtain ⟨trees, drains, joins⟩ := ih
    intro commands
    have split : commands = .enqueue tree :: (rest.map Command.enqueue ++ .start :: .drain ::
      (roundCommands rounds ++ [.close, .join])) := rfl
    rw [split, List.countP_cons, List.countP_cons, drains, joins]
    exact ⟨congrArg (tree :: ·) trees, rfl, rfl⟩

/-- The order has every task of every tree once. -/
theorem length_order (before rounds : List (TaskTree ι)) :
    (order before rounds).length = sizeAll (before ++ rounds) := by
  have families : (rounds.flatMap family).length = sizeAll rounds := by
    rw [← (levelOrder_perm rounds).length_eq, length_levelOrder]
  rw [order, List.length_append, length_levelOrder, families, sizeAll_append]

/-- What has been executed comes first in the order, if no task of it ends in a fault. -/
theorem Ordered.started_prefix (ordered : Ordered before rounds later life)
    (clean : ∀ task ∈ order before rounds, task.fault = none) :
    life.crew.started.map (fun execution => execution.task) <+: order before rounds := by
  cases ordered with
  | waiting _ _ _ _ none _ _ _ =>
    rw [none]
    exact List.nil_prefix
  | draining _ _ _ serves _ => exact ⟨_, serves.order⟩
  | drained _ _ _ serves _ _ _ _ => exact ⟨_, serves.order⟩
  | stopping _ _ serves _ _ _ _ => exact ⟨_, serves.order⟩
  | halted fault _ halted => exact (halted.faulty clean).elim
  | past _ _ _ executed _ =>
    exact ⟨[], by rw [List.append_nil, executed, upToFault_of_clean clean]⟩

/-- While a task is executed, its worker is the only one and the owner waits. -/
theorem Ordered.busy (ordered : Ordered before rounds later life) (lives : life.Lives)
    (clean : ∀ task ∈ order before rounds, task.fault = none)
    {execution : Execution (TaskTree ι)} {left : List (TaskTree ι)} {counted : Bool}
    (busy : .busy execution left counted ∈ life.crew.workers) :
    life.crew.workers = [.busy execution left counted] ∧ life.crew.entering = [] := by
  have alone {order rest : List (TaskTree ι)} {worker : Worker (TaskTree ι)}
      (serves : Serves order rest life.crew worker) :
      life.crew.workers = [.busy execution left counted] ∧ life.crew.entering = [] := by
    have same := serves.workers
    rw [same] at busy
    obtain rfl := List.mem_singleton.mp busy
    refine ⟨same, ?_⟩
    by_contra some
    cases (serves.apart some).2.2
  cases ordered with
  | waiting _ _ _ unmanned _ _ _ _ =>
    rw [unmanned] at busy
    cases busy
  | draining _ _ _ serves _ => exact alone serves
  | drained _ _ _ serves _ _ _ _ => exact alone serves
  | stopping _ _ serves _ _ _ _ => exact alone serves
  | halted fault _ halted => exact (halted.faulty clean).elim
  | past _ _ past _ _ =>
    rcases (lives.past past).2.2 _ busy with ready | done
    · cases ready
    · cases done

/-- The owner waits only for the pool to be drained of the trees it has enqueued, and the
worker has gone through them when the owner goes on. -/
theorem Ordered.drain (ordered : Ordered before rounds later life) (sound : life.crew.Sound)
    (running : life.verdicts = []) (clean : ∀ task ∈ order before rounds, task.fault = none)
    {todo : List (Command (TaskTree ι))} (first : life.todo = .drain :: todo)
    (entered : life.crew.entering = []) (away : life.crew.look = .away) :
    life.crew.pending = 0 ∧ ∃ left,
      life.todo = .drain :: (roundCommands left ++ .close :: .join :: later) ∧
      life.crew.started.map (fun execution => execution.task) ++ left.flatMap family =
        order before rounds := by
  cases ordered with
  | waiting left _ _ _ _ _ _ todo =>
    rw [first] at todo
    cases left <;> cases todo
  | draining left worker _ serves todo =>
    have pending : life.crew.pending = 0 := by
      rcases look_eq_away.mp away with ⟨-, zero⟩ | ⟨-, poisoned⟩
      · exact zero
      · exact Bool.noConfusion (serves.unhurt.symm.trans poisoned)
    have drained := sound.drained pending
    have idle : worker.held = [] :=
      (drained.resting worker (by rw [serves.workers]; exact List.mem_cons_self)).held
    have inOrder := serves.order
    rw [untaken_of_quiet serves.workers drained.queue entered idle, levelOrder_nil] at inOrder
    exact ⟨pending, left, todo, inOrder⟩
  | drained left _ _ _ _ _ _ todo =>
    rw [first] at todo
    cases left <;> cases todo
  | stopping _ _ _ _ _ _ todo => cases first.symm.trans todo
  | halted fault _ halted => exact (halted.faulty clean).elim
  | past _ _ past _ _ => cases running.symm.trans past

/-- Trees that are left to later rounds are the last of the rounds. -/
theorem exists_done {announced left : List (TaskTree ι)}
    (whole : announced ++ left = before ++ rounds) (fewer : left.length ≤ rounds.length) :
    ∃ done, rounds = done ++ left ∧ announced = before ++ done := by
  rcases List.append_eq_append_iff.mp whole with ⟨more, rfl, same⟩ | ⟨done, same, split⟩
  · rw [same, List.length_append] at fewer
    obtain rfl : more = [] := List.length_eq_zero_iff.mp (by omega)
    exact ⟨[], same.symm, (List.append_nil _).trans (List.append_nil _) |>.symm⟩
  · exact ⟨done, split, same⟩

/-- What holds when the owner goes on from a wait. -/
theorem Ordered.returns (ordered : Ordered before rounds [] life) (kept : life.Kept)
    (clean : ∀ task ∈ order before rounds, task.fault = none)
    (tasks : life.tasks = before ++ rounds)
    (waits : life.todo.countP Command.drains ≤ rounds.length + 1)
    (joins : life.verdicts.length + life.todo.countP Command.joins = 1)
    {todo : List (Command (TaskTree ι))} (first : life.todo = .drain :: todo)
    (owned : life.own = some next) (leaves : next.todo = todo) :
    next.crew.pending = 0 ∧ ∃ done left, rounds = done ++ left ∧
      next.crew.announced = before ++ done ∧
      next.crew.started.map (fun execution => execution.task) = order before done ∧
      next.crew.started.length = sizeAll next.crew.announced := by
  obtain ⟨entered, away, rfl⟩ := leaves_exact first owned leaves
  have running : life.verdicts = [] := by
    have some : 0 < life.todo.countP Command.joins :=
      List.countP_pos_iff.mpr ⟨_, kept.lives.join_ahead first, rfl⟩
    exact List.length_eq_zero_iff.mp (by omega)
  obtain ⟨pending, left, commands, inOrder⟩ :=
    ordered.drain kept.sound running clean first entered away
  obtain ⟨enqueues, drains, -⟩ := roundCommands_exact left
  have whole : life.crew.announced ++ left = before ++ rounds := by
    rw [← tasks, Lifecycle.tasks, commands]
    change _ = _ ++ (roundCommands left ++ [Command.close, Command.join]).filterMap Command.task?
    rw [List.filterMap_append, enqueues]
    exact congrArg (life.crew.announced ++ ·) (List.append_nil left).symm
  have fewer : left.length ≤ rounds.length := by
    rw [commands, List.countP_cons, List.countP_append, drains] at waits
    exact Nat.le_of_succ_le_succ waits
  obtain ⟨done, rfl, announced⟩ := exists_done whole fewer
  have executed : life.crew.started.map (fun execution => execution.task) = order before done := by
    rw [order, List.flatMap_append, ← List.append_assoc] at inOrder
    exact List.append_cancel_right inOrder
  have length : life.crew.started.length = sizeAll life.crew.announced := by
    rw [announced, ← length_order, ← executed, List.length_map]
  exact ⟨pending, done, left, rfl, announced, executed, length⟩

/-- What one worker keeps, from its start to its end, that executes trees enqueued before a
run and then one tree in each round. Tasks are executed first in, first out, and in level
order. A task that is executed is not counted off, no worker is idle meanwhile, and all other
tasks that have been enqueued and not been executed are counted. Each time the owner goes on
from a wait, nothing is pending and all tasks of all trees so far have been executed; and
while it sleeps although nothing is pending, it is going to be notified. The run ends without
a fault, when everything has been executed. -/
structure BreadthFirst (before rounds : List (TaskTree ι)) (life : Lifecycle (TaskTree ι) Unit) :
    Prop where
  inLine : life.crew.InLine
  inOrder : life.crew.started.map (fun execution => execution.task) <+: order before rounds
  starts : ∀ execution left counted, .busy execution left counted ∈ life.crew.workers →
    life.crew.pending + life.crew.started.length = 1 + life.crew.enqueued ∧
    (counted = false → life.crew.pending = 1 + life.crew.queue.length) ∧
    life.crew.hasIdleWorker = false
  heard : life.crew.Heard
  returns : ∀ todo next, life.todo = .drain :: todo → life.own = some next → next.todo = todo →
    next.crew.pending = 0 ∧ ∃ done left, rounds = done ++ left ∧
      next.crew.announced = before ++ done ∧
      next.crew.started.map (fun execution => execution.task) = order before done ∧
      next.crew.started.length = sizeAll next.crew.announced
  ends : life.verdicts ≠ [] → life.verdicts = [none] ∧
    life.crew.started.map (fun execution => execution.task) = order before rounds

/-- The counter and the hint while a task is executed. -/
theorem Ordered.starts (ordered : Ordered before rounds later life) (kept : life.Kept)
    (clean : ∀ task ∈ order before rounds, task.fault = none)
    {execution : Execution (TaskTree ι)} {left : List (TaskTree ι)} {counted : Bool}
    (busy : .busy execution left counted ∈ life.crew.workers) :
    life.crew.pending + life.crew.started.length = 1 + life.crew.enqueued ∧
      (counted = false → life.crew.pending = 1 + life.crew.queue.length) ∧
      life.crew.hasIdleWorker = false := by
  obtain ⟨only, entered⟩ := ordered.busy kept.lives clean busy
  have one : life.crew.executing.length = 1 := by
    rw [executing, only]
    rfl
  refine ⟨kept.sound.pending_of_one one, ?_, ?_⟩
  · rintro rfl
    have counted := kept.sound.counted
    rw [one, entered, only] at counted
    change _ = _ + 0 + 1 + 0 at counted
    omega
  · rw [hasIdleWorker, only]
    rfl

/-- The one run ends without a fault, when everything has been executed. -/
theorem Ordered.ends (ordered : Ordered before rounds later life)
    (clean : ∀ task ∈ order before rounds, task.fault = none)
    (joins : life.verdicts.length + life.todo.countP Command.joins = 1)
    (past : life.verdicts ≠ []) :
    life.verdicts = [none] ∧
      life.crew.started.map (fun execution => execution.task) = order before rounds := by
  obtain ⟨verdict, rest, ended⟩ := List.exists_cons_of_ne_nil past
  have faultless := ordered.verdict ended
  rw [List.findSome?_eq_none_iff.mpr clean] at faultless
  have executed := ordered.executed (.inr past)
  rw [upToFault_of_clean clean] at executed
  rw [ended, List.length_cons] at joins
  have only : rest = [] := List.length_eq_zero_iff.mp (by omega)
  constructor
  · rw [ended, ← faultless, only]
  · exact executed

/-- One worker that takes no task out of order is a breadth-first executor of trees none of
whose tasks ends in a fault.

No execution of it is longer than some bound, some turn is possible until the run is over, and
at every moment all that is kept holds. So the owner goes on from each of its waits, whether or
not it has slept. A session of one worker notes the same: each task in level order, as many
tasks pending as wait and one more, and no idle worker. -/
theorem play_breadthFirst (before rounds : List (TaskTree ι))
    (clean : ∀ task ∈ order before rounds, task.fault = none) :
    (∃ bound, ∀ turns life, (∀ turn ∈ turns, turn.inOrder = true) →
      play TaskTree.execute turns
        (fresh 1 () (before.map .enqueue ++ [.run (Request.rounds rounds)])) = some life →
      turns.length ≤ bound ∧
      (life.verdicts = [] →
        ∃ turn next, turn.inOrder = true ∧ life.turn TaskTree.execute turn = some next) ∧
      BreadthFirst before rounds life) ∧
    ∀ (session : Session ι) (awaitIdle : Bool), Session.opened 1 = .ok session →
      let ended := (session.enqueueEach before).1.run awaitIdle rounds
      ended.1.log = Session.forestLog before ++
        rounds.flatMap (fun tree => Session.forestLog [tree]) ∧
      ∃ idle, ended.2 = .ok ⟨(List.range (rounds.length + 1)).map fun count =>
        ⟨0, sizeAll (before ++ rounds.take count)⟩, idle⟩ := by
  let life₀ : Lifecycle (TaskTree ι) Unit :=
    fresh 1 () (before.map .enqueue ++ [.run (Request.rounds rounds)])
  have commands : life₀.todo = before.map Command.enqueue ++ .start :: .drain ::
      (roundCommands rounds ++ [.close, .join]) := todo_fresh before rounds []
  have fresh : life₀.Kept := kept_fresh Nat.one_pos () _
  have unborn : life₀.crew.Grown := grown_opened
  refine ⟨⟨life₀.effort (sizeAll life₀.tasks), fun turns life inOrder played => ?_⟩,
    fun session awaitIdle opens => Session.run_logged opens before rounds awaitIdle clean⟩
  have kept := fresh.play played
  have ordered := (ordered_fresh before rounds []).play fresh unborn inOrder played
  obtain ⟨enqueues, drains, ends⟩ := commands_exact before rounds
  rw [← commands] at enqueues drains ends
  have tasks := (tasks_of_play played).trans enqueues
  have remains := remains_of_play played
  have joins : life.verdicts.length + life.todo.countP Command.joins = 1 := by
    rw [remains.2, ends]
    rfl
  constructor
  · have used := length_le_effort (Nat.zero_le _)
      (fun _ _ played => offspring_le fresh unborn played) played
    exact Nat.le_of_add_right_le used
  constructor
  · intro running
    have ahead : life₀.verdicts = [] → .join ∈ life₀.todo := fun _ => by
      rw [commands]
      simp
    have more := join_mem_of_play ahead played running
    exact exists_turn TaskTree.execute kept running (List.ne_nil_of_mem more)
  constructor
  case inLine =>
    exact play_induction (fun turn => turn.inOrder = true) (motive := fun life => life.crew.InLine)
      (fun _ _ _ inOrder inLine turned => inLine_of_turn inOrder inLine turned) inOrder
      (rfl : life₀.crew.InLine) played
  case inOrder => exact ordered.started_prefix clean
  case starts => exact fun execution left counted busy => ordered.starts kept clean busy
  case heard => exact kept.heard
  case returns =>
    intro todo next first owned leaves
    have waits := drains ▸ remains.1.sublist.countP_le (p := Command.drains)
    exact ordered.returns kept clean tasks waits joins first owned leaves
  case ends => exact ordered.ends clean joins

/-- A task with two children, of which the first has a child. -/
def twoLevels : TaskTree Nat := .node 0 [.node 1 [.node 3 [] none] none, .node 2 [] none] none

/-- The turns of the owner and of one worker that executes a tree of two levels and then one of
a later round. The owner sleeps in the first round, and is woken after the last task. In the
second it finds nothing pending when it looks. -/
def breadthTurns : List Turn :=
  List.replicate 7 .owner ++ List.replicate 19 (.worker 0 0) ++ List.replicate 4 .owner ++
    List.replicate 3 (.worker 0 0) ++ [.owner, .owner, .worker 0 0, .owner, .worker 0 0, .owner]

/-- The grandchild is executed after both children, and the tree of the later round last. Two
tasks are pending when each of the children starts, and one when each of the others does. -/
theorem play_breadthFirst_twoLevels :
    (∀ task ∈ order [twoLevels] [.node 4 [] none], task.fault = none) ∧
    (∀ turn ∈ breadthTurns, turn.inOrder = true) ∧
    ∃ life, play TaskTree.execute breadthTurns (fresh 1 () ([twoLevels].map .enqueue ++
        [.run (Request.rounds [.node 4 [] none])])) = some life ∧
      life.crew.started.map (fun execution => execution.task.id) = [0, 1, 2, 3, 4] ∧
      BreadthFirst [twoLevels] [.node 4 [] none] life ∧
    ∃ session, Session.opened 1 = .ok session ∧
      ((session.enqueueEach [twoLevels]).1.run true [.node 4 [] none]).1.log =
        [⟨0, 1, false⟩, ⟨1, 2, false⟩, ⟨2, 2, false⟩, ⟨3, 1, false⟩, ⟨4, 1, false⟩] := by
  have clean : ∀ task ∈ order [twoLevels] [.node 4 [] none], task.fault = none := by
    simp [order, family, twoLevels, levelOrder, nextLevel, children, fault]
  have inOrder : ∀ turn ∈ breadthTurns, turn.inOrder = true := by decide
  obtain ⟨life, played, executed⟩ : ∃ life, play TaskTree.execute breadthTurns
      (fresh 1 () ([twoLevels].map .enqueue ++
        [.run (Request.rounds [.node 4 [] none])])) = some life ∧
      life.crew.started.map (fun execution => execution.task.id) = [0, 1, 2, 3, 4] :=
    ⟨_, rfl, rfl⟩
  obtain ⟨⟨bound, each⟩, logged⟩ := play_breadthFirst [twoLevels] [.node 4 [] none] clean
  refine ⟨clean, inOrder, life, played, executed, (each breadthTurns life inOrder played).2.2,
    _, rfl, (logged _ true rfl).1.trans ?_⟩
  simp [Session.forestLog_cons, twoLevels, children, TaskTree.id]

end Lifecycle

end RadixSort
