import RadixSort.Proofs.Scheduler.Progress
import RadixSort.Proofs.Scheduler.Serial

/-!
# Workers execute tasks as if one after the other

A task takes effect when it is taken, so the tasks that a crew executes take effect one after
the other, and what they make of the shared state one worker could have made of it. If a task
that ends in a fault leaves nothing, those that do are as if they still waited, and it makes no
difference that others go on after the first of them.

So a run that enqueues some tasks and waits until the pool is drained ends as `Pool.serve`
does for some order of the tasks. If it ends without a fault, no task is left, and the state
is that of the served pool. If it ends with the fault of a task, the served pool is one that
takes the tasks that were taken before it and have not ended in a fault, and then this task.
-/
namespace RadixSort

variable {τ σ : Type} {execute : Nat → τ → σ → Pool.Effect τ σ}

/-- A task that ends in a fault leaves the shared state as it was and enqueues nothing. -/
def Harmless (execute : Nat → τ → σ → Pool.Effect τ σ) : Prop :=
  ∀ number task state fault, (execute number task state).fault = some fault →
    (execute number task state).state = state ∧ (execute number task state).spawned = []

/-- The tasks that were taken and have ended in a fault, or will. -/
def Crew.faulted (crew : Crew τ σ) : List τ :=
  (crew.started.filter fun execution => execution.fault.isSome).map fun execution =>
    execution.task

namespace Lifecycle

variable {life next : Lifecycle τ σ} {tasks : List τ} {state : σ}

/-- The tasks that have not been executed without a fault: those that nobody has taken, those
that ended in a fault, and those that the owner has still to enqueue. -/
def unfinished (life : Lifecycle τ σ) : List τ :=
  life.crew.untaken ++ (life.crew.faulted ++ life.todo.filterMap Command.task?)

/-- What the executed tasks have made of the shared state comes of executing those without a
fault one after the other, and a fault comes of executing its task after some of them. -/
structure OneByOne (execute : Nat → τ → σ → Pool.Effect τ σ) (tasks : List τ) (state : σ)
    (life : Lifecycle τ σ) : Prop where
  clean : ∃ numbers, Serial execute numbers tasks state life.unfinished life.crew.state ∧
    numbers.length + life.crew.faulted.length = life.crew.started.length
  faulty : ∀ execution ∈ life.crew.started, ∀ fault, execution.fault = some fault →
    ∃ numbers left between number, Serial execute numbers tasks state left between ∧
      execution.task ∈ left ∧ (execute number execution.task between).fault = some fault

/-- Where nothing has been taken, nothing has been executed. -/
theorem oneByOne_fresh (size : Nat) (state : σ) (activities : List (Activity τ)) :
    OneByOne execute (fresh size state activities).tasks state (fresh size state activities) where
  clean := ⟨[], .done (.refl _) state, rfl⟩
  faulty := by simp [fresh, Crew.opened]

/-- A turn at which no task is taken changes nothing. -/
theorem OneByOne.stay (one : OneByOne execute tasks state life)
    (started : next.crew.started = life.crew.started) (same : next.crew.state = life.crew.state)
    (unfinished : life.unfinished.Perm next.unfinished) : OneByOne execute tasks state next := by
  obtain ⟨⟨numbers, serial, count⟩, faulty⟩ := one
  have faulted : next.crew.faulted = life.crew.faulted := by
    rw [Crew.faulted, Crew.faulted, started]
  refine ⟨⟨numbers, ?_, ?_⟩, ?_⟩
  · rw [same]
    exact serial.reorder unfinished
  · rw [faulted, started]
    exact count
  · rw [started]
    exact faulty

section Take

variable {ticket : Ticket τ} {rest : List τ}
  (started : next.crew.started = life.crew.started ++ [life.crew.execution execute ticket])

include started

/-- A task that is taken is among those that ended in a fault if it does. -/
theorem faulted_of_take {fault : Option Fault}
    (ends : (life.crew.execution execute ticket).fault = fault) :
    next.crew.faulted = life.crew.faulted ++ if fault.isSome then [ticket.task] else [] := by
  rw [Crew.faulted, Crew.faulted, started, List.filter_append, List.filter_singleton, ends,
    List.map_append]
  cases fault <;> rfl

/-- If a task that is taken ends in a fault, it does so after the tasks executed before. -/
theorem OneByOne.faulty_of_take (one : OneByOne execute tasks state life)
    (waits : ticket.task ∈ life.unfinished) :
    ∀ execution ∈ next.crew.started, ∀ fault, execution.fault = some fault →
      ∃ numbers left between number, Serial execute numbers tasks state left between ∧
        execution.task ∈ left ∧ (execute number execution.task between).fault = some fault := by
  obtain ⟨⟨numbers, serial, -⟩, faulty⟩ := one
  intro execution member fault faults
  rw [started] at member
  rcases List.mem_append.mp member with old | new
  · exact faulty execution old fault faults
  · rw [List.mem_singleton.mp new] at faults ⊢
    exact ⟨numbers, _, _, _, serial, waits, faults⟩

/-- A turn at which a task is taken executes it after the others, or leaves it among those that
are not finished if it ends in a fault. -/
theorem OneByOne.take (one : OneByOne execute tasks state life) (harmless : Harmless execute)
    (after : next.crew.state =
      (execute life.crew.started.length ticket.task life.crew.state).state)
    (waits : life.crew.untaken.Perm (ticket.task :: rest))
    (untaken : next.crew.untaken.Perm (rest ++ (life.crew.execution execute ticket).spawned))
    (todo : next.todo.filterMap Command.task? = life.todo.filterMap Command.task?) :
    OneByOne execute tasks state next := by
  let effect := execute life.crew.started.length ticket.task life.crew.state
  let others := life.crew.faulted ++ life.todo.filterMap Command.task?
  have before : life.unfinished.Perm (ticket.task :: (rest ++ others)) := waits.append_right _
  have faulty := one.faulty_of_take started (before.mem_iff.mpr List.mem_cons_self)
  obtain ⟨numbers, serial, count⟩ := one.clean
  have taken : next.crew.started.length = life.crew.started.length + 1 := by
    rw [started, List.length_append, List.length_singleton]
  cases ends : effect.fault with
  | none =>
    have faulted : next.crew.faulted = life.crew.faulted ++ [] := faulted_of_take started ends
    rw [List.append_nil] at faulted
    refine ⟨⟨numbers ++ [life.crew.started.length], ?_, ?_⟩, faulty⟩
    · rw [after]
      refine (serial.snoc before ends).reorder ?_
      have reached : next.unfinished.Perm (rest ++ effect.spawned ++ others) := by
        rw [unfinished, faulted, todo]
        exact untaken.append_right _
      have swapped (more made : List τ) : (rest ++ more ++ made).Perm (rest ++ made ++ more) := by
        rw [List.append_assoc, List.append_assoc]
        exact List.perm_append_comm.append_left rest
      exact (swapped others effect.spawned).trans reached.symm
    · rw [faulted, taken, List.length_append, List.length_singleton]
      omega
  | some fault =>
    obtain ⟨same, none⟩ := harmless _ _ _ _ ends
    have faulted : next.crew.faulted = life.crew.faulted ++ [ticket.task] :=
      faulted_of_take started ends
    refine ⟨⟨numbers, ?_, ?_⟩, faulty⟩
    · rw [after, same]
      refine serial.reorder (before.trans ?_)
      have reached : next.unfinished.Perm (rest ++ (life.crew.faulted ++ [ticket.task] ++
          life.todo.filterMap Command.task?)) := by
        rw [unfinished, faulted, todo]
        have spawned : (life.crew.execution execute ticket).spawned = [] := none
        rw [spawned, List.append_nil] at untaken
        exact untaken.append_right _
      refine List.Perm.trans ?_ reached.symm
      rw [List.append_assoc]
      exact List.perm_middle.symm.trans (List.perm_middle.symm.append_left rest)
    · rw [faulted, taken, List.length_append, List.length_singleton]
      omega

end Take

/-- Every turn executes at most one task after the others. -/
theorem OneByOne.turn (one : OneByOne execute tasks state life) (harmless : Harmless execute)
    (watches : life.Watches) {turn : Turn} (turned : life.turn execute turn = some next) :
    OneByOne execute tasks state next := by
  have all : next.crew.announced ++ next.todo.filterMap Command.task? =
      life.crew.announced ++ life.todo.filterMap Command.task? := tasks_of_turn turned
  rcases step_of_turn watches turned with action | same
  · cases action.moves with
    | stay more announced started state untaken =>
      rw [announced, List.append_assoc] at all
      have todo := List.append_cancel_left all
      refine one.stay started state ?_
      have faulted : next.crew.faulted = life.crew.faulted := by
        rw [Crew.faulted, Crew.faulted, started]
      rw [unfinished, unfinished, faulted, ← todo]
      refine List.Perm.trans ?_ (untaken.symm.append_right _)
      rw [List.append_assoc]
      refine List.Perm.append_left _ ?_
      rw [← List.append_assoc, ← List.append_assoc]
      exact List.perm_append_comm.append_right _
    | take ticket rest announced started after waits untaken =>
      rw [announced] at all
      exact one.take started harmless after waits untaken (List.append_cancel_left all)
  · rw [same] at all
    refine one.stay (by rw [same]) (by rw [same]) ?_
    rw [unfinished, unfinished, same, List.append_cancel_left all]

/-- The number of tasks that executed tasks enqueue is bounded if that of tasks that can be
executed one after the other is. -/
theorem OneByOne.offspring_le (one : OneByOne execute tasks state life)
    (balanced : life.crew.Balanced) {count : Nat}
    (bounded : ∀ numbers left last, Serial execute numbers tasks state left last →
      numbers.length + left.length ≤ count) : life.crew.offspring ≤ count := by
  obtain ⟨numbers, serial, executed⟩ := one.clean
  have few := bounded _ _ _ serial
  rw [unfinished, List.length_append, List.length_append] at few
  unfold Crew.Balanced at balanced
  omega

end Lifecycle

/-- When nothing is pending or a fault has been reported, this stays so at a worker's turn. -/
theorem Crew.settled_of_act {crew next : Crew τ σ} {position place : Nat} (sound : crew.Sound)
    (settled : crew.pending = 0 ∨ crew.poisoned = true)
    (acted : crew.act execute position place = some next) :
    next.pending = 0 ∨ next.poisoned = true := by
  rcases settled with zero | poisoned
  · have drained := sound.drained zero
    have idle : crew.executing = [] :=
      List.flatMap_eq_nil_iff.mpr fun worker member => (drained.resting worker member).held
    obtain ⟨after, owner, rfl, -⟩ := act_of_quiet drained.queue idle acted
    exact .inl zero
  · refine .inr ?_
    refine act_cases (motive := fun next => next.poisoned = true) acted ?findOpen ?findClosed
      ?take ?park ?wake ?count ?spawn ?finish ?report ?fail ?notify
    case findOpen => exact fun _ _ => poisoned
    case findClosed => exact fun _ _ => poisoned
    case take => exact fun _ _ _ => poisoned
    case park => exact fun _ _ _ => poisoned
    case wake => exact fun _ _ _ => poisoned
    case count => exact fun _ _ _ _ => poisoned
    case spawn => exact fun _ _ _ _ => poisoned
    case finish => exact fun _ _ _ => poisoned
    case report => exact fun _ _ _ _ => rfl
    case fail => exact fun _ _ _ => poisoned
    case notify => exact fun _ _ _ => poisoned

namespace Lifecycle

variable {life next : Lifecycle τ σ} {tasks : List τ} {state : σ}

/-- The owner's last wait is ahead, or it is over and only the end of the run is left. -/
inductive Awaits (life : Lifecycle τ σ) : Prop where
  | ahead (running : life.verdicts = []) (front : List (Command τ)) (goesOn : .join ∉ front)
      (todo : life.todo = front ++ [.drain, .close, .join])
  | behind (settled : life.crew.pending = 0 ∨ life.crew.poisoned = true)
      (todo : life.todo <:+ [.close, .join])

/-- A command that is not the last wait leaves it ahead. -/
theorem Awaits.pass {crew : Crew τ σ} {command : Command τ} {front todo : List (Command τ)}
    (running : life.verdicts = []) (goesOn : .join ∉ front)
    (ahead : life.todo = front ++ [.drain, .close, .join]) (first : life.todo = command :: todo)
    (settled : command = .drain → crew.pending = 0 ∨ crew.poisoned = true) :
    Awaits { life with crew, todo } := by
  rw [ahead] at first
  cases front with
  | nil =>
    obtain ⟨rfl, rfl⟩ := List.cons.inj first
    exact .behind (settled rfl) (List.suffix_refl _)
  | cons other front =>
    obtain ⟨rfl, rfl⟩ := List.cons.inj first
    exact .ahead running front (fun member => goesOn (List.mem_cons_of_mem _ member)) rfl

/-- Every turn keeps the owner's last wait ahead, or leaves it behind with good reason. -/
theorem Awaits.turn (awaits : life.Awaits) (sound : life.crew.Sound) {turn : Turn}
    (turned : life.turn execute turn = some next) : next.Awaits := by
  cases turn with
  | worker position place =>
    obtain ⟨crew, acted, rfl⟩ := Option.map_eq_some_iff.mp turned
    cases awaits with
    | ahead running front goesOn todo => exact .ahead running front goesOn todo
    | behind settled todo => exact .behind (Crew.settled_of_act sound settled acted) todo
  | owner =>
    cases awaits with
    | ahead running front goesOn todo =>
      refine own_cases (motive := Awaits) turned ?submit ?enqueue ?start ?look ?leave ?close ?join
      case submit => exact fun _ _ _ => .ahead running front goesOn todo
      case enqueue => exact fun _ _ _ first => .pass running goesOn todo first nofun
      case start => exact fun _ _ first _ => .pass running goesOn todo first nofun
      case look => exact fun _ _ _ _ _ => .ahead running front goesOn todo
      case leave =>
        refine fun _ _ first _ away => .pass running goesOn todo first fun _ => ?_
        rcases Crew.look_eq_away.mp away with ⟨-, zero⟩ | ⟨-, poisoned⟩
        · exact .inl zero
        · exact .inr poisoned
      case close => exact fun _ _ first => .pass running goesOn todo first nofun
      case join =>
        intro _ _ first _
        rw [todo] at first
        cases front with
        | nil => cases first
        | cons other front =>
          obtain ⟨rfl, -⟩ := List.cons.inj first
          exact absurd List.mem_cons_self goesOn
    | behind settled todo =>
      have only {command : Command τ} {rest : List (Command τ)}
          (first : life.todo = command :: rest) :
          command ∈ [.close, .join] ∧ rest <:+ [.close, .join] := by
        rw [first] at todo
        exact ⟨todo.subset List.mem_cons_self, (List.suffix_cons command rest).trans todo⟩
      refine own_cases (motive := Awaits) turned ?submit ?enqueue ?start ?look ?leave ?close ?join
      case submit => exact fun _ _ _ => .behind settled todo
      case enqueue => exact fun _ _ _ first => absurd (only first).1 (by simp)
      case start => exact fun _ _ first _ => absurd (only first).1 (by simp)
      case look => exact fun _ _ first _ _ => absurd (only first).1 (by simp)
      case leave => exact fun _ _ first _ _ => absurd (only first).1 (by simp)
      case close => exact fun _ _ first => .behind settled (only first).2
      case join => exact fun _ _ first _ => .behind settled (only first).2

/-- All that every turn of a run keeps that waits until it is drained of some tasks. -/
structure Once (execute : Nat → τ → σ → Pool.Effect τ σ) (tasks : List τ) (state : σ)
    (life : Lifecycle τ σ) : Prop where
  kept : life.Kept
  one : OneByOne execute tasks state life
  awaits : life.Awaits

/-- Before its first turn a run keeps all that it should. -/
theorem once_once {size : Nat} (positive : 0 < size) (state : σ) (tasks : List τ) :
    Once execute tasks state (once size state tasks) := by
  have enqueued : ((tasks.map Request.enqueue).map Request.command).filterMap Command.task? =
      tasks := by
    induction tasks with
    | nil => rfl
    | cons task rest ih => exact congrArg (task :: ·) ih
  let front : List (Command τ) := .start :: (tasks.map Request.enqueue).map Request.command
  have todo : (once size state tasks).todo = front ++ [.drain, .close, .join] := by
    simp [once, fresh, front, Activity.commands, Request.command]
  refine ⟨kept_fresh positive state _, ?_, .ahead rfl front ?_ todo⟩
  · have all : (once size state tasks).tasks = tasks := by
      rw [Lifecycle.tasks, todo, List.filterMap_append]
      change [] ++ ((tasks.map Request.enqueue).map Request.command).filterMap Command.task? ++
        [] = _
      rw [enqueued, List.nil_append, List.append_nil]
    have one : OneByOne execute (once size state tasks).tasks state (once size state tasks) :=
      oneByOne_fresh size state _
    rwa [all] at one
  · simp [front, Request.command]

/-- Turns keep all that they should. -/
theorem Once.play (once : Once execute tasks state life) (harmless : Harmless execute)
    {turns : List Turn} (played : play execute turns life = some next) :
    Once execute tasks state next :=
  play_induction (fun _ => True) (motive := Once execute tasks state)
    (fun _ _ _ _ ⟨kept, one, awaits⟩ turned =>
      ⟨kept.turn turned, one.turn harmless kept.watches turned, awaits.turn kept.sound turned⟩)
    (fun _ _ => trivial) once played

/-- When a run is over that no fault has ended, nothing is pending. -/
theorem Once.drained (once : Once execute tasks state life) {rest : List (Option Fault)}
    (past : life.verdicts = none :: rest) : life.crew.Drained ∧ life.crew.faulted = [] := by
  obtain ⟨kept, -, awaits⟩ := once
  have clean := (kept.lives.past past).1.none_iff.mp rfl
  cases awaits with
  | ahead running _ _ _ => cases running.symm.trans past
  | behind settled todo =>
    constructor
    · apply kept.sound.drained
      refine settled.resolve_right fun poisoned => ?_
      obtain ⟨execution, member, faulty⟩ := kept.sound.reported poisoned
      exact faulty (clean execution member)
    · rw [Crew.faulted, List.map_eq_nil_iff, List.filter_eq_nil_iff]
      intro execution member
      rw [clean execution member]
      exact Bool.false_ne_true

/-- When a run is over, it has ended as a pool does whose tasks are executed one after the other
in some order: with the fault of the task that ends the execution, or else with the same state
and with nothing pending. -/
theorem Once.served (once : Once execute tasks state life) {verdict : Option Fault}
    {rest : List (Option Fault)} (past : life.verdicts = verdict :: rest) {count : Nat}
    (bounded : ∀ numbers left last, Serial execute numbers tasks state left last →
      numbers.length + left.length ≤ count)
    {pool : Pool τ} (queue : pool.queue = tasks) (counted : pool.pending = pool.queue.length) :
    ∃ pick label : Nat → Nat,
      let served := Pool.serve (fun turn _ => execute (label turn)) pick count 0 pool state
      served.fault = verdict ∧
        (verdict = none → served.state = life.crew.state ∧ served.pool.pending = 0) := by
  have waits : pool.queue.Perm tasks := .of_eq queue
  cases verdict with
  | none =>
    obtain ⟨drained, faulted⟩ := once.drained past
    obtain ⟨numbers, serial, -⟩ := once.one.clean
    have todo : life.todo.filterMap Command.task? = [] := by
      cases once.awaits with
      | ahead running _ _ _ => cases running.symm.trans past
      | behind _ todo =>
        have none : ([.close, .join] : List (Command τ)).filterMap Command.task? = [] := rfl
        exact List.suffix_nil.mp (none ▸ todo.filterMap Command.task?)
    rw [unfinished, drained.untaken, faulted, todo] at serial
    have enough := bounded _ _ _ serial
    obtain ⟨pick, label, after, served, pending⟩ := serial.serve_drained waits counted
      (Nat.le_of_add_right_le enough)
    refine ⟨pick, label, ?_⟩
    rw [served]
    exact ⟨rfl, fun _ => ⟨rfl, pending⟩⟩
  | some fault =>
    obtain ⟨execution, member, faulty⟩ := (once.kept.lives.past past).1.executed fault rfl
    obtain ⟨numbers, left, between, number, serial, waiting, raised⟩ :=
      once.one.faulty execution member fault faulty
    have enough := bounded _ _ _ serial
    have some := List.length_pos_of_mem waiting
    have enough : numbers.length < count := by omega
    obtain ⟨pick, label, served⟩ := serial.serve_faulty waiting raised waits counted enough
    exact ⟨pick, label, served, nofun⟩

/-- No execution of a run is longer than some bound if the number of its tasks is bounded, and
until the run is over, some turn is possible. -/
theorem once_ends {size : Nat} (positive : 0 < size) (harmless : Harmless execute) {count : Nat}
    (bounded : ∀ numbers left last, Serial execute numbers tasks state left last →
      numbers.length + left.length ≤ count) :
    ∃ bound, ∀ turns life, Lifecycle.play execute turns (once size state tasks) = some life →
      turns.length ≤ bound ∧
        (life.verdicts = [] → ∃ turn next, life.turn execute turn = some next) := by
  have fresh : Once execute tasks state (once size state tasks) := once_once positive state tasks
  refine ⟨(once size state tasks).effort count, fun turns life played => ⟨?_, fun running => ?_⟩⟩
  · have few : ∀ first between,
        Lifecycle.play execute first (once size state tasks) = some between →
        between.crew.offspring ≤ count := by
      intro first between played
      have kept := fresh.play harmless played
      exact kept.one.offspring_le kept.kept.balanced bounded
    exact Nat.le_of_add_right_le (length_le_effort (Nat.zero_le _) few played)
  · have ahead : (once size state tasks).verdicts = [] → .join ∈ (once size state tasks).todo :=
      fun _ => by simp [once, Lifecycle.fresh, Activity.commands]
    have more := join_mem_of_play ahead played running
    obtain ⟨turn, next, -, turned⟩ :=
      exists_turn execute (fresh.play harmless played).kept running (List.ne_nil_of_mem more)
    exact ⟨turn, next, turned⟩

end Lifecycle

end RadixSort
