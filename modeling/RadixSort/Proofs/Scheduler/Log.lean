import RadixSort.Proofs.Scheduler.Session

/-!
# What one worker notes of a forest

A session of one worker notes each task when it starts. If no task ends in a fault, its log is
that of the forests it was given, one after the other: the tasks in level order, each with the
number of tasks that were enqueued by then and had not finished, the task itself among them.
No worker is ever idle at such a moment, and after each round nothing is pending and all tasks
of all trees have been executed.
-/
namespace RadixSort

variable {ι : Type}

open TaskTree

/-- Enqueuing tasks ends no worker. -/
theorem Pool.living_enqueueAll {τ : Type} (pool : Pool τ) (tasks : List τ) :
    (pool.enqueueAll tasks).living = pool.living := by
  induction tasks generalizing pool with
  | nil => rfl
  | cons task rest ih => exact ih (pool.enqueue task)

namespace Session

variable {session : Session ι}

/-- What one worker notes while it executes a forest. Before a task starts, its level and all
above it have been enqueued, and so have the children of the tasks before it. -/
def forestLog (forest : List (TaskTree ι)) : List (LogEntry ι) :=
  (levelOrder forest).mapIdx fun index task =>
    ⟨task.id, forest.length + offspring ((levelOrder forest).take index) - index, false⟩

@[simp] theorem forestLog_nil : forestLog ([] : List (TaskTree ι)) = [] := by
  rw [forestLog, levelOrder_nil]
  rfl

/-- The task that has waited longest is noted with all that wait, and then its children wait
behind the others. -/
theorem forestLog_cons (task : TaskTree ι) (rest : List (TaskTree ι)) :
    forestLog (task :: rest) =
      ⟨task.id, rest.length + 1, false⟩ :: forestLog (rest ++ task.children) := by
  have later (index : Nat) (tasks : List (TaskTree ι)) :
      (task :: rest).length + offspring ((task :: tasks).take (index + 1)) - (index + 1) =
        (rest ++ task.children).length + offspring (tasks.take index) - index := by
    have first : offspring ((task :: tasks).take (index + 1)) =
        task.children.length + offspring (tasks.take index) := by
      rw [List.take_succ_cons, offspring, List.map_cons, List.sum_cons, offspring]
    rw [first, List.length_cons, List.length_append]
    omega
  rw [forestLog, levelOrder_cons, List.mapIdx_cons, forestLog]
  simp only [later]
  rfl

/-- Every task is noted once. -/
theorem length_forestLog (forest : List (TaskTree ι)) :
    (forestLog forest).length = sizeAll forest := by
  rw [forestLog, List.length_mapIdx, length_levelOrder]

/-- A session of one worker in which no task has ended in a fault, and that has not been
closed. -/
structure Alone (session : Session ι) : Prop where
  living : session.pool.living = 1
  pending : session.pool.pending = session.pool.queue.length
  isOpen : session.pool.closed = false
  unhurt : session.pool.poisoned = false

/-- The only worker executes the task that has waited longest, and none is idle meanwhile. -/
theorem Alone.advance (alone : session.Alone) {task : TaskTree ι} {rest : List (TaskTree ι)}
    (queue : session.pool.queue = task :: rest) (clean : task.fault = none) (turn : Nat) :
    (session.advance turn task rest).Alone ∧
      (session.advance turn task rest).log =
        session.log ++ [⟨task.id, rest.length + 1, false⟩] := by
  obtain ⟨-, executed⟩ :=
    executed_advance queue alone.pending alone.isOpen alone.unhurt turn
  rw [clean] at executed
  let taken : Pool (TaskTree ι) := { session.pool with queue := rest }
  have passes : (session.advance turn task rest).pool.living =
      ((taken.enqueueAll task.children).finish task.fault.isSome).living := rfl
  have living : (session.advance turn task rest).pool.living = session.pool.living := by
    rw [passes, clean]
    exact Pool.living_enqueueAll taken task.children
  have busy : hasIdleWorker taken true 1 = false := by
    have one : taken.living = 1 := alone.living
    rw [hasIdleWorker, one]
    exact Bool.and_false _
  have waiting : session.pool.pending = rest.length + 1 := by
    rw [alone.pending, queue, List.length_cons]
  constructor
  · exact ⟨living.trans alone.living, executed.pending, executed.isOpen, executed.poisoned⟩
  · change session.log ++ [⟨task.id, session.pool.pending, hasIdleWorker taken true 1⟩] = _
    rw [busy, waiting]

/-- Executing tasks in the order in which they wait notes the forest that they make up.

Induct over the number of tasks, as they are executed. -/
theorem Alone.serve (allowance turn : Nat) (alone : session.Alone)
    (enough : sizeAll session.pool.queue ≤ allowance)
    (clean : ∀ task ∈ levelOrder session.pool.queue, task.fault = none) :
    let served := Pool.serve execute (fun _ => 0) allowance turn session.pool session.log
    served.state = session.log ++ forestLog session.pool.queue ∧ served.pool.living = 1 := by
  induction allowance generalizing turn session with
  | zero =>
    have empty := eq_nil_of_sizeAll (Nat.le_zero.mp enough)
    intro served
    rw [empty, forestLog_nil, List.append_nil]
    exact ⟨rfl, alone.living⟩
  | succ allowance ih =>
    cases queue : session.pool.queue with
    | nil =>
      rw [Pool.serve, Pool.take?, queue, forestLog_nil, List.append_nil]
      exact ⟨rfl, alone.living⟩
    | cons task rest =>
      rw [queue, levelOrder_cons] at clean
      have faultless := clean task List.mem_cons_self
      obtain ⟨still, noted⟩ := alone.advance queue faultless turn
      have waiting : (session.advance turn task rest).pool.queue = rest ++ task.children :=
        (executed_advance queue alone.pending alone.isOpen alone.unhurt turn).1
      rw [queue, sizeAll_cons] at enough
      have less := Nat.le_of_succ_le_succ enough
      have ends : (execute turn { session.pool with queue := rest } task session.log).fault =
          none := faultless
      rw [Pool.serve, Pool.take?_first queue, forestLog_cons]
      simp only [ends]
      obtain ⟨later, living⟩ := ih (turn + 1) still (waiting ▸ less) fun other member =>
        clean other (List.mem_cons_of_mem _ (waiting ▸ member))
      rw [waiting] at later
      refine ⟨later.trans ?_, living⟩
      rw [noted, List.append_assoc]
      rfl

/-- Draining a pool notes the forest that waits, and leaves nothing. -/
theorem Alone.runUntilEmpty (alone : session.Alone)
    (clean : ∀ task ∈ levelOrder session.pool.queue, task.fault = none) :
    session.runUntilEmpty.2 = none ∧ session.runUntilEmpty.1.Alone ∧
      session.runUntilEmpty.1.pool.queue = [] ∧
      session.runUntilEmpty.1.log = session.log ++ forestLog session.pool.queue := by
  obtain ⟨executed, drained⟩ :=
    executed_runUntilEmpty alone.pending alone.isOpen alone.unhurt
  have ends : session.runUntilEmpty.2 = none := by
    rw [← executed.first]
    exact List.findSome?_eq_none_iff.mpr clean
  have noted : session.runUntilEmpty.1.log = session.log ++ forestLog session.pool.queue ∧
      session.runUntilEmpty.1.pool.living = 1 := by
    rw [Session.runUntilEmpty]
    split
    · rename_i past
      rw [alone.isOpen, Bool.or_false, Pool.drained, alone.unhurt, Bool.or_false,
        beq_iff_eq] at past
      have empty : session.pool.queue = [] :=
        List.length_eq_zero_iff.mp (alone.pending.symm.trans past)
      rw [empty, forestLog_nil, List.append_nil]
      exact ⟨rfl, alone.living⟩
    · exact alone.serve _ 0 (Nat.le_refl _) clean
  have unhurt := executed.poisoned
  rw [ends] at unhurt
  exact ⟨ends, ⟨noted.2, executed.pending, executed.isOpen, unhurt⟩, drained ends, noted.1⟩

/-- A round notes the family of its tree. -/
theorem Alone.round (alone : session.Alone) (empty : session.pool.queue = [])
    {tree : TaskTree ι} (clean : ∀ task ∈ family tree, task.fault = none) :
    (session.enqueue tree).runUntilEmpty.2 = none ∧
      (session.enqueue tree).runUntilEmpty.1.Alone ∧
      (session.enqueue tree).runUntilEmpty.1.pool.queue = [] ∧
      (session.enqueue tree).runUntilEmpty.1.log = session.log ++ forestLog [tree] := by
  have only : (session.enqueue tree).pool.queue = [tree] := congrArg (· ++ [tree]) empty
  have pending : (session.enqueue tree).pool.pending =
      (session.enqueue tree).pool.queue.length := by
    rw [only]
    exact congrArg (· + 1) (alone.pending.trans (congrArg List.length empty))
  have entered : (session.enqueue tree).Alone :=
    ⟨alone.living, pending, alone.isOpen, alone.unhurt⟩
  have drained := entered.runUntilEmpty (only.symm ▸ clean)
  rwa [only] at drained

/-- The rounds of a drained pool note the families of their trees, one after the other, and
after each nothing is pending.

Induct over the rounds. -/
theorem Alone.rounds (trees : List (TaskTree ι)) (alone : session.Alone)
    (empty : session.pool.queue = [])
    (clean : ∀ task ∈ trees.flatMap family, task.fault = none) :
    (rounds trees session).2.1 = none ∧
      (rounds trees session).1.log = session.log ++ trees.flatMap (fun tree => forestLog [tree]) ∧
      (rounds trees session).2.2 = (List.range trees.length).map fun count =>
        ⟨0, session.log.length + sizeAll (trees.take (count + 1))⟩ := by
  induction trees generalizing session with
  | nil => exact ⟨rfl, (List.append_nil _).symm, rfl⟩
  | cons tree rest ih =>
    rw [List.flatMap_cons] at clean
    obtain ⟨ends, still, drained, noted⟩ := alone.round empty fun task member =>
      clean task (List.mem_append_left _ member)
    obtain ⟨later, log, notes⟩ := ih still drained fun task member =>
      clean task (List.mem_append_right _ member)
    have pending := still.pending.trans (congrArg List.length drained)
    have length : (session.enqueue tree).runUntilEmpty.1.log.length =
        session.log.length + tree.size := by
      rw [noted, List.length_append, length_forestLog, sizeAll, sizeAll, Nat.add_zero]
    have unfolded : Session.rounds (tree :: rest) session =
        ((Session.rounds rest (session.enqueue tree).runUntilEmpty.1).1,
          (session.enqueue tree).runUntilEmpty.2.or
            (Session.rounds rest (session.enqueue tree).runUntilEmpty.1).2.1,
          (session.enqueue tree).runUntilEmpty.1.note ::
            (Session.rounds rest (session.enqueue tree).runUntilEmpty.1).2.2) := rfl
    rw [unfolded]
    refine ⟨?_, ?_, ?_⟩
    · rw [ends, later]
      rfl
    · rw [log, noted, List.append_assoc, List.flatMap_cons]
    · rw [notes, note, pending, length, List.length_cons, List.range_succ_eq_map, List.map_cons,
        List.map_map]
      simp only [Function.comp_def, Nat.succ_eq_add_one, List.take_succ_cons, List.take_zero,
        sizeAll, Nat.add_zero, Nat.add_assoc]
      rfl

/-- Enqueuing trees notes nothing and ends no worker. -/
theorem enqueueEach_silent (trees : List (TaskTree ι)) (session : Session ι) :
    (session.enqueueEach trees).1.log = session.log ∧
      (session.enqueueEach trees).1.pool.living = session.pool.living := by
  induction trees generalizing session with
  | nil => exact ⟨rfl, rfl⟩
  | cons tree rest ih => exact ih (session.enqueue tree)

/-- A session of one worker, given trees before its run and then one in each round, none of
whose tasks ends in a fault: its log is that of the trees before the run as one forest, and
then of the tree of each round; and each time the pool is drained, nothing is pending and as
many tasks have been executed as all trees so far have. -/
theorem run_logged {session : Session ι} (opens : Session.opened 1 = .ok session)
    (before trees : List (TaskTree ι)) (awaitIdle : Bool)
    (clean : ∀ task ∈ Lifecycle.order before trees, task.fault = none) :
    let ended := (session.enqueueEach before).1.run awaitIdle trees
    ended.1.log = forestLog before ++ trees.flatMap (fun tree => forestLog [tree]) ∧
      ∃ idle, ended.2 = .ok ⟨(List.range (trees.length + 1)).map fun count =>
        ⟨0, sizeAll (before ++ trees.take count)⟩, idle⟩ := by
  obtain ⟨-, rfl⟩ := Crew.session_eq_of_opened opens
  have fresh : (⟨{ workers := 1 }, []⟩ : Session ι).pool.pending = 0 := rfl
  obtain ⟨queue, enqueued⟩ := executed_enqueueEach before fresh rfl rfl
  obtain ⟨unlogged, living⟩ := enqueueEach_silent before ⟨{ workers := 1 }, []⟩
  have alone : (Session.enqueueEach ⟨{ workers := 1 }, []⟩ before).1.Alone :=
    ⟨living, enqueued.pending, enqueued.isOpen, enqueued.poisoned⟩
  rw [Lifecycle.order] at clean
  obtain ⟨ends, still, drained, noted⟩ := alone.runUntilEmpty fun task member =>
    clean task (List.mem_append_left _ (by rwa [queue] at member))
  obtain ⟨later, log, notes⟩ := still.rounds trees drained fun task member =>
    clean task (List.mem_append_right _ member)
  rw [queue, unlogged] at noted
  have forest : (⟨{ workers := 1 }, []⟩ : Session ι).pool.queue ++ before = before := rfl
  have empty : (⟨{ workers := 1 }, []⟩ : Session ι).log = [] := rfl
  rw [forest, empty, List.nil_append] at noted
  have pending := still.pending.trans (congrArg List.length drained)
  intro ended
  constructor
  · change (Session.run _ awaitIdle trees).1.log = _
    rw [Crew.run_eq]
    exact log.trans (congrArg (· ++ _) noted)
  · refine ⟨if awaitIdle then some (hasIdleWorker (rounds trees
      (Session.enqueueEach ⟨{ workers := 1 }, []⟩ before).1.runUntilEmpty.1).1.pool true 0)
      else none, ?_⟩
    change (Session.run _ awaitIdle trees).2 = _
    rw [run]
    simp only [ends, later, notes, note, pending, noted, length_forestLog]
    rw [List.range_succ_eq_map, List.map_cons, List.map_map]
    simp only [Function.comp_def, Nat.succ_eq_add_one, List.take_zero, List.append_nil,
      sizeAll_append]
    rfl

end Session

end RadixSort
