import RadixSort.Proofs.Scheduler.Families

/-!
# A session is one of the runs of a crew

A session executes one task at a time, from start to end. One worker of a crew can do the
same by its single actions: it finds the pool open, takes the task, counts each child and
puts it into the queue, and counts the task off, having reported the fault if the task ends
in one; then it notifies the owner if it has to. So whatever a session does comes about in a
crew, and what is known of all states of a crew holds between any two tasks of a session.

The crew keeps its tasks under tickets and remembers what has been taken. It shows a session
if the names and trees behind these are those of the session's queue and log.
-/
namespace RadixSort

variable {ι : Type}

namespace Pool

variable {τ σ : Type}

/-- Whether a pool is closed and whether it is poisoned does not depend on what waits. -/
theorem switches_enqueueAll (pool : Pool τ) (tasks : List τ) :
    (pool.enqueueAll tasks).closed = pool.closed ∧
      (pool.enqueueAll tasks).poisoned = pool.poisoned := by
  induction tasks generalizing pool with
  | nil => exact ⟨rfl, rfl⟩
  | cons task rest ih => exact ih (pool.enqueue task)

/-- Taking a task neither closes nor poisons a pool. -/
theorem switches_of_take {pool taken : Pool τ} {place : Nat} {task : τ}
    (took : pool.take? place = some (task, taken)) :
    taken.closed = pool.closed ∧ taken.poisoned = pool.poisoned := by
  unfold take? at took
  split at took
  · cases took
    exact ⟨rfl, rfl⟩
  · cases took

/-- A task that ends without a fault neither closes nor poisons a pool. -/
theorem switches_of_absorb (pool : Pool τ) {effect : Effect τ σ} (clean : effect.fault = none) :
    (pool.absorb effect).closed = pool.closed ∧
      (pool.absorb effect).poisoned = pool.poisoned := by
  rw [absorb, clean]
  exact switches_enqueueAll pool effect.spawned

end Pool

namespace Crew

open TaskTree

/-- Runs one after the other are a run. -/
theorem Run.trans {τ σ : Type} {execute : Nat → τ → σ → Pool.Effect τ σ}
    {first middle last : Crew τ σ} (before : Run execute first middle)
    (after : Run execute middle last) : Run execute first last := by
  induction after with
  | done => exact before
  | step _ action ih => exact ih.step action

/-- A crew shows the pool and the log of a session between two tasks. -/
structure Shows (crew : Crew (TaskTree ι) Unit) (pool : Pool (TaskTree ι))
    (log : List (LogEntry ι)) : Prop where
  queue : crew.queue.map Ticket.task = pool.queue
  pending : crew.pending = pool.pending
  poisoned : crew.poisoned = pool.poisoned
  closed : crew.closed = pool.closed
  owner : crew.owner = .away
  entering : crew.entering = []
  started : (crew.started.map fun execution => execution.task.id) = log.map LogEntry.id

/-- A worker is ready to look for a task. -/
def Manned (crew : Crew (TaskTree ι) Unit) : Prop :=
  ∃ position : Nat, crew.workers[position]? = some .ready

/-- A crew follows a session if it shows it and a worker is ready, unless a task has ended
in a fault. -/
structure Follows (crew : Crew (TaskTree ι) Unit) (session : Session ι) : Prop where
  shows : crew.Shows session.pool session.log
  manned : session.pool.poisoned = false → crew.Manned

variable {crew : Crew (TaskTree ι) Unit} {pool taken : Pool (TaskTree ι)} {log : List (LogEntry ι)}

/-- A task that is counted and put into the queue at once. -/
def enter (crew : Crew (TaskTree ι) Unit) (tree : TaskTree ι) : Crew (TaskTree ι) Unit :=
  { crew.push tree with pending := crew.pending + 1 }

/-- Putting a task into the queue is shown by putting it there. -/
theorem Shows.enter (shows : crew.Shows pool log) (tree : TaskTree ι) :
    (crew.enter tree).Shows (pool.enqueue tree) log where
  queue := by
    change (crew.queue ++ [_]).map Ticket.task = pool.queue ++ [tree]
    rw [List.map_append, shows.queue]
    rfl
  pending := congrArg (· + 1) shows.pending
  poisoned := shows.poisoned
  closed := shows.closed
  owner := shows.owner
  entering := shows.entering
  started := shows.started

/-- Putting tasks into the queue in order is shown by putting them there. -/
theorem Shows.enterAll (shows : crew.Shows pool log) (trees : List (TaskTree ι)) :
    (trees.foldl Crew.enter crew).Shows (pool.enqueueAll trees) log := by
  induction trees generalizing crew pool with
  | nil => exact shows
  | cons tree rest ih => exact ih (shows.enter tree)

/-- Putting tasks into the queue leaves the workers as they are. -/
theorem workers_enterAll (trees : List (TaskTree ι)) :
    (trees.foldl Crew.enter crew).workers = crew.workers := by
  induction trees generalizing crew with
  | nil => rfl
  | cons tree rest ih => exact ih

/-- A task enqueues its children in order.

Induct over the children that are left. Each is counted and then put into the queue. -/
theorem run_enterAll (position : Nat) (execution : Execution (TaskTree ι))
    (inside : position < crew.workers.length) (left : List (TaskTree ι)) :
    Run TaskTree.execute (crew.become position (.busy execution left false))
      ((left.foldl enter crew).become position (.busy execution [] false)) := by
  induction left generalizing crew with
  | nil => exact .done _
  | cons child rest ih =>
    have here (worker : Worker (TaskTree ι)) :
        (crew.become position worker).workers[position]? = some worker :=
      List.getElem?_set_self inside
    have counts : Step TaskTree.execute
        (crew.become position (.busy execution (child :: rest) false))
        { crew.become position (.busy execution (child :: rest) true) with
          pending := crew.pending + 1 } := by
      have action : Step TaskTree.execute _ _ := .count _ position execution (child :: rest)
        (here _) (by simp)
      simpa only [become, List.set_set] using action
    have spawns : Step TaskTree.execute
        { crew.become position (.busy execution (child :: rest) true) with
          pending := crew.pending + 1 }
        ((crew.enter child).become position (.busy execution rest false)) := by
      have action : Step TaskTree.execute _ _ := .spawn
        { crew.become position (.busy execution (child :: rest) true) with
          pending := crew.pending + 1 } position execution child rest (here _)
      simpa only [become, push, enter, List.set_set] using action
    exact (((Run.done _).step counts).step spawns).trans (ih inside)

/-- A worker takes a task that waits, having found the pool open. -/
theorem run_take {position place : Nat} {ticket : Ticket (TaskTree ι)}
    (here : crew.workers[position]? = some Worker.ready) (isOpen : crew.closed = false)
    (queued : crew.queue[place]? = some ticket) :
    Run TaskTree.execute crew (crew.takeUp TaskTree.execute position place ticket) := by
  have inside := (List.getElem?_eq_some_iff.mp here).1
  have finds : Step TaskTree.execute _ _ := .findOpen crew position here isOpen
  have takes : Step TaskTree.execute _ _ := .take (crew.become position .searching) position
    place ticket (List.getElem?_set_self inside) queued
  simp only [become, takeUp, List.set_set] at finds takes
  exact ((Run.done _).step finds).step takes

/-- A worker that has counted off a task notifies the owner if it has to. -/
theorem Shows.run_notify {position : Nat} (shows : crew.Shows pool log)
    (inside : position < crew.workers.length) (fault : Option Fault) :
    ∃ next, Run TaskTree.execute (crew.become position (.notifying fault)) next ∧
      next.Shows pool log ∧ (fault = none → next.Manned) := by
  have unlocked : (crew.become position (.notifying fault)).owner.locks = false := by
    rw [become, shows.owner]
    rfl
  have notifies : Step TaskTree.execute _ _ := .notify _ position fault
    (List.getElem?_set_self inside) unlocked
  refine ⟨_, (Run.done _).step notifies, ?_, ?_⟩
  · refine ⟨shows.queue, shows.pending, shows.poisoned, shows.closed, ?_, shows.entering,
      shows.started⟩
    change crew.owner.notified = .away
    rw [shows.owner]
    rfl
  · rintro rfl
    exact ⟨position, List.getElem?_set_self (by simpa [become] using inside)⟩

/-- A task whose children have all been enqueued ends, and is counted off. Its worker is
ready again unless it ends in a fault. -/
theorem Shows.run_end {position : Nat} (shows : crew.Shows pool log)
    (inside : position < crew.workers.length) (execution : Execution (TaskTree ι)) :
    ∃ next, Run TaskTree.execute (crew.become position (.busy execution [] false)) next ∧
      next.Shows (pool.finish execution.fault.isSome) log ∧
      (execution.fault = none → next.Manned) := by
  have here (worker : Worker (TaskTree ι)) :
      (crew.become position worker).workers[position]? = some worker :=
    List.getElem?_set_self inside
  let counted : Crew (TaskTree ι) Unit := { crew with
    pending := crew.pending - 1, ended := crew.ended ++ [execution.number] }
  have pending := congrArg (· - 1) shows.pending
  cases ends : execution.fault with
  | none =>
    have shown : counted.Shows (pool.finish false) log :=
      ⟨shows.queue, pending, shows.poisoned, shows.closed, shows.owner, shows.entering,
        shows.started⟩
    have finishes : Step TaskTree.execute _ _ := .finish _ position execution
      (here (.busy execution [] false)) ends
    simp only [countOff, become, List.set_set] at finishes
    by_cases last : crew.pending = 1
    · rw [afterwards, if_pos last] at finishes
      obtain ⟨next, notifies, showed, manned⟩ := shown.run_notify inside none
      exact ⟨next, ((Run.done _).step finishes).trans notifies, showed, fun _ => manned rfl⟩
    · rw [afterwards, if_neg last] at finishes
      refine ⟨counted.become position .ready, (Run.done _).step finishes, ?_, fun _ =>
        ⟨position, List.getElem?_set_self inside⟩⟩
      exact ⟨shown.queue, shown.pending, shown.poisoned, shown.closed, shown.owner,
        shown.entering, shown.started⟩
  | some fault =>
    let hurt : Crew (TaskTree ι) Unit := { counted with poisoned := true }
    have poisoned : true = (pool.finish true).poisoned := by simp [Pool.finish, Pool.poisoned]
    have shown : hurt.Shows (pool.finish true) log :=
      ⟨shows.queue, pending, poisoned, shows.closed, shows.owner, shows.entering,
        shows.started⟩
    have reports : Step TaskTree.execute _ _ := .report _ position execution fault
      (here (.busy execution [] false)) ends
    simp only [become, List.set_set] at reports
    have fails : Step TaskTree.execute _ _ := .fail
      { crew.become position (.failing execution fault) with poisoned := true } position execution
      fault (here (.failing execution fault))
    simp only [countOff, become, List.set_set] at fails
    obtain ⟨next, notifies, showed, -⟩ := shown.run_notify inside (some fault)
    exact ⟨next, (((Run.done _).step reports).step fails).trans notifies, showed,
      fun clean => by cases clean⟩

/-- A task of a session is executed by a worker that is ready. -/
theorem Shows.execute {task : TaskTree ι} {place : Nat} (shows : crew.Shows pool log)
    (manned : crew.Manned) (isOpen : pool.closed = false)
    (took : pool.take? place = some (task, taken)) (turn : Nat) :
    ∃ next, Run TaskTree.execute crew next ∧
      next.Shows (taken.absorb (Session.execute turn taken task log))
        (Session.execute turn taken task log).state ∧
      (task.fault = none → next.Manned) := by
  obtain ⟨position, here⟩ := manned
  have inside := (List.getElem?_eq_some_iff.mp here).1
  obtain ⟨ticket, queued, rfl, rfl⟩ : ∃ ticket, crew.queue[place]? = some ticket ∧
      ticket.task = task ∧ taken = { pool with queue := pool.queue.eraseIdx place } := by
    unfold Pool.take? at took
    split at took
    · rename_i found listed
      cases took
      rw [← shows.queue, List.getElem?_map] at listed
      obtain ⟨ticket, queued, same⟩ := Option.map_eq_some_iff.mp listed
      exact ⟨ticket, queued, same, rfl⟩
    · cases took
  let execution := crew.execution TaskTree.execute ticket
  let begun : Crew (TaskTree ι) Unit := { crew with
    queue := crew.queue.eraseIdx place
    started := crew.started ++ [execution] }
  have shown : begun.Shows { pool with queue := pool.queue.eraseIdx place }
      (Session.execute turn { pool with queue := pool.queue.eraseIdx place } ticket.task
        log).state := by
    refine ⟨?_, shows.pending, shows.poisoned, shows.closed, shows.owner, shows.entering, ?_⟩
    · change (crew.queue.eraseIdx place).map Ticket.task = pool.queue.eraseIdx place
      rw [← shows.queue, List.eraseIdx_map]
    · change ((crew.started ++ [execution]).map fun execution => execution.task.id) =
        (log ++ [_]).map LogEntry.id
      rw [List.map_append, shows.started, List.map_append]
      rfl
  have takes := run_take here (shows.closed.trans isOpen) queued
  have within : position < begun.workers.length := inside
  have enters := run_enterAll position execution within ticket.task.children
  have filled := shown.enterAll ticket.task.children
  have still : position < (ticket.task.children.foldl Crew.enter begun).workers.length := by
    rw [workers_enterAll]
    exact inside
  obtain ⟨next, ends, ended, manned⟩ := filled.run_end still execution
  exact ⟨next, (takes.trans enters).trans ends, ended, manned⟩

/-- Tasks that are executed one after the other are executed by a worker that is ready.

Induct over the number of tasks. The last one is the first that ends in a fault. -/
theorem Shows.serve (pick : Nat → Nat) (allowance turn : Nat) (shows : crew.Shows pool log)
    (manned : crew.Manned) (isOpen : pool.closed = false) (clean : pool.poisoned = false) :
    ∃ last, Run TaskTree.execute crew last ∧
      last.Shows (Pool.serve Session.execute pick allowance turn pool log).pool
        (Pool.serve Session.execute pick allowance turn pool log).state ∧
      ((Pool.serve Session.execute pick allowance turn pool log).pool.poisoned = false →
        last.Manned) := by
  induction allowance generalizing turn crew pool log with
  | zero => exact ⟨crew, .done crew, shows, fun _ => manned⟩
  | succ allowance ih =>
    rw [Pool.serve]
    split
    · exact ⟨crew, .done crew, shows, fun _ => manned⟩
    · rename_i task taken took
      obtain ⟨next, run, shown, ready⟩ := shows.execute manned isOpen took turn
      obtain ⟨still, whole⟩ := Pool.switches_of_take took
      cases ends : task.fault with
      | some fault =>
        have fault_eq : (Session.execute turn taken task log).fault = some fault := ends
        simp only [fault_eq]
        refine ⟨next, run, shown, fun unhurt => ?_⟩
        simp [Pool.absorb, Pool.finish, Pool.poisoned, fault_eq] at unhurt
      | none =>
        have fault_eq : (Session.execute turn taken task log).fault = none := ends
        obtain ⟨same, unhurt⟩ := Pool.switches_of_absorb taken fault_eq
        simp only [fault_eq]
        obtain ⟨last, later, rest⟩ := ih (turn + 1) shown (ready ends)
          (same.trans (still.trans isOpen)) (unhurt.trans (whole.trans clean))
        exact ⟨last, run.trans later, rest⟩

/-- The owner enqueues a tree. -/
theorem Shows.enqueue (shows : crew.Shows pool log) (tree : TaskTree ι) :
    ∃ next, Run TaskTree.execute crew next ∧ next.Shows (pool.enqueue tree) log ∧
      next.workers = crew.workers := by
  have counts : Step TaskTree.execute _ _ := .announce crew tree shows.owner
  have counted : crew.entering ++ [tree] = [tree] := by rw [shows.entering, List.nil_append]
  have submits : Step TaskTree.execute _ _ := .submit (crew.announce tree) tree [] shows.owner
    counted
  refine ⟨_, ((Run.done _).step counts).step submits, ?_, rfl⟩
  have entered := shows.enter tree
  exact ⟨entered.queue, entered.pending, entered.poisoned, entered.closed, entered.owner, rfl,
    entered.started⟩

/-- The owner enqueues trees one after the other. -/
theorem Shows.enqueueEach {session : Session ι} (shows : crew.Shows session.pool session.log)
    (trees : List (TaskTree ι)) :
    ∃ next, Run TaskTree.execute crew next ∧ next.Shows (session.enqueueEach trees).1.pool
      (session.enqueueEach trees).1.log ∧ next.workers = crew.workers := by
  induction trees generalizing crew session with
  | nil => exact ⟨crew, .done crew, shows, rfl⟩
  | cons tree rest ih =>
    obtain ⟨next, run, shown, same⟩ := shows.enqueue tree
    have enqueued : next.Shows (session.enqueue tree).pool (session.enqueue tree).log := shown
    obtain ⟨last, later, rest⟩ := ih enqueued
    exact ⟨last, run.trans later, rest.1, rest.2.trans same⟩

/-- Draining a pool is followed. -/
theorem Follows.runUntilEmpty {session : Session ι} (follows : crew.Follows session) :
    ∃ next, Run TaskTree.execute crew next ∧ next.Follows session.runUntilEmpty.1 := by
  rw [Session.runUntilEmpty]
  split
  · exact ⟨crew, .done crew, follows⟩
  · rename_i runs
    simp only [Pool.drained, Bool.or_eq_true, not_or, Bool.not_eq_true] at runs
    obtain ⟨⟨-, clean⟩, isOpen⟩ := runs
    obtain ⟨next, run, shown, manned⟩ :=
      follows.shows.serve (fun _ => 0) _ 0 (follows.manned clean) isOpen clean
    exact ⟨next, run, shown, manned⟩

/-- Rounds are followed. -/
theorem Follows.rounds (trees : List (TaskTree ι)) {session : Session ι}
    (follows : crew.Follows session) :
    ∃ next, Run TaskTree.execute crew next ∧ next.Follows (Session.rounds trees session).1 := by
  induction trees generalizing crew session with
  | nil => exact ⟨crew, .done crew, follows⟩
  | cons tree rest ih =>
    obtain ⟨waiting, enters, shown, same⟩ := follows.shows.enqueue tree
    have manned (clean : session.pool.poisoned = false) : waiting.Manned := by
      rw [Manned, same]
      exact follows.manned clean
    obtain ⟨drained, drains, followed⟩ :=
      (Follows.mk shown manned : waiting.Follows (session.enqueue tree)).runUntilEmpty
    obtain ⟨last, later, rest⟩ := ih followed
    exact ⟨last, (enters.trans drains).trans later, rest⟩

/-- A run of a session ends with the pool closed after its rounds. -/
theorem run_eq (session : Session ι) (awaitIdle : Bool) (trees : List (TaskTree ι)) :
    (session.run awaitIdle trees).1 =
      { (Session.rounds trees session.runUntilEmpty.1).1 with
        pool := (Session.rounds trees session.runUntilEmpty.1).1.pool.close } := by
  rw [Session.run]
  dsimp only
  split <;> rfl

/-- A session that can be opened has a worker, and nothing to do. -/
theorem session_eq_of_opened {workers : Nat} {session : Session ι}
    (opens : Session.opened workers = .ok session) :
    0 < workers ∧ session = { pool := { workers } } := by
  obtain ⟨pool, made, same⟩ := bind_eq_ok.mp opens
  cases same
  unfold Pool.opened at made
  split at made
  · cases made
  · cases made
    exact ⟨by omega, rfl⟩

/-- Whatever a session does on a new pool comes about in a crew: the trees enqueued before
the run, the rounds of the run, and its end. -/
theorem reachable_session {workers : Nat} {session : Session ι}
    (opens : Session.opened workers = .ok session) (before trees : List (TaskTree ι))
    (awaitIdle : Bool) :
    ∃ crew, Reachable TaskTree.execute () crew ∧
      crew.Shows ((session.enqueueEach before).1.run awaitIdle trees).1.pool
        ((session.enqueueEach before).1.run awaitIdle trees).1.log := by
  obtain ⟨some, rfl⟩ := session_eq_of_opened opens
  let session : Session ι := { pool := { workers } }
  have fresh : (opened () : Crew (TaskTree ι) Unit).Shows session.pool session.log :=
    ⟨rfl, rfl, rfl, rfl, rfl, rfl, rfl⟩
  obtain ⟨waiting, enters, shown, unmanned⟩ := fresh.enqueueEach before
  have idle : ∀ worker ∈ waiting.workers, worker.isDone := by simp [unmanned, opened]
  have starts : Step TaskTree.execute _ _ := .start waiting workers shown.owner idle
  have follows : Follows { waiting with workers := List.replicate workers .ready }
      (session.enqueueEach before).1 := by
    refine ⟨⟨shown.queue, shown.pending, shown.poisoned, shown.closed, shown.owner,
      shown.entering, shown.started⟩, fun _ => ⟨0, ?_⟩⟩
    simp [some]
  obtain ⟨drained, drains, followed⟩ := follows.runUntilEmpty
  obtain ⟨last, rounds, ended⟩ := followed.rounds trees
  refine ⟨{ last with closed := true },
    (((enters.step starts).trans drains).trans rounds).step
      (.close last ended.shows.owner), ?_⟩
  rw [run_eq]
  obtain ⟨queue, pending, poisoned, -, owner, entering, started⟩ := ended.shows
  exact ⟨queue, pending, poisoned, rfl, owner, entering, started⟩

end Crew

end RadixSort
