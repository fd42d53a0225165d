import RadixSort.Proofs.Scheduler.Crew
import Mathlib.Algebra.GroupWithZero.Nat

/-!
# What an action does to the tasks

Of the tasks that have been enqueued, or will be by those that were taken, an action leaves
all as they are, or adds one that the owner enqueues, or takes one and adds those that it
will enqueue. The cases are told apart once, here. So the number of these tasks can be
accounted for from what was executed.
-/
namespace RadixSort

variable {τ σ : Type} {execute : Nat → τ → σ → Pool.Effect τ σ}

namespace Crew

variable {crew next : Crew τ σ} {position : Nat} {before : Worker τ}

/-- What an action does to the tasks that have not been taken, to those that have, and to the
state that tasks share. -/
inductive Moves (execute : Nat → τ → σ → Pool.Effect τ σ) (crew next : Crew τ σ) : Prop where
  /-- No task is taken. Some may be new. -/
  | stay (more : List τ) (announced : next.announced = crew.announced ++ more)
      (started : next.started = crew.started) (state : next.state = crew.state)
      (untaken : next.untaken.Perm (crew.untaken ++ more))
  /-- A task is taken. -/
  | take (ticket : Ticket τ) (rest : List τ) (announced : next.announced = crew.announced)
      (started : next.started = crew.started ++ [crew.execution execute ticket])
      (state : next.state = (execute crew.started.length ticket.task crew.state).state)
      (before : crew.untaken.Perm (ticket.task :: rest))
      (after : next.untaken.Perm (rest ++ (crew.execution execute ticket).spawned))

/-- Tasks that have still to be enqueued are those of the worker that acts and those of the
others. -/
theorem exists_unqueued (here : crew.workers[position]? = some before) (after : Worker τ) :
    ∃ others, (crew.workers.flatMap Worker.unqueued).Perm (before.unqueued ++ others) ∧
      ((crew.become position after).workers.flatMap Worker.unqueued).Perm
        (after.unqueued ++ others) := by
  obtain ⟨others, front, back⟩ := exists_others here
  exact ⟨others.flatMap Worker.unqueued, front.flatMap_right _,
    ((back after).flatMap_right _).symm⟩

/-- A worker that acts and has as many tasks still to be enqueued as before moves none. -/
theorem moves_of_become (here : crew.workers[position]? = some before) (after : Worker τ)
    (same : after.unqueued = before.unqueued)
    (workers : next.workers = (crew.become position after).workers)
    (queue : next.queue = crew.queue) (entering : next.entering = crew.entering)
    (announced : next.announced = crew.announced) (started : next.started = crew.started)
    (state : next.state = crew.state) : Moves execute crew next := by
  obtain ⟨others, front, back⟩ := exists_unqueued here after
  refine .stay [] (by rw [announced, List.append_nil]) started state ?_
  rw [List.append_nil, untaken, untaken, queue, entering, workers]
  refine List.Perm.append_left _ (List.Perm.append_left _ ?_)
  rw [same] at back
  exact back.trans front.symm

/-- Workers that are done are replaced by such that have no tasks either. -/
theorem moves_of_start (count : Nat) (idle : ∀ worker ∈ crew.workers, worker.isDone) :
    Moves execute crew { crew with workers := List.replicate count .ready } := by
  have none : crew.workers.flatMap Worker.unqueued = [] :=
    List.flatMap_eq_nil_iff.mpr fun worker member =>
      (Worker.rests_of_isDone (idle worker member)).unqueued
  have new : (List.replicate count (.ready : Worker τ)).flatMap Worker.unqueued = [] :=
    List.flatMap_eq_nil_iff.mpr fun worker member => (rests_of_replicate member).unqueued
  refine .stay [] (List.append_nil _).symm rfl rfl ?_
  rw [List.append_nil, untaken, untaken, none, new]

/-- The owner counts a task. -/
theorem moves_of_announce (task : τ) : Moves execute crew (crew.announce task) := by
  refine .stay [task] rfl rfl rfl ?_
  change (crew.queue.map Ticket.task ++ ((crew.entering ++ [task]) ++ _)).Perm _
  rw [untaken, List.append_assoc, List.append_assoc, List.append_assoc]
  exact (List.perm_append_comm.append_left _).append_left _

/-- The owner puts a task into the queue. -/
theorem moves_of_submit {task : τ} {rest : List τ} (counted : crew.entering = task :: rest) :
    Moves execute crew { crew.push task with entering := rest } := by
  refine .stay [] (List.append_nil _).symm rfl rfl ?_
  change ((crew.queue ++ [_]).map Ticket.task ++ (rest ++ _)).Perm _
  rw [untaken, counted, List.map_append, List.append_assoc, List.append_nil]
  rfl

/-- A task puts another into the queue. -/
theorem moves_of_spawn {execution : Execution τ} {task : τ} {left : List τ}
    (here : crew.workers[position]? = some (.busy execution (task :: left) true)) :
    Moves execute crew ((crew.become position (.busy execution left false)).push task) := by
  obtain ⟨others, front, back⟩ := exists_unqueued here (.busy execution left false)
  refine .stay [] (List.append_nil _).symm rfl rfl ?_
  change ((crew.queue ++ [_]).map Ticket.task ++ (crew.entering ++
    (crew.become position (.busy execution left false)).workers.flatMap Worker.unqueued)).Perm _
  rw [untaken, List.map_append, List.append_assoc, List.append_nil]
  refine List.Perm.append_left _ ?_
  refine List.Perm.trans ?_ (front.symm.append_left _)
  refine List.Perm.trans ?_ List.perm_middle.symm
  exact (back.append_left _).cons _

/-- A worker takes a task. -/
theorem moves_of_take {place : Nat} {ticket : Ticket τ}
    (here : crew.workers[position]? = some .searching)
    (queued : crew.queue[place]? = some ticket) :
    Moves execute crew (crew.takeUp execute position place ticket) := by
  let spawned := (crew.execution execute ticket).spawned
  let taken : Worker τ := .busy (crew.execution execute ticket) spawned false
  obtain ⟨others, front, back⟩ := exists_unqueued here taken
  obtain ⟨inside, found⟩ := List.getElem?_eq_some_iff.mp queued
  have waited := ((List.getElem_cons_eraseIdx_perm inside).symm.map Ticket.task)
  rw [found] at waited
  let left := (crew.queue.eraseIdx place).map Ticket.task
  refine .take ticket (left ++ (crew.entering ++ others)) rfl rfl rfl ?_ ?_
  · exact waited.append (front.append_left crew.entering)
  · change (left ++ (crew.entering ++
      (crew.become position taken).workers.flatMap Worker.unqueued)).Perm _
    rw [List.append_assoc, List.append_assoc]
    refine List.Perm.append_left _ (List.Perm.append_left _ ?_)
    exact back.trans List.perm_append_comm

/-- The cases of an action. -/
theorem Step.moves (action : Step execute crew next) : Moves execute crew next := by
  cases action with
  | start count _ idle => exact moves_of_start count idle
  | announce task _ => exact moves_of_announce task
  | submit task rest _ counted => exact moves_of_submit counted
  | close => exact .stay [] (List.append_nil _).symm rfl rfl (by rw [List.append_nil]; rfl)
  | look => exact .stay [] (List.append_nil _).symm rfl rfl (by rw [List.append_nil]; rfl)
  | findOpen position here _ => exact moves_of_become here .searching rfl rfl rfl rfl rfl rfl rfl
  | findClosed position here _ => exact moves_of_become here .retired rfl rfl rfl rfl rfl rfl rfl
  | take position place ticket here queued => exact moves_of_take here queued
  | park position here _ _ => exact moves_of_become here .parked rfl rfl rfl rfl rfl rfl rfl
  | wake position here _ _ => exact moves_of_become here .ready rfl rfl rfl rfl rfl rfl rfl
  | count position execution left here _ =>
    exact moves_of_become here (.busy execution left true) rfl rfl rfl rfl rfl rfl rfl
  | spawn position execution task left here => exact moves_of_spawn here
  | finish position execution here _ =>
    exact moves_of_become here _ crew.rests_afterwards.unqueued rfl rfl rfl rfl rfl rfl
  | report position execution fault here _ =>
    exact moves_of_become here (.failing execution fault) rfl rfl rfl rfl rfl rfl rfl
  | fail position execution fault here =>
    exact moves_of_become here (.notifying (some fault)) rfl rfl rfl rfl rfl rfl rfl
  | notify position fault here _ =>
    exact moves_of_become here _ (Worker.rests_notified fault).unqueued rfl rfl rfl rfl rfl rfl

/-- The number of tasks that the executed tasks enqueue. -/
def offspring (crew : Crew τ σ) : Nat :=
  (crew.started.map fun execution => execution.spawned.length).sum

/-- The tasks that a task enqueues count as soon as it is taken. -/
theorem offspring_takeUp (place : Nat) (ticket : Ticket τ) :
    (crew.takeUp execute position place ticket).offspring =
      crew.offspring + (crew.execution execute ticket).spawned.length := by
  simp [offspring, takeUp]

/-- Every task that has been enqueued, or will be by a task that was taken, has been announced
by the owner or enqueued by such a task. -/
def Balanced (crew : Crew τ σ) : Prop :=
  crew.started.length + crew.untaken.length = crew.announced.length + crew.offspring

/-- Every action keeps the balance. -/
theorem Step.balanced (action : Step execute crew next) (balanced : crew.Balanced) :
    next.Balanced := by
  unfold Balanced at balanced ⊢
  cases action.moves with
  | stay more announced started _ untaken =>
    have length := untaken.length_eq
    rw [List.length_append] at length
    rw [offspring, announced, started, List.length_append]
    rw [offspring] at balanced
    omega
  | take ticket rest announced started _ before after =>
    have fewer := before.length_eq
    have more := after.length_eq
    rw [List.length_cons] at fewer
    rw [List.length_append] at more
    rw [offspring] at balanced
    simp only [offspring, announced, started, List.length_append, List.length_singleton,
      List.map_append, List.map_cons, List.map_nil, List.sum_append, List.sum_singleton]
    omega

/-- Any number of actions keeps the balance. -/
theorem Run.balanced {first last : Crew τ σ} (run : Run execute first last)
    (balanced : first.Balanced) : last.Balanced := by
  induction run with
  | done => exact balanced
  | step _ action ih => exact action.balanced ih

end Crew

end RadixSort
