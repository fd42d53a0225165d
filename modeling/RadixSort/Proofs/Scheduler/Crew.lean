import RadixSort.Scheduler.Crew
import Mathlib.Data.List.Perm.Basic

/-!
# What a crew keeps at every action

A task that has been enqueued is in one of few places: the owner has counted it and not
put it into the queue, a task has counted it and not put it into the queue, it waits there
under a ticket, a worker executes it, or it has been counted off. The counter of the pool is
the number of tasks in all these places but the last.

Each action moves one task from one place to the next. The order of the workers does not
matter for any of this, so the worker that acts is put in front of the others.
-/
namespace RadixSort

variable {τ σ : Type}

namespace Worker

/-- The task that a worker executes, or has executed and not counted off. -/
def held : Worker τ → List (Execution τ)
  | .busy execution _ _ => [execution]
  | .failing execution _ => [execution]
  | _ => []

/-- The tasks that the task of a worker has still to put into the queue. -/
def unqueued : Worker τ → List τ
  | .busy _ left _ => left
  | _ => []

/-- The task of a worker has counted another and not put it into the queue yet. -/
def announces : Worker τ → Bool
  | .busy _ _ counted => counted
  | _ => false

/-- A worker that executes no task. -/
structure Rests (worker : Worker τ) : Prop where
  held : worker.held = []
  unqueued : worker.unqueued = []
  announces : worker.announces = false

/-- A worker that is done executes no task. -/
theorem rests_of_isDone {worker : Worker τ} (done : worker.isDone = true) : worker.Rests := by
  cases worker <;> simp [isDone] at done <;> exact ⟨rfl, rfl, rfl⟩

/-- A worker that holds no task executes none. -/
theorem rests_of_held {worker : Worker τ} (none : worker.held = []) : worker.Rests := by
  cases worker <;> simp [held] at none <;> exact ⟨rfl, rfl, rfl⟩

/-- A worker that has notified the owner executes no task. -/
theorem rests_notified (fault : Option Fault) : (notified fault : Worker τ).Rests := by
  cases fault <;> exact ⟨rfl, rfl, rfl⟩

end Worker

namespace Crew

/-- The tasks that are being executed. -/
def executing (crew : Crew τ σ) : List (Execution τ) := crew.workers.flatMap Worker.held

/-- The number of tasks that have been enqueued so far. A task is enqueued from the moment
in which it is counted. -/
def enqueued (crew : Crew τ σ) : Nat :=
  crew.issued + crew.entering.length + crew.workers.countP Worker.announces

/-- The tasks that have been enqueued, or will be by those that were taken, and not been
taken. -/
def untaken (crew : Crew τ σ) : List τ :=
  crew.queue.map Ticket.task ++ (crew.entering ++ crew.workers.flatMap Worker.unqueued)

/-- The numbers of the tasks that have been taken. -/
def numbers (crew : Crew τ σ) : List Nat := crew.started.map fun execution => execution.number

/-- What holds of a pool between any two actions. -/
structure Sound (crew : Crew τ σ) : Prop where
  numbered : (crew.numbers ++ crew.queue.map Ticket.number).Perm (List.range crew.issued)
  counted : crew.pending = crew.queue.length + crew.entering.length + crew.executing.length +
    crew.workers.countP Worker.announces
  executed : crew.numbers.Perm
    (crew.ended ++ crew.executing.map fun execution => execution.number)
  started : ∀ execution ∈ crew.executing, execution ∈ crew.started
  reported : crew.poisoned = true → ∃ execution ∈ crew.started, execution.fault ≠ none

variable {crew : Crew τ σ} {worker next : Worker τ} {others : List (Worker τ)}
  {execute : Nat → τ → σ → Pool.Effect τ σ}

/-- A pool that has just been opened is sound. -/
theorem sound_opened (state : σ) : (opened state : Crew τ σ).Sound where
  numbered := List.Perm.refl _
  counted := rfl
  executed := List.Perm.refl _
  started := by simp [executing, opened]
  reported := by simp [opened]

/-- The order of the workers does not matter. -/
theorem Sound.reorder {reordered : List (Worker τ)} (sound : crew.Sound)
    (same : crew.workers.Perm reordered) :
    ({ crew with workers := reordered } : Crew τ σ).Sound := by
  have executing : crew.executing.Perm (executing { crew with workers := reordered }) :=
    same.flatMap_right _
  constructor
  case numbered => exact sound.numbered
  case counted =>
    rw [← executing.length_eq, ← same.countP_eq]
    exact sound.counted
  case executed => exact sound.executed.trans ((executing.map _).append_left _)
  case started =>
    exact fun execution member => sound.started execution (executing.mem_iff.mpr member)
  case reported => exact sound.reported

/-- Where the owner is with its wait does not matter. -/
theorem Sound.watch (sound : crew.Sound) (owner : Watch) :
    ({ crew with owner } : Crew τ σ).Sound :=
  ⟨sound.numbered, sound.counted, sound.executed, sound.started, sound.reported⟩

/-- The worker at a position and the others, whatever that worker becomes. -/
theorem exists_others {position : Nat} (here : crew.workers[position]? = some worker) :
    ∃ others, crew.workers.Perm (worker :: others) ∧
      ∀ next, (next :: others).Perm (crew.become position next).workers := by
  obtain ⟨inside, rfl⟩ := List.getElem?_eq_some_iff.mp here
  refine ⟨crew.workers.eraseIdx position, (List.getElem_cons_eraseIdx_perm inside).symm, ?_⟩
  exact fun next => (List.set_perm_cons_eraseIdx inside next).symm

/-- A worker that executes no task before or after its action changes nothing. -/
theorem Sound.idle (sound : ({ crew with workers := worker :: others } : Crew τ σ).Sound)
    (before : worker.Rests) (after : next.Rests) :
    ({ crew with workers := next :: others } : Crew τ σ).Sound := by
  obtain ⟨numbered, counted, executed, started, reported⟩ := sound
  simp only [executing, List.flatMap_cons, List.countP_cons, before.held,
    before.announces] at counted executed started
  constructor
  case numbered => exact numbered
  case reported => exact reported
  all_goals
    simp only [executing, List.flatMap_cons, List.countP_cons, after.held, after.announces]
    assumption

/-- Workers that are done execute no task. -/
theorem held_of_done (idle : ∀ worker ∈ crew.workers, worker.isDone) : crew.executing = [] :=
  List.flatMap_eq_nil_iff.mpr fun worker member =>
    (Worker.rests_of_isDone (idle worker member)).held

/-- Workers that are ready execute no task. -/
theorem rests_of_replicate {count : Nat} {worker : Worker τ}
    (member : worker ∈ List.replicate count Worker.ready) : worker.Rests := by
  rw [List.eq_of_mem_replicate member]
  exact ⟨rfl, rfl, rfl⟩

/-- Workers that are done are replaced by such that are ready. -/
theorem Sound.start (sound : crew.Sound) (count : Nat)
    (idle : ∀ worker ∈ crew.workers, worker.isDone) :
    ({ crew with workers := List.replicate count .ready } : Crew τ σ).Sound := by
  obtain ⟨numbered, counted, executed, started, reported⟩ := sound
  have held : crew.executing = [] := held_of_done idle
  have announces : crew.workers.countP Worker.announces = 0 :=
    List.countP_eq_zero.mpr fun worker member => by
      simp [(Worker.rests_of_isDone (idle worker member)).announces]
  have newHeld : (List.replicate count (.ready : Worker τ)).flatMap Worker.held = [] :=
    List.flatMap_eq_nil_iff.mpr fun worker member => (rests_of_replicate member).held
  have newAnnounces : (List.replicate count (.ready : Worker τ)).countP Worker.announces = 0 :=
    List.countP_eq_zero.mpr fun worker member => by
      simp [(rests_of_replicate member).announces]
  rw [held] at counted executed started
  rw [announces] at counted
  constructor
  case numbered => exact numbered
  case reported => exact reported
  all_goals
    simp only [executing, newHeld, newAnnounces]
    assumption

/-- The owner counts a task. -/
theorem Sound.announce (sound : crew.Sound) (task : τ) : (crew.announce task).Sound := by
  obtain ⟨numbered, counted, executed, started, reported⟩ := sound
  refine ⟨numbered, ?_, executed, started, reported⟩
  change crew.pending + 1 = crew.queue.length + (crew.entering ++ [task]).length +
    crew.executing.length + crew.workers.countP Worker.announces
  rw [List.length_append, List.length_singleton]
  omega

/-- The owner puts a counted task into the queue. -/
theorem Sound.submit (sound : crew.Sound) {task : τ} {rest : List τ}
    (waits : crew.entering = task :: rest) :
    ({ crew.push task with entering := rest } : Crew τ σ).Sound := by
  obtain ⟨numbered, counted, executed, started, reported⟩ := sound
  refine ⟨?_, ?_, executed, started, reported⟩
  · change (crew.numbers ++ (crew.push task).queue.map Ticket.number).Perm
      (List.range (crew.issued + 1))
    rw [push, List.map_append, ← List.append_assoc, List.range_succ]
    exact numbered.append_right _
  · have longer : (crew.push task).queue.length = crew.queue.length + 1 :=
      List.length_append.trans rfl
    change crew.pending = (crew.push task).queue.length + rest.length +
      crew.executing.length + crew.workers.countP Worker.announces
    rw [waits, List.length_cons] at counted
    omega

/-- A worker takes a task from the queue, whose tasks are then to be enqueued. -/
theorem Sound.take (sound : ({ crew with workers := .searching :: others } : Crew τ σ).Sound)
    {place : Nat} {ticket : Ticket τ} (queued : crew.queue[place]? = some ticket)
    (execution : Execution τ) (same : execution.toTicket = ticket) (left : List τ) (state : σ) :
    ({ crew with
      workers := .busy execution left false :: others
      state
      queue := crew.queue.eraseIdx place
      started := crew.started ++ [execution] } : Crew τ σ).Sound := by
  obtain ⟨inside, rfl⟩ := List.getElem?_eq_some_iff.mp queued
  have taken := (List.getElem_cons_eraseIdx_perm inside).symm
  obtain ⟨numbered, counted, executed, started, reported⟩ := sound
  constructor
  case numbered =>
    have moved := taken.map Ticket.number
    rw [← same] at moved
    refine List.Perm.trans ?_ numbered
    simp only [numbers, List.map_append, List.map_cons, List.map_nil, List.append_assoc,
      List.singleton_append]
    exact moved.symm.append_left _
  case counted =>
    have fewer : crew.queue.length = (crew.queue.eraseIdx place).length + 1 := taken.length_eq
    simp only [executing, List.flatMap_cons, List.countP_cons, Worker.held, Worker.announces,
      List.length_append, List.length_singleton, List.nil_append] at counted ⊢
    simp only [Bool.false_eq_true, if_false] at counted ⊢
    omega
  case executed =>
    rw [List.perm_iff_count] at executed ⊢
    intro number
    have before := executed number
    simp only [numbers, executing, List.flatMap_cons, Worker.held, List.map_append, List.map_cons,
      List.map_nil, List.count_append, List.nil_append] at before ⊢
    omega
  case started =>
    intro other member
    rcases List.mem_append.mp member with own | old
    · exact List.mem_append_right _ own
    · exact List.mem_append_left _ (started other old)
  case reported =>
    intro poisoned
    obtain ⟨faulty, member, fault⟩ := reported poisoned
    exact ⟨faulty, List.mem_append_left _ member, fault⟩

/-- A task counts another that it is about to enqueue. -/
theorem Sound.count {execution : Execution τ} {left : List τ}
    (sound : ({ crew with workers := .busy execution left false :: others } : Crew τ σ).Sound) :
    ({ crew with
      workers := .busy execution left true :: others
      pending := crew.pending + 1 } : Crew τ σ).Sound := by
  obtain ⟨numbered, counted, executed, started, reported⟩ := sound
  refine ⟨numbered, ?_, executed, started, reported⟩
  simp only [executing, List.flatMap_cons, List.countP_cons, Worker.held, Worker.announces,
    Bool.false_eq_true, if_true, if_false] at counted ⊢
  omega

/-- A task puts a counted task into the queue. -/
theorem Sound.spawn {execution : Execution τ} {task : τ} {left : List τ}
    (sound : ({ crew with workers := .busy execution (task :: left) true :: others } :
      Crew τ σ).Sound) :
    (({ crew with workers := .busy execution left false :: others } : Crew τ σ).push
      task).Sound := by
  -- What the task hands over enters the queue as if the owner had counted it.
  have entered : ({ crew with
      workers := .busy execution left false :: others
      entering := task :: crew.entering } : Crew τ σ).Sound := by
    obtain ⟨numbered, counted, executed, started, reported⟩ := sound
    refine ⟨numbered, ?_, executed, started, reported⟩
    simp only [executing, List.flatMap_cons, List.countP_cons, Worker.held, Worker.announces,
      Bool.false_eq_true, if_true, if_false, List.length_cons] at counted ⊢
    omega
  exact entered.submit rfl

/-- A task that has ended is counted off, and its worker rests. -/
theorem Sound.countOff {execution : Execution τ} (held : worker.held = [execution])
    (announces : worker.announces = false) (rests : next.Rests)
    (sound : ({ crew with workers := worker :: others } : Crew τ σ).Sound) :
    ({ crew with
      workers := next :: others
      pending := crew.pending - 1
      ended := crew.ended ++ [execution.number] } : Crew τ σ).Sound := by
  obtain ⟨numbered, counted, executed, started, reported⟩ := sound
  simp only [executing, List.flatMap_cons, List.countP_cons, held,
    announces] at counted executed started
  refine ⟨numbered, ?_, ?_, ?_, reported⟩
  · simp only [executing, List.flatMap_cons, List.countP_cons, rests.held, rests.announces,
      List.length_append, List.length_nil, List.length_singleton] at counted ⊢
    omega
  · simp only [executing, List.flatMap_cons, rests.held]
    rw [List.append_assoc]
    exact executed
  · simp only [executing, List.flatMap_cons, rests.held]
    exact fun other member => started other (List.mem_append_right _ member)

/-- A task that ends in a fault reports it. -/
theorem Sound.report {execution : Execution τ} {fault : Fault}
    (faulty : execution.fault = some fault)
    (sound : ({ crew with workers := .busy execution [] false :: others } : Crew τ σ).Sound) :
    ({ crew with
      workers := .failing execution fault :: others
      poisoned := true } : Crew τ σ).Sound where
  numbered := sound.numbered
  counted := sound.counted
  executed := sound.executed
  started := sound.started
  reported _ := ⟨execution, sound.started execution List.mem_cons_self, by
    rw [faulty]
    exact Option.some_ne_none _⟩

/-- What a worker does when it has counted off a task, it executes none. -/
theorem rests_afterwards (crew : Crew τ σ) : crew.afterwards.Rests := by
  unfold afterwards
  split <;> exact ⟨rfl, rfl, rfl⟩

/-- Every action keeps the pool sound. The worker that acts is put in front, and taken back
to its position afterwards. -/
theorem Step.sound {after : Crew τ σ} (action : Step execute crew after) (sound : crew.Sound) :
    after.Sound := by
  have resting : (Worker.ready : Worker τ).Rests ∧ (Worker.searching : Worker τ).Rests ∧
      (Worker.parked : Worker τ).Rests ∧ (Worker.retired : Worker τ).Rests :=
    ⟨⟨rfl, rfl, rfl⟩, ⟨rfl, rfl, rfl⟩, ⟨rfl, rfl, rfl⟩, ⟨rfl, rfl, rfl⟩⟩
  obtain ⟨ready, searching, parked, retired⟩ := resting
  cases action with
  | start count _ idle => exact sound.start count idle
  | announce task _ => exact sound.announce task
  | submit task rest _ waits => exact sound.submit waits
  | close =>
    exact ⟨sound.numbered, sound.counted, sound.executed, sound.started, sound.reported⟩
  | look => exact sound.watch _
  | findOpen position here _ =>
    obtain ⟨others, front, back⟩ := exists_others here
    exact ((sound.reorder front).idle ready searching).reorder (back _)
  | findClosed position here _ =>
    obtain ⟨others, front, back⟩ := exists_others here
    exact ((sound.reorder front).idle ready retired).reorder (back _)
  | take position place ticket here queued =>
    obtain ⟨others, front, back⟩ := exists_others here
    exact ((sound.reorder front).take queued _ rfl _ _).reorder (back _)
  | park position here _ _ =>
    obtain ⟨others, front, back⟩ := exists_others here
    exact ((sound.reorder front).idle searching parked).reorder (back _)
  | wake position here _ _ =>
    obtain ⟨others, front, back⟩ := exists_others here
    exact ((sound.reorder front).idle parked ready).reorder (back _)
  | count position execution left here _ =>
    obtain ⟨others, front, back⟩ := exists_others here
    exact (sound.reorder front).count.reorder (back _)
  | spawn position execution task left here =>
    obtain ⟨others, front, back⟩ := exists_others here
    exact (sound.reorder front).spawn.reorder (back _)
  | finish position execution here _ =>
    obtain ⟨others, front, back⟩ := exists_others here
    exact (Sound.countOff rfl rfl crew.rests_afterwards (sound.reorder front)).reorder (back _)
  | report position execution fault here faulty =>
    obtain ⟨others, front, back⟩ := exists_others here
    exact ((sound.reorder front).report faulty).reorder (back _)
  | fail position execution fault here =>
    obtain ⟨others, front, back⟩ := exists_others here
    exact (Sound.countOff rfl rfl ⟨rfl, rfl, rfl⟩ (sound.reorder front)).reorder (back _)
  | notify position fault here _ =>
    obtain ⟨others, front, back⟩ := exists_others here
    have rests := Worker.rests_notified (τ := τ) fault
    exact (((sound.reorder front).idle ⟨rfl, rfl, rfl⟩ rests).reorder (back _)).watch _

/-- Any number of actions keeps the pool sound. -/
theorem Run.sound {first last : Crew τ σ} (run : Run execute first last) (sound : first.Sound) :
    last.Sound := by
  induction run with
  | done => exact sound
  | step _ action ih => exact action.sound ih

/-- Whatever comes about from a pool that has just been opened is sound. -/
theorem sound_of_reachable {state : σ} (reachable : Reachable execute state crew) : crew.Sound :=
  Run.sound reachable (sound_opened state)

end Crew

end RadixSort
