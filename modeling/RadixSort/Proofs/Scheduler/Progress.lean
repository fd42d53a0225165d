import RadixSort.Proofs.Scheduler.Afterwards
import Mathlib.Algebra.Order.BigOperators.Group.List
import Mathlib.Algebra.Order.Group.Nat

/-!
# A run comes to its end

Every turn uses up some of the effort that is left. Most of it is set aside for the tasks
that have not been executed: a task pays for what its worker does, for notifying the owner
afterwards, and for waking all the workers that sleep when it is put into the queue. A worker
that looks for tasks, sleeps and is woken in vain has been paid for by the task that another
worker took, and an owner that is woken in vain by the worker that notified it. What is set
aside for tasks that nobody has enqueued yet is a reserve, from which a task is paid when
another that enqueues it is taken. So no execution goes on for ever in which the number of
tasks is bounded.

As long as the first run is not over, some turn is possible, and one at which no worker takes
a task out of order. An owner that sleeps although it need not wait is going to be notified,
and otherwise some task is pending. A worker sleeps only while the queue is empty and the pool
is open, so if all of them sleep, no task is pending. The lock is with the owner only while it
can act. So whoever waits for the pool goes on at last, and the run ends.
-/
namespace RadixSort

variable {τ σ : Type} {execute : Nat → τ → σ → Pool.Effect τ σ}

/-- What is set aside for a task that has not been put into the queue. -/
def price (size : Nat) : Nat := 3 * size + 12

/-- What a worker has still to do, and may be made to do by being woken. -/
def Worker.effort (size : Nat) (closed waiting : Bool) : Worker τ → Nat
  | .ready => if closed then 1 else 2
  | .searching => if closed then 3 else 1
  | .parked => if closed then 2 else if waiting then 3 else 0
  | .busy _ left counted => (if counted then 9 else 10) + price size * left.length
  | .failing _ _ => 8
  | .notifying _ => 7
  | .retired => 0
  | .lost _ => 0

/-- What the owner has still to do before it sleeps or goes on. -/
def Watch.effort : Watch → Nat
  | .away => 4
  | .reading => 3
  | .doubting => 2
  | .drowsy => 1
  | .asleep => 0
  | .woken => 4

/-- What the owner has to do for a command, and what the command may make others do. -/
def Command.effort (size : Nat) : Command τ → Nat
  | .enqueue _ => price size + 1
  | .start => 2 * size + 1
  | .drain => 3
  | .close => 3 * size + 1
  | .join => 1

/-- A worker has at most three more things to do after the pool is closed or a task has come. -/
theorem Worker.effort_le (size : Nat) (closed waiting shut filled : Bool) (worker : Worker τ) :
    worker.effort size shut filled ≤ worker.effort size closed waiting + 3 := by
  cases worker <;> cases closed <;> cases waiting <;> cases shut <;> cases filled <;>
    simp [effort]

/-- A worker has no more to do because a task has gone. -/
theorem Worker.effort_le_waiting (size : Nat) (closed filled : Bool) (worker : Worker τ) :
    worker.effort size closed filled ≤ worker.effort size closed true := by
  cases worker <;> cases closed <;> cases filled <;> simp [effort]

/-- A worker that has notified the owner has used up what it takes to wake it. -/
theorem Worker.effort_notified (size : Nat) (closed waiting : Bool) (fault : Option Fault) :
    (notified fault : Worker τ).effort size closed waiting ≤ 2 := by
  cases fault <;> cases closed <;> simp [notified, effort]

/-- A notification wakes the owner at most once more. -/
theorem Watch.effort_notified (watch : Watch) : watch.notified.effort ≤ watch.effort + 4 := by
  cases watch <;> simp [notified, effort]

namespace Crew

variable {crew next : Crew τ σ} {position place : Nat} {before after : Worker τ}

/-- What the workers have to do. -/
def workersEffort (size : Nat) (crew : Crew τ σ) : Nat :=
  (crew.workers.map (Worker.effort size crew.closed !crew.queue.isEmpty)).sum

/-- All that is left to be done in a pool, apart from what its owner has in mind. A task in the
queue has been paid for what its worker does. -/
def effort (size : Nat) (crew : Crew τ σ) : Nat :=
  price size * crew.entering.length + 10 * crew.queue.length + workersEffort size crew +
    crew.owner.effort

/-- Whatever is added up over the workers changes by what it is for the worker that acts. -/
theorem sum_become (here : crew.workers[position]? = some before) (after : Worker τ)
    (count : Worker τ → Nat) :
    ((crew.become position after).workers.map count).sum + count before =
      (crew.workers.map count).sum + count after := by
  obtain ⟨others, front, back⟩ := exists_others here
  rw [← ((back after).map count).sum_eq, (front.map count).sum_eq, List.map_cons, List.map_cons,
    List.sum_cons, List.sum_cons]
  omega

/-- Workers have at most three things more to do after the pool is closed or a task has
come. -/
theorem sum_effort_le (size : Nat) (closed waiting shut filled : Bool)
    (workers : List (Worker τ)) :
    (workers.map (Worker.effort size shut filled)).sum ≤
      (workers.map (Worker.effort size closed waiting)).sum + 3 * workers.length := by
  induction workers with
  | nil => simp
  | cons worker rest ih =>
    have more := worker.effort_le size closed waiting shut filled
    simp only [List.map_cons, List.sum_cons, List.length_cons]
    omega

/-- Where the same tasks wait, what is left differs by what the workers and the owner have to
do. -/
theorem effort_of_workers (crew next : Crew τ σ) (entering : next.entering = crew.entering)
    (queue : next.queue = crew.queue) (size : Nat) :
    next.effort size + crew.workersEffort size + crew.owner.effort =
      crew.effort size + next.workersEffort size + next.owner.effort := by
  unfold effort
  rw [entering, queue]
  omega

/-- A worker that acts changes what is left by what it has to do. -/
theorem effort_become (here : crew.workers[position]? = some before) (after : Worker τ)
    (size : Nat) :
    (crew.become position after).effort size +
        before.effort size crew.closed (!crew.queue.isEmpty) =
      crew.effort size + after.effort size crew.closed (!crew.queue.isEmpty) := by
  have moved : (crew.become position after).workersEffort size + _ = crew.workersEffort size + _ :=
    sum_become here after (Worker.effort size crew.closed !crew.queue.isEmpty)
  have left := effort_of_workers crew (crew.become position after) rfl rfl size
  have owner : (crew.become position after).owner = crew.owner := rfl
  rw [owner] at left
  omega

/-- A turn that leaves the queue alone uses up what it takes off its worker. -/
theorem effort_lt_of_become (here : crew.workers[position]? = some before) (after : Worker τ)
    {size : Nat}
    (less : after.effort size crew.closed (!crew.queue.isEmpty) <
      before.effort size crew.closed (!crew.queue.isEmpty)) :
    (crew.become position after).effort size < crew.effort size := by
  have moved := effort_become here after size
  omega

/-- A task that is put into the queue has been paid for, with all the workers it wakes. -/
theorem effort_push {size : Nat} (few : crew.workers.length ≤ size) (task : τ) :
    (crew.push task).effort size + 2 ≤ crew.effort size + price size := by
  have woken : (crew.push task).workersEffort size ≤
      crew.workersEffort size + 3 * crew.workers.length :=
    sum_effort_le size crew.closed (!crew.queue.isEmpty) crew.closed _ crew.workers
  have entered : (crew.push task).queue.length = crew.queue.length + 1 :=
    List.length_append.trans rfl
  have entering : (crew.push task).entering = crew.entering := rfl
  have owner : (crew.push task).owner = crew.owner := rfl
  have paid : price size = 3 * size + 12 := rfl
  unfold effort
  rw [entered, entering, owner]
  omega

/-- A task that is taken was paid for while it waited, and the tasks that it enqueues are paid
from the reserve. -/
theorem effort_take (here : crew.workers[position]? = some .searching) {ticket : Ticket τ}
    (waits : crew.queue[place]? = some ticket) (size : Nat) :
    (crew.takeUp execute position place ticket).effort size <
      crew.effort size + price size * (crew.execution execute ticket).spawned.length := by
  obtain ⟨inside, found⟩ := List.getElem?_eq_some_iff.mp waits
  let left := crew.queue.eraseIdx place
  let spawned := (crew.execution execute ticket).spawned
  let busy : Worker τ := .busy (crew.execution execute ticket) spawned false
  have some : (!crew.queue.isEmpty) = true := by
    have long : crew.queue ≠ [] := List.ne_nil_of_length_pos (Nat.zero_lt_of_lt inside)
    simpa using long
  have gone : crew.queue.length = left.length + 1 :=
    (List.getElem_cons_eraseIdx_perm inside).symm.length_eq
  -- If the queue is empty now, those that sleep cannot be woken, and have less to do.
  have fewer : ((crew.become position busy).workers.map
        (Worker.effort size crew.closed !left.isEmpty)).sum ≤
      ((crew.become position busy).workers.map (Worker.effort size crew.closed true)).sum :=
    List.sum_le_sum fun worker _ => worker.effort_le_waiting size crew.closed !left.isEmpty
  have moved := sum_become here busy (Worker.effort size crew.closed true)
  have looks : 0 < (Worker.searching : Worker τ).effort size crew.closed true := by
    cases closed : crew.closed <;> simp [Worker.effort]
  have holds : busy.effort size crew.closed true = 10 + price size * spawned.length := rfl
  unfold effort workersEffort
  rw [some, gone]
  change price size * crew.entering.length + 10 * left.length +
    ((crew.become position busy).workers.map
      (Worker.effort size crew.closed !left.isEmpty)).sum + crew.owner.effort <
    _ + price size * spawned.length
  omega

/-- A worker that has counted off a task has less to do than before. -/
theorem effort_afterwards (crew : Crew τ σ) (size : Nat) (closed waiting : Bool) :
    crew.afterwards.effort size closed waiting ≤ 7 := by
  unfold afterwards
  split <;> cases closed <;> simp [Worker.effort]

/-- What is left when the owner has acted differs by what the owner has to do. -/
theorem effort_watch (crew : Crew τ σ) (owner : Watch) (size : Nat) :
    ({ crew with owner } : Crew τ σ).effort size + crew.owner.effort =
      crew.effort size + owner.effort := by
  have left := effort_of_workers crew { crew with owner } rfl rfl size
  have same : ({ crew with owner } : Crew τ σ).workersEffort size = crew.workersEffort size := rfl
  rw [same] at left
  change _ = _ + owner.effort at left
  omega

/-- A worker that notifies the owner has been paid for waking it. -/
theorem effort_notify {fault : Option Fault}
    (here : crew.workers[position]? = some (.notifying fault)) (size : Nat) :
    ({ crew.become position (.notified fault) with
      owner := crew.owner.notified } : Crew τ σ).effort size < crew.effort size := by
  let notified : Crew τ σ := crew.become position (.notified fault)
  have moved : notified.effort size + 7 =
      crew.effort size + (Worker.notified fault).effort size crew.closed (!crew.queue.isEmpty) :=
    effort_become here (.notified fault) size
  have rests : (Worker.notified fault : Worker τ).effort size crew.closed
      (!crew.queue.isEmpty) ≤ 2 := Worker.effort_notified size _ _ fault
  have wakes : ({ notified with owner := crew.owner.notified } : Crew τ σ).effort size +
      crew.owner.effort = notified.effort size + crew.owner.notified.effort :=
    effort_watch notified crew.owner.notified size
  have woken := crew.owner.effort_notified
  change ({ notified with owner := crew.owner.notified } : Crew τ σ).effort size < _
  omega

/-- A worker's turn uses up some of what is left, with the reserve. -/
theorem effort_act {size : Nat} (few : crew.workers.length ≤ size)
    (acted : crew.act execute position place = some next) :
    next.effort size + price size * crew.offspring <
      crew.effort size + price size * next.offspring := by
  refine act_cases (motive := fun next => next.effort size + price size * crew.offspring <
    crew.effort size + price size * next.offspring) acted ?findOpen ?findClosed ?take ?park ?wake
    ?count ?spawn ?finish ?report ?fail ?notify
  case findOpen =>
    intro here isOpen
    refine Nat.add_lt_add_right (effort_lt_of_become here _ ?_) _
    simp [Worker.effort, isOpen]
  case findClosed =>
    intro here isClosed
    refine Nat.add_lt_add_right (effort_lt_of_become here _ ?_) _
    simp [Worker.effort, isClosed]
  case take =>
    intro ticket here waits
    have paid : (crew.takeUp execute position place ticket).effort size < _ :=
      effort_take here waits size
    rw [offspring_takeUp, Nat.mul_add]
    omega
  case park =>
    intro here none _
    refine Nat.add_lt_add_right (effort_lt_of_become here _ ?_) _
    cases closed : crew.closed <;> simp [Worker.effort, none]
  case wake =>
    intro here reason _
    refine Nat.add_lt_add_right (effort_lt_of_become here _ ?_) _
    cases closed : crew.closed <;> simp_all [Worker.effort]
  case count =>
    intro execution task rest here
    refine Nat.add_lt_add_right
      (effort_lt_of_become here (.busy execution (task :: rest) true) ?_) _
    simp [Worker.effort]
  case spawn =>
    intro execution task rest here
    have still : (crew.become position (.busy execution rest false)).workers.length ≤ size :=
      List.length_set.trans_le few
    have pushed := effort_push still task
    have moved := effort_become here (.busy execution rest false) size
    have split : price size * (task :: rest).length = price size * rest.length + price size :=
      Nat.mul_succ _ _
    simp only [Worker.effort, if_true, Bool.false_eq_true, if_false] at moved
    refine Nat.add_lt_add_right ?_ (price size * crew.offspring)
    omega
  case finish =>
    intro execution here clean
    have less := crew.effort_afterwards size crew.closed (!crew.queue.isEmpty)
    refine Nat.add_lt_add_right (effort_lt_of_become here crew.afterwards ?_) _
    exact less.trans_lt (by simp [Worker.effort])
  case report =>
    intro execution fault here faulty
    refine Nat.add_lt_add_right (effort_lt_of_become here (.failing execution fault) ?_) _
    simp [Worker.effort]
  case fail =>
    intro execution fault here
    refine Nat.add_lt_add_right (effort_lt_of_become here (.notifying (some fault)) ?_) _
    simp [Worker.effort]
  case notify => exact fun fault here _ => Nat.add_lt_add_right (effort_notify here size) _

/-- A task that the owner puts into the queue has been paid for. -/
theorem effort_submit {size : Nat} (few : crew.workers.length ≤ size) {task : τ}
    {rest : List τ} (counted : crew.entering = task :: rest) :
    ({ crew.push task with entering := rest } : Crew τ σ).effort size < crew.effort size := by
  have pushed := effort_push few task
  have left : (crew.push task).effort size =
      price size + ({ crew.push task with entering := rest } : Crew τ σ).effort size := by
    have entering : (crew.push task).entering = task :: rest := counted
    unfold effort
    rw [entering, List.length_cons, Nat.mul_succ]
    change _ = price size + (price size * rest.length + 10 * (crew.push task).queue.length +
      (crew.push task).workersEffort size + (crew.push task).owner.effort)
    omega
  omega

/-- A task that the owner counts is paid for. -/
theorem effort_announce (crew : Crew τ σ) (task : τ) (size : Nat) :
    (crew.announce task).effort size = price size + crew.effort size := by
  have entering : (crew.announce task).entering.length = crew.entering.length + 1 :=
    List.length_append.trans rfl
  unfold effort
  rw [entering, Nat.mul_succ]
  change _ + 10 * crew.queue.length + crew.workersEffort size + crew.owner.effort = _
  omega

/-- Workers that are started look once whether there is something to do. -/
theorem effort_start (crew : Crew τ σ) (size : Nat) :
    ({ crew with workers := List.replicate size .ready } : Crew τ σ).effort size ≤
      crew.effort size + 2 * size := by
  let manned : Crew τ σ := { crew with workers := List.replicate size .ready }
  have few : manned.workersEffort size ≤ 2 * size := by
    have each : (Worker.ready : Worker τ).effort size manned.closed
        (!manned.queue.isEmpty) ≤ 2 := by
      cases closed : manned.closed <;> simp [Worker.effort]
    have bound := Nat.mul_le_mul_left size each
    simp only [workersEffort, manned, List.map_replicate, List.sum_replicate_nat]
    exact bound.trans_eq (Nat.mul_comm _ _)
  have left := effort_of_workers crew manned rfl rfl size
  have owner : manned.owner = crew.owner := rfl
  rw [owner] at left
  change manned.effort size ≤ _
  omega

/-- Closing the pool wakes the workers that sleep. -/
theorem effort_close {size : Nat} (few : crew.workers.length ≤ size) :
    ({ crew with closed := true } : Crew τ σ).effort size ≤ crew.effort size + 3 * size := by
  let shut : Crew τ σ := { crew with closed := true }
  have woken : shut.workersEffort size ≤ crew.workersEffort size + 3 * crew.workers.length :=
    sum_effort_le size crew.closed _ true _ crew.workers
  have left := effort_of_workers crew shut rfl rfl size
  have owner : shut.owner = crew.owner := rfl
  rw [owner] at left
  change shut.effort size ≤ _
  omega

/-- An owner that looks on has less to do. -/
theorem effort_look (awake : crew.owner ≠ .asleep) (stays : crew.look ≠ .away) :
    crew.look.effort < crew.owner.effort := by
  revert stays
  unfold look
  cases watch : crew.owner with
  | asleep => exact absurd watch awake
  | reading => by_cases zero : crew.pending = 0 <;> simp [zero, Watch.effort]
  | doubting => by_cases poisoned : crew.poisoned = true <;> simp [poisoned, Watch.effort]
  | _ => simp [Watch.effort]

/-- A worker that has not ended, and has no reason to sleep, can act where the lock is free. If
it takes a task, it can take the first. -/
theorem exists_act {worker : Worker τ} (here : crew.workers[position]? = some worker)
    (acts : worker.isDone = false) (agrees : worker.Agrees crew.started crew.poisoned)
    (unlocked : crew.owner.locks = false)
    (awake : worker = .parked → crew.queue ≠ [] ∨ crew.closed = true) :
    ∃ next, crew.act execute position 0 = some next := by
  have able : ¬crew.owner.locks = true := Bool.eq_false_iff.mp unlocked
  unfold act
  rw [here]
  cases worker with
  | ready => exact ⟨_, rfl⟩
  | searching =>
    cases crew.queue with
    | nil => exact ⟨_, if_neg able⟩
    | cons first rest => exact ⟨_, rfl⟩
  | parked =>
    have reason : ¬(crew.queue.isEmpty = true ∧ crew.closed = false ∨
        crew.owner.locks = true) := by
      rw [not_or, List.isEmpty_iff, not_and_or, Bool.not_eq_false]
      exact ⟨awake rfl, able⟩
    exact ⟨_, if_neg reason⟩
  | busy execution left counted =>
    cases left with
    | nil =>
      cases counted with
      | true => exact absurd rfl (agrees.2 rfl)
      | false =>
        dsimp only
        cases execution.fault with
        | none => exact ⟨_, rfl⟩
        | some fault => exact ⟨_, rfl⟩
    | cons task rest =>
      cases counted with
      | true => exact ⟨_, rfl⟩
      | false => exact ⟨_, rfl⟩
  | failing execution fault => exact ⟨_, rfl⟩
  | notifying fault => exact ⟨_, if_neg able⟩
  | retired => cases acts
  | lost fault => cases acts

end Crew

namespace Lifecycle

open Crew

variable {life next : Lifecycle τ σ} {limit : Nat}

/-- All that is left to be done in the life of a pool, if its tasks enqueue no more than `limit`
tasks. -/
def effort (limit : Nat) (life : Lifecycle τ σ) : Nat :=
  price life.size * (limit - life.crew.offspring) +
    (life.todo.map (Command.effort life.size)).sum + life.crew.effort life.size

/-- There are not more workers than a run starts. -/
def Staffed (life : Lifecycle τ σ) : Prop := life.crew.workers.length ≤ life.size

/-- The owner's turn adds no worker to those of a run. -/
theorem Staffed.own (staffed : life.Staffed) (owned : life.own = some next) : next.Staffed := by
  refine own_cases owned ?submit ?enqueue ?start ?look ?leave ?close ?join
  case submit => exact fun _ _ _ => staffed
  case enqueue => exact fun _ _ _ _ => staffed
  case start => exact fun _ _ _ _ => List.length_replicate.le
  case look => exact fun _ _ _ _ _ => staffed
  case leave => exact fun _ _ _ _ _ => staffed
  case close => exact fun _ _ _ => staffed
  case join => exact fun _ _ _ _ => staffed

/-- A command that has been carried out pays for what it made others do. -/
theorem effort_lt_of_command {command : Command τ} {todo : List (Command τ)}
    (first : life.todo = command :: todo) (size : next.size = life.size) (rest : next.todo = todo)
    (offspring : next.crew.offspring = life.crew.offspring)
    (pays : next.crew.effort life.size < command.effort life.size + life.crew.effort life.size) :
    next.effort limit < life.effort limit := by
  rw [effort, effort, first, size, rest, offspring, List.map_cons, List.sum_cons]
  omega

/-- The owner's turn uses up some of what is left. -/
theorem effort_own (staffed : life.Staffed) (owned : life.own = some next) :
    next.effort limit < life.effort limit := by
  refine own_cases (motive := fun next => next.effort limit < life.effort limit) owned ?submit
    ?enqueue ?start ?look ?leave ?close ?join
  case submit =>
    exact fun task rest counted => Nat.add_lt_add_left (effort_submit staffed counted) _
  case enqueue =>
    intro task todo none first
    refine effort_lt_of_command first rfl rfl rfl ?_
    rw [effort_announce, Command.effort]
    omega
  case start =>
    intro todo none first idle
    have looks := effort_start life.crew life.size
    refine effort_lt_of_command first rfl rfl rfl (looks.trans_lt ?_)
    rw [Command.effort]
    omega
  case look =>
    intro todo _ _ awake stays
    have moved := effort_watch life.crew life.crew.look life.size
    have less := effort_look awake stays
    exact Nat.add_lt_add_left
      (Nat.lt_of_add_lt_add_right (moved.trans_lt (Nat.add_lt_add_left less _))) _
  case leave =>
    intro todo _ first _ leaves
    have moved := effort_watch life.crew .away life.size
    refine effort_lt_of_command first rfl rfl rfl ?_
    have some : 2 ≤ life.crew.owner.effort := by
      rcases look_eq_away.mp leaves with ⟨watch, -⟩ | ⟨watch, -⟩ <;> rw [watch] <;> decide
    have paid : (Command.drain : Command τ).effort life.size = 3 := rfl
    have rests : Watch.away.effort = 4 := rfl
    dsimp only
    omega
  case close =>
    intro todo none first
    refine effort_lt_of_command first rfl rfl rfl ((effort_close staffed).trans_lt ?_)
    rw [Command.effort]
    omega
  case join =>
    exact fun todo none first done =>
      effort_lt_of_command first rfl rfl rfl (Nat.lt_add_of_pos_left Nat.one_pos)

/-- A turn adds no worker to those of a run, and uses up some of what is left. -/
theorem Staffed.turn {turn : Turn} (staffed : life.Staffed)
    (turned : life.turn execute turn = some next) (few : next.crew.offspring ≤ limit) :
    next.Staffed ∧ next.effort limit < life.effort limit := by
  cases turn with
  | owner => exact ⟨staffed.own turned, effort_own staffed turned⟩
  | worker position place =>
    obtain ⟨crew, acted, rfl⟩ := Option.map_eq_some_iff.mp turned
    obtain ⟨before, after, frame⟩ := frame_of_act acted
    constructor
    · unfold Staffed
      rw [frame.workers]
      exact List.length_set.trans_le staffed
    · have used := effort_act staffed acted
      have reserve := Nat.mul_le_mul_left (price life.size) few
      dsimp only at reserve
      unfold effort
      rw [Nat.mul_sub, Nat.mul_sub]
      dsimp only
      omega

/-- An execution is no longer than what was to be done, if no task of it enqueues more tasks
than the limit allows. -/
theorem length_le_effort {turns : List Turn} (staffed : life.Staffed)
    (few : ∀ first between, play execute first life = some between →
      between.crew.offspring ≤ limit)
    (played : play execute turns life = some next) :
    turns.length + next.effort limit ≤ life.effort limit := by
  induction turns generalizing life with
  | nil =>
    cases played
    exact Nat.le_of_eq (Nat.zero_add _)
  | cons turn rest ih =>
    obtain ⟨between, turned, later⟩ := Option.bind_eq_some_iff.mp played
    have follows (first : List Turn) : play execute (turn :: first) life =
        play execute first between := by
      rw [play, turned]
      rfl
    obtain ⟨still, less⟩ := staffed.turn turned (few [turn] between (follows []))
    have shorter := ih still (fun first after played => few (turn :: first) after
      ((follows first).trans played)) later
    rw [List.length_cons]
    omega

/-- Where workers have been started and the pool is open, some worker can act while the owner
sleeps.

If nobody is going to notify the owner, a task is pending, so not all workers sleep unless a
task waits. -/
theorem act_of_asleep {crew : Crew τ σ} (answered : crew.Answered) (sound : crew.Sound)
    (heard : crew.Heard) (entered : crew.entering = []) (manned : crew.workers ≠ [])
    (working : ∀ worker ∈ crew.workers, worker ≠ .retired) (asleep : crew.owner = .asleep) :
    ∃ position next, crew.act execute position 0 = some next := by
  have unlocked : crew.owner.locks = false := by
    rw [asleep]
    rfl
  have able {worker : Worker τ} (member : worker ∈ crew.workers) (acts : worker.isDone = false)
      (awake : worker = .parked → crew.queue ≠ [] ∨ crew.closed = true) :
      ∃ position next, crew.act execute position 0 = some next := by
    obtain ⟨position, here⟩ := List.mem_iff_getElem?.mp member
    exact ⟨position, exists_act here acts (answered.agrees worker member) unlocked awake⟩
  by_cases zero : crew.pending = 0
  · obtain ⟨worker, member, notifies⟩ := heard.drained (by rw [asleep]; rfl) zero
    cases worker with
    | notifying fault => exact able member rfl nofun
    | _ => cases notifies
  by_cases poisoned : crew.poisoned = true
  · obtain ⟨worker, member, warns⟩ := heard.poisoned (by rw [asleep]; rfl) poisoned
    cases worker with
    | notifying fault => exact able member rfl nofun
    | failing execution fault => exact able member rfl nofun
    | _ => cases warns
  have alive : ∀ worker ∈ crew.workers, worker.isDone = false := by
    intro worker member
    cases kind : worker with
    | retired => exact absurd kind (working worker member)
    | lost fault =>
      have agrees := answered.agrees worker member
      rw [kind] at agrees
      exact absurd agrees.2 poisoned
    | _ => rfl
  by_cases sleeping : ∀ worker ∈ crew.workers, worker = .parked
  · have resting : ∀ worker ∈ crew.workers, worker.Rests := by
      intro worker member
      rw [sleeping worker member]
      exact ⟨rfl, rfl, rfl⟩
    have queue : crew.queue ≠ [] := by
      intro none
      rw [sound.pending_of_resting resting, none, entered] at zero
      exact zero rfl
    obtain ⟨first, member⟩ := List.exists_mem_of_ne_nil _ manned
    exact able member (alive first member) fun _ => .inl queue
  · push Not at sleeping
    obtain ⟨worker, member, awake⟩ := sleeping
    exact able member (alive worker member) fun parked => absurd parked awake

/-- Where the pool is closed, all workers have ended or some worker can act. -/
theorem act_or_done {crew : Crew τ σ} (answered : crew.Answered) (isClosed : crew.closed = true)
    (away : crew.owner = .away) (waits : ¬crew.workers.all Worker.isDone = true) :
    ∃ position next, crew.act execute position 0 = some next := by
  rw [List.all_eq_true] at waits
  push Not at waits
  obtain ⟨worker, member, acts⟩ := waits
  obtain ⟨position, here⟩ := List.mem_iff_getElem?.mp member
  have unlocked : crew.owner.locks = false := by
    rw [away]
    rfl
  exact ⟨position, exists_act here (Bool.eq_false_of_not_eq_true acts)
    (answered.agrees worker member) unlocked fun _ => .inr isClosed⟩

/-- As long as the first run is not over, a turn is possible at which no worker takes a task
out of order. -/
theorem exists_turn (execute : Nat → τ → σ → Pool.Effect τ σ) (kept : life.Kept)
    (running : life.verdicts = []) (more : life.todo ≠ []) :
    ∃ turn next, turn.inOrder = true ∧ life.turn execute turn = some next := by
  obtain ⟨positive, ⟨period, script, fits⟩, watches, sound, balanced, heard⟩ := kept
  have first := fits.of_running running
  have owner (able : ∃ next, life.own = some next) :
      ∃ turn next, turn.inOrder = true ∧ life.turn execute turn = some next := by
    obtain ⟨next, owned⟩ := able
    exact ⟨.owner, next, rfl, owned⟩
  have worker (able : ∃ position crew, life.crew.act execute position 0 = some crew) :
      ∃ turn next, turn.inOrder = true ∧ life.turn execute turn = some next := by
    obtain ⟨position, crew, acted⟩ := able
    exact ⟨.worker position 0, { life with crew }, rfl,
      Option.map_eq_some_iff.mpr ⟨crew, acted, rfl⟩⟩
  cases entered : life.crew.entering with
  | cons task rest => exact owner ⟨_, own_submit entered⟩
  | nil =>
    cases todo : life.todo with
    | nil => exact absurd todo more
    | cons command commands =>
      rw [todo] at script
      cases script with
      | enqueue later => exact owner ⟨_, own_enqueue entered todo⟩
      | request later => exact owner ⟨_, own_enqueue entered todo⟩
      | close later => exact owner ⟨_, own_close entered todo⟩
      | start later =>
        cases first with | between isOpen unmanned none => ?_
        exact owner ⟨_, own_start entered todo (by rw [unmanned]; rfl)⟩
      | drain later =>
        cases first with | running isOpen manned working answered => ?_
        by_cases asleep : life.crew.owner = .asleep
        · have some : life.crew.workers ≠ [] := List.ne_nil_of_length_pos (manned ▸ positive)
          exact worker (act_of_asleep answered sound heard entered some working asleep)
        · exact owner ⟨_, own_look entered todo asleep⟩
      | join later =>
        cases first with | stopping isClosed answered => ?_
        by_cases done : life.crew.workers.all Worker.isDone = true
        · exact owner ⟨_, own_join entered todo done⟩
        · exact worker (act_or_done answered isClosed (watches.away_of_first todo nofun) done)

end Lifecycle

end RadixSort
