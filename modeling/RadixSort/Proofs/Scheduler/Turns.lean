import RadixSort.Proofs.Scheduler.Drained
import RadixSort.Scheduler.Lifecycle

/-!
# The turns of a pool

A worker's turn is one of the actions of a crew, and so is a turn of the owner, unless it
only goes on to the next command. The cases of both are told apart once, here, with all that
makes them possible; what is proved about turns is proved for each case. Since a turn is an
action, all that is known of what comes about in a crew holds between any two turns.
-/
namespace RadixSort

variable {τ σ : Type} {execute : Nat → τ → σ → Pool.Effect τ σ}

/-- A notification wakes the owner if it sleeps, and changes nothing otherwise. -/
theorem Watch.notified_eq (watch : Watch) :
    watch.notified = watch ∨ watch = .asleep ∧ watch.notified = .woken := by
  cases watch
  case asleep => exact .inr ⟨rfl, rfl⟩
  all_goals exact .inl rfl

namespace Crew

variable {crew next : Crew τ σ} {position place : Nat}

/-- The cases of a worker's turn. -/
theorem act_cases {motive : Crew τ σ → Prop} (acted : crew.act execute position place = some next)
    (findOpen : crew.workers[position]? = some .ready → crew.closed = false →
      motive (crew.become position .searching))
    (findClosed : crew.workers[position]? = some .ready → crew.closed = true →
      motive (crew.become position .retired))
    (take : ∀ ticket, crew.workers[position]? = some .searching →
      crew.queue[place]? = some ticket → motive (crew.takeUp execute position place ticket))
    (park : crew.workers[position]? = some .searching → crew.queue = [] →
      crew.owner.locks = false → motive (crew.become position .parked))
    (wake : crew.workers[position]? = some .parked → crew.queue ≠ [] ∨ crew.closed = true →
      crew.owner.locks = false → motive (crew.become position .ready))
    (count : ∀ execution task rest,
      crew.workers[position]? = some (.busy execution (task :: rest) false) →
      motive { crew.become position (.busy execution (task :: rest) true) with
        pending := crew.pending + 1 })
    (spawn : ∀ execution task rest,
      crew.workers[position]? = some (.busy execution (task :: rest) true) →
      motive ((crew.become position (.busy execution rest false)).push task))
    (finish : ∀ execution, crew.workers[position]? = some (.busy execution [] false) →
      execution.fault = none → motive (crew.countOff position execution crew.afterwards))
    (report : ∀ execution fault, crew.workers[position]? = some (.busy execution [] false) →
      execution.fault = some fault →
      motive { crew.become position (.failing execution fault) with poisoned := true })
    (fail : ∀ execution fault, crew.workers[position]? = some (.failing execution fault) →
      motive (crew.countOff position execution (.notifying (some fault))))
    (notify : ∀ fault, crew.workers[position]? = some (.notifying fault) →
      crew.owner.locks = false →
      motive { crew.become position (.notified fault) with owner := crew.owner.notified }) :
    motive next := by
  unfold act at acted
  split at acted
  case h_1 here =>
    cases closed : crew.closed with
    | true =>
      simp only [closed, if_true, Option.some.injEq] at acted
      exact acted ▸ findClosed here closed
    | false =>
      simp only [closed, Bool.false_eq_true, if_false, Option.some.injEq] at acted
      exact acted ▸ findOpen here closed
  case h_2 here =>
    split at acted
    case h_1 none =>
      split at acted
      case isTrue => cases acted
      case isFalse unlocked =>
        exact Option.some.inj acted ▸ park here none (eq_false_of_ne_true unlocked)
    case h_2 =>
      obtain ⟨ticket, queued, rfl⟩ := Option.map_eq_some_iff.mp acted
      exact take ticket here queued
  case h_3 here =>
    split at acted
    case isTrue => cases acted
    case isFalse able =>
      obtain ⟨reason, unlocked⟩ := not_or.mp able
      rw [List.isEmpty_iff, not_and_or, Bool.not_eq_false] at reason
      exact Option.some.inj acted ▸ wake here reason (eq_false_of_ne_true unlocked)
  case h_4 execution left counted here =>
    split at acted
    case h_1 =>
      split at acted
      case h_1 clean => exact Option.some.inj acted ▸ finish execution here clean
      case h_2 fault faulty => exact Option.some.inj acted ▸ report execution fault here faulty
    case h_2 => cases acted
    case h_3 task rest => exact Option.some.inj acted ▸ count execution task rest here
    case h_4 task rest => exact Option.some.inj acted ▸ spawn execution task rest here
  case h_5 execution fault here => exact Option.some.inj acted ▸ fail execution fault here
  case h_6 fault here =>
    split at acted
    case isTrue => cases acted
    case isFalse unlocked =>
      exact Option.some.inj acted ▸ notify fault here (eq_false_of_ne_true unlocked)
  case h_7 => cases acted
  case h_8 => cases acted
  case h_9 => cases acted

/-- What every worker's turn leaves as it is: it changes one worker, which had not ended, and
nothing that only the owner changes, unless it wakes the owner. -/
structure Frame (crew next : Crew τ σ) (position : Nat) (before after : Worker τ) : Prop where
  here : crew.workers[position]? = some before
  acts : before.isDone = false
  workers : next.workers = (crew.become position after).workers
  retires : after = .retired → crew.closed = true
  closed : next.closed = crew.closed
  announced : next.announced = crew.announced
  entering : next.entering = crew.entering
  watch : next.owner = crew.owner ∨ crew.owner = .asleep ∧ next.owner = .woken

/-- A worker's turn has a frame. -/
theorem frame_of_act (acted : crew.act execute position place = some next) :
    ∃ before after, Frame crew next position before after := by
  refine act_cases (motive := fun next => ∃ before after, Frame crew next position before after)
    acted ?findOpen ?findClosed ?take ?park ?wake ?count ?spawn ?finish ?report ?fail ?notify
  case findOpen => exact fun here _ => ⟨_, _, here, rfl, rfl, nofun, rfl, rfl, rfl, .inl rfl⟩
  case findClosed =>
    exact fun here isClosed => ⟨_, _, here, rfl, rfl, fun _ => isClosed, rfl, rfl, rfl, .inl rfl⟩
  case take => exact fun _ here _ => ⟨_, _, here, rfl, rfl, nofun, rfl, rfl, rfl, .inl rfl⟩
  case park => exact fun here _ _ => ⟨_, _, here, rfl, rfl, nofun, rfl, rfl, rfl, .inl rfl⟩
  case wake => exact fun here _ _ => ⟨_, _, here, rfl, rfl, nofun, rfl, rfl, rfl, .inl rfl⟩
  case count => exact fun _ _ _ here => ⟨_, _, here, rfl, rfl, nofun, rfl, rfl, rfl, .inl rfl⟩
  case spawn => exact fun _ _ _ here => ⟨_, _, here, rfl, rfl, nofun, rfl, rfl, rfl, .inl rfl⟩
  case finish =>
    intro execution here _
    refine ⟨_, _, here, rfl, rfl, ?_, rfl, rfl, rfl, .inl rfl⟩
    unfold afterwards
    split <;> nofun
  case report => exact fun _ _ here _ => ⟨_, _, here, rfl, rfl, nofun, rfl, rfl, rfl, .inl rfl⟩
  case fail => exact fun _ _ here => ⟨_, _, here, rfl, rfl, nofun, rfl, rfl, rfl, .inl rfl⟩
  case notify =>
    intro fault here _
    refine ⟨_, _, here, rfl, rfl, ?_, rfl, rfl, rfl, crew.owner.notified_eq⟩
    cases fault <;> nofun

/-- A worker's turn is an action of the crew. -/
theorem step_of_act (acted : crew.act execute position place = some next) :
    Step execute crew next := by
  refine act_cases acted ?findOpen ?findClosed ?take ?park ?wake ?count ?spawn ?finish ?report
    ?fail ?notify
  case findOpen => exact .findOpen crew position
  case findClosed => exact .findClosed crew position
  case take => exact .take crew position place
  case park => exact .park crew position
  case wake => exact .wake crew position
  case count =>
    exact fun execution task rest here =>
      .count crew position execution (task :: rest) here (List.cons_ne_nil _ _)
  case spawn => exact .spawn crew position
  case finish => exact .finish crew position
  case report => exact .report crew position
  case fail => exact .fail crew position
  case notify => exact .notify crew position

/-- Where no task waits and none is executed, a worker changes nothing but what it is about to
do, and may wake the owner. -/
theorem act_of_quiet (quiet : crew.queue = []) (idle : crew.executing = []) {position place : Nat}
    (acted : crew.act execute position place = some next) :
    ∃ after owner, next = { crew.become position after with owner } ∧ after.held = [] := by
  have rests {other : Worker τ} (here : crew.workers[position]? = some other) :
      other.held = [] := List.flatMap_eq_nil_iff.mp idle other (List.mem_of_getElem? here)
  refine act_cases (motive := fun next => ∃ after owner,
    next = { crew.become position after with owner } ∧ after.held = []) acted ?findOpen ?findClosed
    ?take ?park ?wake ?count ?spawn ?finish ?report ?fail ?notify
  case findOpen => exact fun _ _ => ⟨_, _, rfl, rfl⟩
  case findClosed => exact fun _ _ => ⟨_, _, rfl, rfl⟩
  case park => exact fun _ _ _ => ⟨_, _, rfl, rfl⟩
  case wake => exact fun _ _ _ => ⟨_, _, rfl, rfl⟩
  case take =>
    intro ticket _ waits
    rw [quiet] at waits
    cases waits
  case count => exact fun _ _ _ here => by cases rests here
  case spawn => exact fun _ _ _ here => by cases rests here
  case finish => exact fun _ here _ => by cases rests here
  case report => exact fun _ _ here _ => by cases rests here
  case fail => exact fun _ _ here => by cases rests here
  case notify => exact fun fault _ _ => ⟨_, _, rfl, (Worker.rests_notified fault).held⟩

end Crew

/-- The task that a command enqueues, if it enqueues one. -/
def Command.task? : Command τ → Option τ
  | .enqueue task => some task
  | _ => none

namespace Lifecycle

/-- The tasks that the owner has counted, and then those that it has still to enqueue. -/
def tasks (life : Lifecycle τ σ) : List τ :=
  life.crew.announced ++ life.todo.filterMap Command.task?

variable {life next : Lifecycle τ σ}

/-- The owner puts a task into the queue that it has counted. -/
theorem own_submit {task : τ} {rest : List τ} (entered : life.crew.entering = task :: rest) :
    life.own = some { life with crew := { life.crew.push task with entering := rest } } := by
  rw [own, entered]

section Command

variable {todo : List (Command τ)} (entered : life.crew.entering = [])

include entered

/-- The owner counts a task that it enqueues. -/
theorem own_enqueue {task : τ} (first : life.todo = .enqueue task :: todo) :
    life.own = some { life with crew := life.crew.announce task, todo } := by
  rw [own, entered, first]

/-- The owner starts the workers. -/
theorem own_start (first : life.todo = .start :: todo)
    (idle : life.crew.workers.all Worker.isDone = true) :
    life.own = some { life with
      crew := { life.crew with workers := List.replicate life.size .ready }, todo } := by
  rw [own, entered, first]
  exact if_pos idle

/-- The owner acts while it waits for the pool to drain, or begins to wait. -/
theorem own_look (first : life.todo = .drain :: todo) (awake : life.crew.owner ≠ .asleep) :
    life.own = some { life with
      crew := { life.crew with owner := life.crew.look }
      todo := if life.crew.look = .away then todo else life.todo } := by
  rw [own, entered, first]
  exact if_neg awake

/-- The owner sleeps. -/
theorem own_asleep (first : life.todo = .drain :: todo) (asleep : life.crew.owner = .asleep) :
    life.own = none := by
  rw [own, entered, first]
  exact if_pos asleep

/-- The owner closes the pool. -/
theorem own_close (first : life.todo = .close :: todo) :
    life.own = some { life with crew := { life.crew with closed := true }, todo } := by
  rw [own, entered, first]

/-- The owner sees how the workers ended. -/
theorem own_join (first : life.todo = .join :: todo)
    (done : life.crew.workers.all Worker.isDone = true) :
    life.own = some { life with todo, verdicts := life.verdicts ++ [life.crew.verdict?] } := by
  rw [own, entered, first]
  exact if_pos done

/-- The owner waits for workers to end. -/
theorem own_linger (first : life.todo = .join :: todo)
    (waits : ¬life.crew.workers.all Worker.isDone = true) : life.own = none := by
  rw [own, entered, first]
  exact if_neg waits

end Command

/-- The cases of the owner's turn. -/
theorem own_cases {motive : Lifecycle τ σ → Prop} (owned : life.own = some next)
    (submit : ∀ task rest, life.crew.entering = task :: rest →
      motive { life with crew := { life.crew.push task with entering := rest } })
    (enqueue : ∀ task todo, life.crew.entering = [] → life.todo = .enqueue task :: todo →
      motive { life with crew := life.crew.announce task, todo })
    (start : ∀ todo, life.crew.entering = [] → life.todo = .start :: todo →
      (∀ worker ∈ life.crew.workers, worker.isDone = true) →
      motive { life with
        crew := { life.crew with workers := List.replicate life.size .ready }, todo })
    (look : ∀ todo, life.crew.entering = [] → life.todo = .drain :: todo →
      life.crew.owner ≠ .asleep → life.crew.look ≠ .away →
      motive { life with crew := { life.crew with owner := life.crew.look } })
    (leave : ∀ todo, life.crew.entering = [] → life.todo = .drain :: todo →
      life.crew.owner ≠ .asleep → life.crew.look = .away →
      motive { life with crew := { life.crew with owner := .away }, todo })
    (close : ∀ todo, life.crew.entering = [] → life.todo = .close :: todo →
      motive { life with crew := { life.crew with closed := true }, todo })
    (join : ∀ todo, life.crew.entering = [] → life.todo = .join :: todo →
      (∀ worker ∈ life.crew.workers, worker.isDone = true) →
      motive { life with todo, verdicts := life.verdicts ++ [life.crew.verdict?] }) :
    motive next := by
  unfold own at owned
  split at owned
  case h_1 task rest counted => exact Option.some.inj owned ▸ submit task rest counted
  case h_2 none =>
    split at owned
    case h_1 => cases owned
    case h_2 task todo first => exact Option.some.inj owned ▸ enqueue task todo none first
    case h_3 todo first =>
      split at owned
      case isTrue done =>
        exact Option.some.inj owned ▸ start todo none first (List.all_eq_true.mp done)
      case isFalse => cases owned
    case h_4 todo first =>
      split at owned
      case isTrue => cases owned
      case isFalse awake =>
        rw [← Option.some.inj owned]
        by_cases away : life.crew.look = .away
        · rw [if_pos away, away]
          exact leave todo none first awake away
        · rw [if_neg away]
          exact look todo none first awake away
    case h_5 todo first => exact Option.some.inj owned ▸ close todo none first
    case h_6 todo first =>
      split at owned
      case isTrue done =>
        exact Option.some.inj owned ▸ join todo none first (List.all_eq_true.mp done)
      case isFalse => cases owned

/-- The owner is with its wait only if that is its next command, and it has put all it has
counted into the queue. -/
def Watches (life : Lifecycle τ σ) : Prop :=
  life.crew.owner ≠ .away → life.crew.entering = [] ∧ ∃ todo, life.todo = .drain :: todo

/-- An owner that has something to put into the queue does not wait. -/
theorem Watches.away_of_entering (watches : life.Watches) {task : τ} {rest : List τ}
    (counted : life.crew.entering = task :: rest) : life.crew.owner = .away := by
  by_contra waits
  cases counted.symm.trans (watches waits).1

/-- An owner that has another command to carry out does not wait. -/
theorem Watches.away_of_first (watches : life.Watches) {command : Command τ}
    {todo : List (Command τ)} (first : life.todo = command :: todo) (other : command ≠ .drain) :
    life.crew.owner = .away := by
  by_contra waits
  obtain ⟨-, _, same⟩ := watches waits
  cases first.symm.trans same
  exact other rfl

/-- A turn keeps the owner at its wait. -/
theorem Watches.turn {turn : Turn} (watches : life.Watches)
    (turned : life.turn execute turn = some next) : next.Watches := by
  cases turn with
  | worker position place =>
    obtain ⟨crew, acted, rfl⟩ := Option.map_eq_some_iff.mp turned
    obtain ⟨_, _, frame⟩ := Crew.frame_of_act acted
    intro waits
    have waited : life.crew.owner ≠ .away := by
      rcases frame.watch with same | ⟨asleep, -⟩
      · rw [← same]
        exact waits
      · rw [asleep]
        nofun
    obtain ⟨entered, first⟩ := watches waited
    exact ⟨frame.entering.trans entered, first⟩
  | owner =>
    refine own_cases (motive := Watches) turned ?submit ?enqueue ?start ?look ?leave ?close ?join
    case submit =>
      exact fun task rest counted waits => absurd (watches.away_of_entering counted) waits
    case enqueue =>
      exact fun task todo _ first waits => absurd (watches.away_of_first first nofun) waits
    case start =>
      exact fun todo _ first _ waits => absurd (watches.away_of_first first nofun) waits
    case look => exact fun todo none first _ _ _ => ⟨none, todo, first⟩
    case leave => exact fun _ _ _ _ _ waits => absurd rfl waits
    case close => exact fun todo _ first waits => absurd (watches.away_of_first first nofun) waits
    case join => exact fun todo _ first _ waits => absurd (watches.away_of_first first nofun) waits

/-- A turn is an action of the crew, or leaves it as it is. -/
theorem step_of_turn {turn : Turn} (watches : life.Watches)
    (turned : life.turn execute turn = some next) :
    Crew.Step execute life.crew next.crew ∨ next.crew = life.crew := by
  cases turn with
  | worker position place =>
    obtain ⟨crew, acted, rfl⟩ := Option.map_eq_some_iff.mp turned
    exact .inl (Crew.step_of_act acted)
  | owner =>
    refine own_cases (motive := fun next =>
      Crew.Step execute life.crew next.crew ∨ next.crew = life.crew) turned ?submit ?enqueue
      ?start ?look ?leave ?close ?join
    case submit =>
      exact fun task rest counted =>
        .inl (.submit _ task rest (watches.away_of_entering counted) counted)
    case enqueue =>
      exact fun task todo _ first => .inl (.announce _ task (watches.away_of_first first nofun))
    case start =>
      exact fun todo _ first idle =>
        .inl (.start _ life.size (watches.away_of_first first nofun) idle)
    case look => exact fun _ _ _ awake _ => .inl (.look _ awake)
    case leave =>
      intro todo _ _ awake away
      have looks : Crew.Step execute life.crew _ := .look _ awake
      rw [away] at looks
      exact .inl looks
    case close =>
      exact fun todo _ first => .inl (.close _ (watches.away_of_first first nofun))
    case join => exact fun _ _ _ _ => .inr rfl

/-- A turn is a run of the crew. -/
theorem run_of_turn {turn : Turn} (watches : life.Watches)
    (turned : life.turn execute turn = some next) :
    Crew.Run execute life.crew next.crew := by
  rcases step_of_turn watches turned with action | same
  · exact (Crew.Run.done _).step action
  · rw [same]
    exact .done _

/-- A turn changes the size of no run and takes back no verdict. -/
theorem record_of_turn {turn : Turn} (turned : life.turn execute turn = some next) :
    next.size = life.size ∧ ∃ more, next.verdicts = life.verdicts ++ more := by
  have same : ∃ more, life.verdicts = life.verdicts ++ more := ⟨[], (List.append_nil _).symm⟩
  cases turn with
  | worker position place =>
    obtain ⟨crew, -, rfl⟩ := Option.map_eq_some_iff.mp turned
    exact ⟨rfl, same⟩
  | owner =>
    refine own_cases (motive := fun next =>
      next.size = life.size ∧ ∃ more, next.verdicts = life.verdicts ++ more) turned ?submit
      ?enqueue ?start ?look ?leave ?close ?join
    case submit => exact fun _ _ _ => ⟨rfl, same⟩
    case enqueue => exact fun _ _ _ _ => ⟨rfl, same⟩
    case start => exact fun _ _ _ _ => ⟨rfl, same⟩
    case look => exact fun _ _ _ _ _ => ⟨rfl, same⟩
    case leave => exact fun _ _ _ _ _ => ⟨rfl, same⟩
    case close => exact fun _ _ _ => ⟨rfl, same⟩
    case join => exact fun _ _ _ _ => ⟨rfl, _, rfl⟩

/-- A turn loses no task and changes the order of none: a task that the owner enqueues goes
from those it has still to enqueue to those it has counted. -/
theorem tasks_of_turn {turn : Turn} (turned : life.turn execute turn = some next) :
    next.tasks = life.tasks := by
  cases turn with
  | worker position place =>
    obtain ⟨crew, acted, rfl⟩ := Option.map_eq_some_iff.mp turned
    obtain ⟨_, _, frame⟩ := Crew.frame_of_act acted
    exact congrArg (· ++ _) frame.announced
  | owner =>
    refine own_cases (motive := fun next => next.tasks = life.tasks) turned ?submit ?enqueue ?start
      ?look ?leave ?close ?join
    case submit => exact fun _ _ _ => rfl
    case enqueue =>
      intro task todo _ first
      rw [tasks, tasks, first]
      exact List.append_assoc _ [task] _
    case start => exact fun todo _ first _ => by rw [tasks, tasks, first]; rfl
    case look => exact fun _ _ _ _ _ => rfl
    case leave => exact fun todo _ first _ _ => by rw [tasks, tasks, first]; rfl
    case close => exact fun todo _ first => by rw [tasks, tasks, first]; rfl
    case join => exact fun todo _ first _ => by rw [tasks, tasks, first]; rfl

/-- What every turn keeps is kept by any number of turns. -/
theorem play_induction (allowed : Turn → Prop) {motive : Lifecycle τ σ → Prop}
    (keeps : ∀ life turn next, allowed turn → motive life → life.turn execute turn = some next →
      motive next)
    {turns : List Turn} (each : ∀ turn ∈ turns, allowed turn) (first : motive life)
    (played : play execute turns life = some next) : motive next := by
  induction turns generalizing life with
  | nil => exact Option.some.inj played ▸ first
  | cons turn rest ih =>
    obtain ⟨between, turned, later⟩ := Option.bind_eq_some_iff.mp played
    exact ih (fun other member => each other (List.mem_cons_of_mem _ member))
      (keeps life turn between (each turn List.mem_cons_self) first turned) later

/-- A run that is not over has its end before it. -/
theorem join_mem_of_turn {turn : Turn} (ahead : life.verdicts = [] → .join ∈ life.todo)
    (turned : life.turn execute turn = some next) (running : next.verdicts = []) :
    .join ∈ next.todo := by
  have unfinished : life.verdicts = [] := by
    obtain ⟨-, more, longer⟩ := record_of_turn turned
    exact (List.append_eq_nil_iff.mp (longer.symm.trans running)).1
  have member := ahead unfinished
  cases turn with
  | worker position place =>
    obtain ⟨crew, -, rfl⟩ := Option.map_eq_some_iff.mp turned
    exact member
  | owner =>
    revert running
    have passes {command : Command τ} {todo : List (Command τ)}
        (first : life.todo = command :: todo) (other : .join ≠ command) : .join ∈ todo := by
      rw [first] at member
      exact (List.mem_cons.mp member).resolve_left other
    refine own_cases (motive := fun next => next.verdicts = [] → .join ∈ next.todo) turned ?submit
      ?enqueue ?start ?look ?leave ?close ?join
    case submit => exact fun _ _ _ _ => member
    case enqueue => exact fun _ _ _ first _ => passes first nofun
    case start => exact fun _ _ first _ _ => passes first nofun
    case look => exact fun _ _ _ _ _ _ => member
    case leave => exact fun _ _ first _ _ _ => passes first nofun
    case close => exact fun _ _ first _ => passes first nofun
    case join => exact fun _ _ _ _ running => absurd running (by simp)

/-- A run has its end before it until it is over. -/
theorem join_mem_of_play {turns : List Turn}
    (ahead : life.verdicts = [] → .join ∈ life.todo)
    (played : play execute turns life = some next) : next.verdicts = [] → .join ∈ next.todo :=
  play_induction (fun _ => True) (motive := fun life => life.verdicts = [] →
      .join ∈ life.todo) (fun _ _ _ _ => join_mem_of_turn) (fun _ _ => trivial) ahead played

/-- Turns neither add tasks nor lose any. -/
theorem tasks_of_play {turns : List Turn}
    (played : play execute turns life = some next) : next.tasks = life.tasks :=
  play_induction (fun _ => True) (motive := fun other => other.tasks = life.tasks)
    (fun _ _ _ _ same turned => (tasks_of_turn turned).trans same) (fun _ _ => trivial) rfl played

end Lifecycle

end RadixSort
