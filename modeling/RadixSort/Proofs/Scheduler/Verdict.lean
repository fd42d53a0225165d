import RadixSort.Proofs.Scheduler.Turns

/-!
# A run ends as its tasks did

While the first run of a pool lasts, every fault of an executed task is with a worker: it
executes the task still, or has been ended by the fault, or will be when it has notified the
owner. When all workers have ended, only the second is possible. So the fault of the first
worker that one has ended is the fault of an executed task, and if there is no such worker, no
executed task ended in a fault.

A pool that has been run is closed for good. Its workers, if it is run again, find it closed
and end at once, so nothing is executed after the first run, and every later run ends
without a fault.
-/
namespace RadixSort

variable {τ σ : Type} {execute : Nat → τ → σ → Pool.Effect τ σ}

/-- The fault that has ended a worker, or will when it has notified the owner. -/
def Worker.fault? : Worker τ → Option Fault
  | .notifying fault => fault
  | .lost fault => some fault
  | _ => none

/-- What a worker is about to do agrees with the tasks that have been taken, and with
whether a fault has been reported. -/
def Worker.Agrees (started : List (Execution τ)) (poisoned : Bool) : Worker τ → Prop
  | .busy execution left counted => execution ∈ started ∧ (counted = true → left ≠ [])
  | .failing execution fault =>
    execution ∈ started ∧ execution.fault = some fault ∧ poisoned = true
  | .notifying (some fault) =>
    (∃ execution ∈ started, execution.fault = some fault) ∧ poisoned = true
  | .lost fault => (∃ execution ∈ started, execution.fault = some fault) ∧ poisoned = true
  | _ => True

/-- A worker still agrees when more tasks have been taken or a fault has been reported. -/
theorem Worker.Agrees.mono {worker : Worker τ} {started later : List (Execution τ)}
    {poisoned reported : Bool} (agrees : worker.Agrees started poisoned)
    (grown : ∀ execution ∈ started, execution ∈ later)
    (poisons : poisoned = true → reported = true) : worker.Agrees later reported := by
  have fault {fault : Fault}
      (raised : (∃ execution ∈ started, execution.fault = some fault) ∧ poisoned = true) :
      (∃ execution ∈ later, execution.fault = some fault) ∧ reported = true := by
    obtain ⟨⟨execution, member, faulty⟩, poisoned⟩ := raised
    exact ⟨⟨execution, grown execution member, faulty⟩, poisons poisoned⟩
  cases worker with
  | busy execution left counted => exact ⟨grown execution agrees.1, agrees.2⟩
  | failing execution fault => exact ⟨grown execution agrees.1, agrees.2.1, poisons agrees.2.2⟩
  | notifying reason =>
    cases reason with
    | none => trivial
    | some _ => exact fault agrees
  | lost _ => exact fault agrees
  | _ => trivial

/-- What a worker does when it has notified the owner agrees if it did so before. -/
theorem Worker.Agrees.notified {fault : Option Fault} {started : List (Execution τ)}
    {poisoned : Bool} (agrees : (Worker.notifying fault).Agrees started poisoned) :
    (Worker.notified fault).Agrees started poisoned := by
  cases fault with
  | none => trivial
  | some fault => exact agrees

/-- The fault of a task is with a worker. -/
def Worker.Carries (worker : Worker τ) (execution : Execution τ) (fault : Fault) : Prop :=
  execution ∈ worker.held ∨ worker.fault? = some fault

/-- A worker that has no task and that no fault has ended carries no fault. -/
theorem Worker.not_carries {worker : Worker τ} (held : worker.held = [])
    (unhurt : worker.fault? = none) {execution : Execution τ} {fault : Fault} :
    ¬worker.Carries execution fault := by
  rintro (member | hurt)
  · rw [held] at member
    cases member
  · cases unhurt.symm.trans hurt

namespace Crew

/-- Every fault of a task that has been taken is with a worker. -/
structure Answered (crew : Crew τ σ) : Prop where
  agrees : ∀ worker ∈ crew.workers, worker.Agrees crew.started crew.poisoned
  kept : ∀ execution ∈ crew.started, ∀ fault, execution.fault = some fault →
    ∃ worker ∈ crew.workers, worker.Carries execution fault

variable {crew next : Crew τ σ} {position place : Nat} {before after : Worker τ}

/-- Where no task has been taken and no worker started, there is no fault. -/
theorem answered_of_unmanned (unmanned : crew.workers = []) (none : crew.started = []) :
    crew.Answered where
  agrees := by simp [unmanned]
  kept := by simp [none]

/-- Where no task has been taken, workers that are ready have no fault to answer for. -/
theorem answered_of_ready (ready : ∀ worker ∈ crew.workers, worker = .ready)
    (none : crew.started = []) : crew.Answered where
  agrees worker member := by
    rw [ready worker member]
    trivial
  kept := by simp [none]

/-- A worker that acts takes care of the fault of its task. -/
theorem Answered.become (answered : crew.Answered)
    (here : crew.workers[position]? = some before)
    (workers : next.workers = (crew.become position after).workers)
    (grown : ∀ execution ∈ crew.started, execution ∈ next.started)
    (new : ∀ execution ∈ next.started, execution ∈ crew.started ∨ execution ∈ after.held)
    (poisons : crew.poisoned = true → next.poisoned = true)
    (agrees : after.Agrees next.started next.poisoned)
    (keeps : ∀ execution fault, execution.fault = some fault → before.Carries execution fault →
      after.Carries execution fault) : next.Answered := by
  obtain ⟨others, front, back⟩ := exists_others here
  have arrives : after ∈ next.workers := by
    rw [workers]
    exact (back after).mem_iff.mp List.mem_cons_self
  constructor
  · intro worker member
    rw [workers] at member
    rcases List.mem_or_eq_of_mem_set member with old | rfl
    · exact (answered.agrees worker old).mono grown poisons
    · exact agrees
  · intro execution member fault faulty
    rcases new execution member with old | held
    · obtain ⟨worker, inside, carries⟩ := answered.kept execution old fault faulty
      rcases List.mem_cons.mp (front.mem_iff.mp inside) with rfl | other
      · exact ⟨after, arrives, keeps execution fault faulty carries⟩
      · refine ⟨worker, ?_, carries⟩
        rw [workers]
        exact (back after).mem_iff.mp (List.mem_cons_of_mem _ other)
    · exact ⟨after, arrives, .inl held⟩

/-- A worker that acts without taking a task takes care of the fault that it carries. -/
theorem Answered.keep (answered : crew.Answered)
    (here : crew.workers[position]? = some before)
    (workers : next.workers = (crew.become position after).workers)
    (started : next.started = crew.started) (poisons : crew.poisoned = true → next.poisoned = true)
    (agrees : after.Agrees crew.started next.poisoned)
    (keeps : ∀ execution fault, execution.fault = some fault → before.Carries execution fault →
      after.Carries execution fault) : next.Answered := by
  apply answered.become here workers ?_ ?_ poisons (started ▸ agrees) keeps
  · exact fun execution member => started ▸ member
  · exact fun execution member => .inl (started ▸ member)

/-- A worker that acts without a task has no fault to take care of. -/
theorem Answered.rest (answered : crew.Answered)
    (here : crew.workers[position]? = some before) (idle : before.held = [])
    (unhurt : before.fault? = none) (agrees : after.Agrees crew.started crew.poisoned) :
    (crew.become position after).Answered :=
  answered.keep here rfl rfl id agrees fun _ _ _ carries =>
    absurd carries (Worker.not_carries idle unhurt)

/-- A task that ends without a fault has none to take care of. -/
theorem Answered.finish (answered : crew.Answered) {execution : Execution τ}
    (here : crew.workers[position]? = some (.busy execution [] false))
    (clean : execution.fault = none) :
    (crew.countOff position execution crew.afterwards).Answered := by
  refine answered.keep here rfl rfl id ?_ fun other fault faulty carries => ?_
  · unfold afterwards
    split <;> trivial
  · rcases carries with member | hurt
    · rw [List.mem_singleton.mp member, clean] at faulty
      cases faulty
    · cases hurt

/-- A task that has reported its fault leaves it with its worker. -/
theorem Answered.fail (answered : crew.Answered) {execution : Execution τ} {fault : Fault}
    (here : crew.workers[position]? = some (.failing execution fault)) :
    (crew.countOff position execution (.notifying (some fault))).Answered := by
  obtain ⟨member, faulty, poisoned⟩ : (Worker.failing execution fault).Agrees crew.started
      crew.poisoned := answered.agrees _ (List.mem_of_getElem? here)
  refine answered.keep here rfl rfl id ⟨⟨execution, member, faulty⟩, poisoned⟩ ?_
  rintro other another same (held | hurt)
  · rw [List.mem_singleton.mp held] at same
    exact .inr (faulty.symm.trans same)
  · cases hurt

/-- A worker that has notified the owner keeps its fault. -/
theorem Answered.notify (answered : crew.Answered) {fault : Option Fault}
    (here : crew.workers[position]? = some (.notifying fault)) (owner : Watch) :
    ({ crew.become position (.notified fault) with owner } : Crew τ σ).Answered := by
  have agrees := answered.agrees _ (List.mem_of_getElem? here)
  refine answered.keep here rfl rfl id agrees.notified ?_
  rintro other another same (held | hurt)
  · cases held
  · obtain rfl : fault = some another := hurt
    exact .inr rfl

/-- A worker's turn keeps every fault with a worker. -/
theorem Answered.act (answered : crew.Answered)
    (acted : crew.act execute position place = some next) : next.Answered := by
  have agrees {worker : Worker τ} (here : crew.workers[position]? = some worker) :
      worker.Agrees crew.started crew.poisoned :=
    answered.agrees worker (List.mem_of_getElem? here)
  refine act_cases acted ?findOpen ?findClosed ?take ?park ?wake ?count ?spawn ?finish ?report
    ?fail ?notify
  case findOpen => exact fun here _ => answered.rest here rfl rfl trivial
  case findClosed => exact fun here _ => answered.rest here rfl rfl trivial
  case park => exact fun here _ _ => answered.rest here rfl rfl trivial
  case wake => exact fun here _ _ => answered.rest here rfl rfl trivial
  case take =>
    intro ticket here queued
    refine answered.become here rfl ?_ ?_ id ⟨?_, by simp⟩ fun _ _ _ carries =>
      absurd carries (Worker.not_carries rfl rfl)
    · exact fun other member => List.mem_append_left _ member
    · exact fun other member => List.mem_append.mp member
    · exact List.mem_append_right _ List.mem_cons_self
  case count =>
    intro execution task rest here
    exact answered.keep here rfl rfl id ⟨(agrees here).1, by simp⟩ fun _ _ _ carries => carries
  case spawn =>
    intro execution task rest here
    exact answered.keep here rfl rfl id ⟨(agrees here).1, by simp⟩ fun _ _ _ carries => carries
  case finish => exact fun execution here clean => answered.finish here clean
  case report =>
    intro execution fault here faulty
    exact answered.keep here rfl rfl (fun _ => rfl) ⟨(agrees here).1, faulty, rfl⟩
      fun _ _ _ carries => carries
  case fail => exact fun execution fault here => answered.fail here
  case notify => exact fun fault here _ => answered.notify here _

/-- A verdict names the fault of a task that has been executed, or none if there is no such
task. -/
structure Judges (crew : Crew τ σ) (verdict : Option Fault) : Prop where
  none_iff : verdict = none ↔ ∀ execution ∈ crew.started, execution.fault = none
  executed : ∀ fault, verdict = some fault →
    ∃ execution ∈ crew.started, execution.fault = some fault

/-- What a verdict says depends on the tasks that were executed. -/
theorem Judges.congr {verdict : Option Fault} (judges : crew.Judges verdict)
    (started : next.started = crew.started) : next.Judges verdict := by
  obtain ⟨none_iff, executed⟩ := judges
  exact ⟨by rw [started]; exact none_iff, by rw [started]; exact executed⟩

/-- The faults with the workers depend on the workers and on the tasks that were taken. -/
theorem Answered.congr (answered : crew.Answered) (workers : next.workers = crew.workers)
    (started : next.started = crew.started) (poisoned : next.poisoned = crew.poisoned) :
    next.Answered := by
  obtain ⟨agrees, kept⟩ := answered
  constructor
  · rw [workers, started, poisoned]
    exact agrees
  · rw [workers, started]
    exact kept

/-- The verdict is the fault of a worker that one has ended. -/
theorem verdict_eq_some {fault : Fault} (found : crew.verdict? = some fault) :
    .lost fault ∈ crew.workers := by
  obtain ⟨worker, member, ended⟩ := List.exists_of_findSome?_eq_some found
  cases worker with
  | lost other =>
    cases ended
    exact member
  | _ => cases ended

/-- There is no verdict exactly if no worker has been ended by a fault. -/
theorem verdict_eq_none : crew.verdict? = none ↔ ∀ fault, .lost fault ∉ crew.workers := by
  rw [verdict?, List.findSome?_eq_none_iff]
  constructor
  · intro none fault member
    cases none _ member
  · intro absent worker member
    cases worker with
    | lost fault => exact absurd member (absent fault)
    | _ => rfl

/-- A worker that is done carries a fault only if one has ended it. -/
theorem lost_of_carries {worker : Worker τ} (done : worker.isDone = true) {execution : Execution τ}
    {fault : Fault} (carries : worker.Carries execution fault) : worker = .lost fault := by
  rcases carries with member | hurt
  · rw [(Worker.rests_of_isDone done).held] at member
    cases member
  · cases worker with
    | lost other =>
      cases hurt
      rfl
    | retired => cases hurt
    | _ => cases done

/-- When all workers have ended, the verdict judges the tasks that were executed. -/
theorem Answered.judges (answered : crew.Answered)
    (done : ∀ worker ∈ crew.workers, worker.isDone = true) : crew.Judges crew.verdict? := by
  have lost {fault : Fault} (member : .lost fault ∈ crew.workers) :
      ∃ execution ∈ crew.started, execution.fault = some fault :=
    (answered.agrees (.lost fault) member).1
  constructor
  · rw [verdict_eq_none]
    constructor
    · intro absent execution member
      by_contra faulty
      obtain ⟨fault, faulty⟩ := Option.ne_none_iff_exists'.mp faulty
      obtain ⟨worker, inside, carries⟩ := answered.kept execution member fault faulty
      rw [lost_of_carries (done worker inside) carries] at inside
      exact absent fault inside
    · intro clean fault member
      obtain ⟨execution, inside, faulty⟩ := lost member
      cases (clean execution inside).symm.trans faulty
  · exact fun fault found => lost (verdict_eq_some found)

end Crew

/-- Where the owner is with its commands: between two runs, in one, or at the end of one. -/
inductive Period where
  | between
  | running
  | stopping

/-- The commands that are left at a period. -/
inductive Script : Period → List (Command τ) → Prop where
  | done : Script .between []
  | enqueue {task : τ} {todo : List (Command τ)} (later : Script .between todo) :
      Script .between (.enqueue task :: todo)
  | start {todo : List (Command τ)} (later : Script .running todo) :
      Script .between (.start :: todo)
  | request {task : τ} {todo : List (Command τ)} (later : Script .running todo) :
      Script .running (.enqueue task :: todo)
  | drain {todo : List (Command τ)} (later : Script .running todo) :
      Script .running (.drain :: todo)
  | close {todo : List (Command τ)} (later : Script .stopping todo) :
      Script .running (.close :: todo)
  | join {todo : List (Command τ)} (later : Script .between todo) :
      Script .stopping (.join :: todo)

/-- Activities one after the other are a script. -/
theorem script_commands (activities : List (Activity τ)) :
    Script .between (activities.flatMap Activity.commands) := by
  induction activities with
  | nil => exact .done
  | cons activity rest ih =>
    cases activity with
    | enqueue task => exact .enqueue ih
    | run requests =>
      refine .start ?_
      induction requests with
      | nil => exact .close (.join ih)
      | cons request later ih =>
        cases request with
        | enqueue task => exact .request ih
        | drain => exact .drain ih

namespace Lifecycle

open Crew

variable {life next : Lifecycle τ σ}

/-- What holds of a pool at a period before its first run is over. -/
inductive First : Period → Lifecycle τ σ → Prop where
  | between {life : Lifecycle τ σ} (isOpen : life.crew.closed = false)
      (unmanned : life.crew.workers = []) (none : life.crew.started = []) :
      First .between life
  | running {life : Lifecycle τ σ} (isOpen : life.crew.closed = false)
      (manned : life.crew.workers.length = life.size)
      (working : ∀ worker ∈ life.crew.workers, worker ≠ .retired)
      (answered : life.crew.Answered) : First .running life
  | stopping {life : Lifecycle τ σ} (isClosed : life.crew.closed = true)
      (answered : life.crew.Answered) : First .stopping life

/-- What holds of a pool at a period when its first run is over. -/
structure Past (period : Period) (life : Lifecycle τ σ) (verdict : Option Fault)
    (rest : List (Option Fault)) : Prop where
  isClosed : life.crew.closed = true
  shut : ∀ worker ∈ life.crew.workers, worker = .ready ∨ worker.isDone = true
  unhurt : period ≠ .between → life.crew.verdict? = none
  judges : life.crew.Judges verdict
  later : ∀ other ∈ rest, other = none

/-- What holds of a pool at a period. -/
inductive Fits (period : Period) (life : Lifecycle τ σ) : Prop where
  | first (running : life.verdicts = []) (first : First period life)
  | past (verdict : Option Fault) (rest : List (Option Fault))
      (ended : life.verdicts = verdict :: rest) (past : Past period life verdict rest)

/-- Before the first run is over, what holds then. -/
theorem Fits.of_running {period : Period} (fits : Fits period life) (running : life.verdicts = []) :
    First period life := by
  cases fits with
  | first _ first => exact first
  | past verdict rest ended past => cases running.symm.trans ended

/-- When the first run is over, what holds then. -/
theorem Fits.of_ended {period : Period} (fits : Fits period life) {verdict : Option Fault}
    {rest : List (Option Fault)} (ended : life.verdicts = verdict :: rest) :
    Past period life verdict rest := by
  cases fits with
  | first running first => cases running.symm.trans ended
  | past other more same past =>
    cases same.symm.trans ended
    exact past

/-- A pool that has been closed and whose workers are ready or have ended takes no task: all
that a worker can do is find it closed. -/
theorem act_of_shut {crew next : Crew τ σ} {position place : Nat} (isClosed : crew.closed = true)
    (shut : ∀ worker ∈ crew.workers, worker = .ready ∨ worker.isDone = true)
    (acted : crew.act execute position place = some next) :
    next = crew.become position .retired := by
  have quiet {worker : Worker τ} (here : crew.workers[position]? = some worker)
      (busy : worker ≠ .ready) (acts : worker.isDone = false) : False := by
    rcases shut worker (List.mem_of_getElem? here) with ready | done
    · exact busy ready
    · exact Bool.noConfusion (acts.symm.trans done)
  refine act_cases (motive := (· = crew.become position .retired)) acted ?findOpen ?findClosed
    ?take ?park ?wake ?count ?spawn ?finish ?report ?fail ?notify
  case findOpen => exact fun _ isOpen => Bool.noConfusion (isClosed.symm.trans isOpen)
  case findClosed => exact fun _ _ => rfl
  case take => exact fun _ here _ => (quiet here nofun rfl).elim
  case park => exact fun here _ _ => (quiet here nofun rfl).elim
  case wake => exact fun here _ _ => (quiet here nofun rfl).elim
  case count => exact fun _ _ _ here => (quiet here nofun rfl).elim
  case spawn => exact fun _ _ _ here => (quiet here nofun rfl).elim
  case finish => exact fun _ here _ => (quiet here nofun rfl).elim
  case report => exact fun _ _ here _ => (quiet here nofun rfl).elim
  case fail => exact fun _ _ here => (quiet here nofun rfl).elim
  case notify => exact fun _ here _ => (quiet here nofun rfl).elim

/-- What holds at a period does not depend on what waits and what has been counted. -/
theorem Fits.congr {period : Period} (fits : Fits period life) (size : next.size = life.size)
    (verdicts : next.verdicts = life.verdicts) (workers : next.crew.workers = life.crew.workers)
    (started : next.crew.started = life.crew.started)
    (poisoned : next.crew.poisoned = life.crew.poisoned)
    (closed : next.crew.closed = life.crew.closed) : Fits period next := by
  cases fits with
  | first running first =>
    refine .first (verdicts.trans running) ?_
    cases first with
    | between isOpen unmanned none =>
      exact .between (closed.trans isOpen) (workers.trans unmanned) (started.trans none)
    | running isOpen manned working answered =>
      refine .running (closed.trans isOpen) ?_ (workers ▸ working)
        (answered.congr workers started poisoned)
      rw [workers, manned, size]
    | stopping isClosed answered =>
      exact .stopping (closed.trans isClosed) (answered.congr workers started poisoned)
  | past verdict rest ended past =>
    obtain ⟨isClosed, shut, unhurt, judges, later⟩ := past
    refine .past verdict rest (verdicts.trans ended)
      ⟨closed.trans isClosed, workers ▸ shut, ?_, judges.congr started, later⟩
    rw [verdict?, workers]
    exact unhurt

/-- A worker's turn leaves the pool at its period. -/
theorem Fits.act {period : Period} (fits : Fits period life) {position place : Nat}
    {crew : Crew τ σ} (acted : life.crew.act execute position place = some crew) :
    Fits period { life with crew } := by
  obtain ⟨before, after, frame⟩ := frame_of_act acted
  cases fits with
  | first running first =>
    refine .first running ?_
    cases first with
    | between _ unmanned _ =>
      have here := frame.here
      rw [unmanned] at here
      cases here
    | running isOpen manned working answered =>
      refine .running (frame.closed.trans isOpen) ?_ ?_ (answered.act acted)
      · rw [frame.workers]
        exact List.length_set.trans manned
      · intro worker member
        rw [frame.workers] at member
        rcases List.mem_or_eq_of_mem_set member with old | rfl
        · exact working worker old
        · exact fun same => Bool.noConfusion (isOpen.symm.trans (frame.retires same))
    | stopping isClosed answered =>
      exact .stopping (frame.closed.trans isClosed) (answered.act acted)
  | past verdict rest ended past =>
    obtain ⟨isClosed, shut, unhurt, judges, later⟩ := past
    obtain rfl := act_of_shut isClosed shut acted
    refine .past verdict rest ended ⟨isClosed, ?_, ?_, judges.congr rfl, later⟩
    · intro worker member
      rcases List.mem_or_eq_of_mem_set member with old | rfl
      · exact shut worker old
      · exact .inr rfl
    · intro during
      rw [verdict_eq_none] at unhurt ⊢
      intro fault member
      rcases List.mem_or_eq_of_mem_set member with old | same
      · exact unhurt during fault old
      · cases same

/-- The owner starts the workers of a run. If it is not the first, they find the pool closed. -/
theorem Fits.start (fits : Fits .between life) (todo : List (Command τ)) :
    Fits .running { life with
      crew := { life.crew with workers := List.replicate life.size .ready }, todo } := by
  cases fits with
  | first running first =>
    cases first with | between isOpen unmanned none => ?_
    refine .first running (.running isOpen List.length_replicate ?_ (answered_of_ready ?_ none))
    · intro worker member
      rw [List.eq_of_mem_replicate member]
      nofun
    · exact fun worker => List.eq_of_mem_replicate
  | past verdict rest ended past =>
    obtain ⟨isClosed, shut, unhurt, judges, later⟩ := past
    refine .past verdict rest ended ⟨isClosed, ?_, ?_, judges.congr rfl, later⟩
    · exact fun worker member => .inl (List.eq_of_mem_replicate member)
    · intro _
      rw [verdict_eq_none]
      intro fault member
      cases List.eq_of_mem_replicate member

/-- The owner closes the pool. -/
theorem Fits.close (fits : Fits .running life) (todo : List (Command τ)) :
    Fits .stopping { life with crew := { life.crew with closed := true }, todo } := by
  cases fits with
  | first running first =>
    cases first with | running isOpen manned working answered => ?_
    exact .first running (.stopping rfl (answered.congr rfl rfl rfl))
  | past verdict rest ended past =>
    obtain ⟨isClosed, shut, unhurt, judges, later⟩ := past
    exact .past verdict rest ended ⟨rfl, shut, fun _ => unhurt nofun, judges.congr rfl, later⟩

/-- The owner sees how the workers of a run have ended. -/
theorem Fits.join (fits : Fits .stopping life)
    (done : ∀ worker ∈ life.crew.workers, worker.isDone = true) (todo : List (Command τ)) :
    Fits .between { life with todo, verdicts := life.verdicts ++ [life.crew.verdict?] } := by
  cases fits with
  | first running first =>
    cases first with | stopping isClosed answered => ?_
    refine .past life.crew.verdict? [] (by rw [running]; rfl) ?_
    exact ⟨isClosed, fun worker member => .inr (done worker member),
      fun during => absurd rfl during, answered.judges done, by simp⟩
  | past verdict rest ended past =>
    obtain ⟨isClosed, shut, unhurt, judges, later⟩ := past
    refine .past verdict (rest ++ [life.crew.verdict?]) (by rw [ended]; rfl)
      ⟨isClosed, shut, fun during => absurd rfl during, judges, ?_⟩
    intro other member
    rcases List.mem_append.mp member with old | new
    · exact later other old
    · rw [List.mem_singleton.mp new]
      exact unhurt nofun

/-- The owner's turn takes the pool to the period of the command. -/
theorem Fits.own {period : Period} (script : Script period life.todo) (fits : Fits period life)
    (owned : life.own = some next) :
    ∃ period, Script period next.todo ∧ Fits period next := by
  refine own_cases (motive := fun next => ∃ period, Script period next.todo ∧ Fits period next)
    owned ?submit ?enqueue ?start ?look ?leave ?close ?join
  case submit =>
    exact fun task rest _ => ⟨period, script, fits.congr rfl rfl rfl rfl rfl rfl⟩
  case enqueue =>
    intro task todo _ first
    rw [first] at script
    cases script with
    | enqueue later => exact ⟨_, later, fits.congr rfl rfl rfl rfl rfl rfl⟩
    | request later => exact ⟨_, later, fits.congr rfl rfl rfl rfl rfl rfl⟩
  case look => exact fun _ _ _ _ _ => ⟨period, script, fits.congr rfl rfl rfl rfl rfl rfl⟩
  case leave =>
    intro todo _ first _ _
    rw [first] at script
    cases script with
    | drain later => exact ⟨_, later, fits.congr rfl rfl rfl rfl rfl rfl⟩
  case start =>
    intro todo _ first _
    rw [first] at script
    cases script with
    | start later => exact ⟨_, later, fits.start todo⟩
  case close =>
    intro todo _ first
    rw [first] at script
    cases script with
    | close later => exact ⟨_, later, fits.close todo⟩
  case join =>
    intro todo _ first done
    rw [first] at script
    cases script with
    | join later => exact ⟨_, later, fits.join done todo⟩

/-- The owner is at some period, and the pool is as it has to be there. -/
def Lives (life : Lifecycle τ σ) : Prop := ∃ period, Script period life.todo ∧ Fits period life

/-- A pool that has just been opened is at its first period. -/
theorem lives_fresh (size : Nat) (state : σ) (activities : List (Activity τ)) :
    (fresh size state activities).Lives :=
  ⟨.between, script_commands activities, .first rfl (.between rfl rfl rfl)⟩

/-- Every turn leads from period to period. -/
theorem Lives.turn {turn : Turn} (lives : life.Lives)
    (turned : life.turn execute turn = some next) : next.Lives := by
  obtain ⟨period, script, fits⟩ := lives
  cases turn with
  | owner => exact fits.own script turned
  | worker position place =>
    obtain ⟨crew, acted, rfl⟩ := Option.map_eq_some_iff.mp turned
    exact ⟨period, script, fits.act acted⟩

/-- Until the first run is over, every fault of an executed task is with a worker. -/
theorem Lives.answered (lives : life.Lives) (running : life.verdicts = []) :
    life.crew.Answered := by
  obtain ⟨period, -, fits⟩ := lives
  cases fits.of_running running with
  | between _ unmanned none => exact answered_of_unmanned unmanned none
  | running _ _ _ answered => exact answered
  | stopping _ answered => exact answered

/-- A run that is over has ended as its tasks did, and the runs after it without a fault. -/
theorem Lives.past (lives : life.Lives) {verdict : Option Fault} {rest : List (Option Fault)}
    (past : life.verdicts = verdict :: rest) :
    life.crew.Judges verdict ∧ (∀ other ∈ rest, other = none) ∧
      ∀ worker ∈ life.crew.workers, worker = .ready ∨ worker.isDone = true := by
  obtain ⟨period, -, fits⟩ := lives
  have ended := fits.of_ended past
  exact ⟨ended.judges, ended.later, ended.shut⟩

end Lifecycle

end RadixSort
