import RadixSort.Proofs.Scheduler.Afterwards
import RadixSort.Proofs.Scheduler.Families

/-!
# One worker executes in level order

One worker that takes the task that has waited longest executes the trees that wait in level
order: a task that is taken goes ahead of all others, and its children wait behind them. The
owner enqueues a tree only before the run or when the pool is drained, so nothing comes in
between. What has been taken, followed by the level order of what waits, and by the families
of the trees that later rounds enqueue, is therefore the same list all the time, until a task
ends in a fault. Then the worker is gone, and what has been taken is what comes up to that
task in the list.
-/
namespace RadixSort

variable {ι : Type}

open TaskTree

/-- A worker that a fault has ended, or will end. -/
inductive Worker.Ending {τ : Type} (fault : Fault) : Worker τ → Prop where
  | failing (execution : Execution τ) : Ending fault (.failing execution fault)
  | notifying : Ending fault (.notifying (some fault))
  | lost : Ending fault (.lost fault)

namespace Crew

variable {crew next : Crew (TaskTree ι) Unit} {worker : Worker (TaskTree ι)}
  {order rest : List (TaskTree ι)}

/-- The only worker executes tasks in a given order. Of the tasks it has taken only the one
it executes may end in a fault, and `rest` comes after all that waits. -/
structure Serves (order rest : List (TaskTree ι)) (crew : Crew (TaskTree ι) Unit)
    (worker : Worker (TaskTree ι)) : Prop where
  workers : crew.workers = [worker]
  unhurt : crew.poisoned = false
  clean : ∃ ended, crew.started = ended ++ worker.held ∧
    ∀ execution ∈ ended, execution.fault = none
  order : crew.started.map (fun execution => execution.task) ++
    (levelOrder crew.untaken ++ rest) = order
  apart : crew.entering ≠ [] →
    crew.entering.length = 1 ∧ crew.queue = [] ∧ worker.held = []

/-- The only worker has been ended by the first fault of the order, or will be. -/
structure Halted (order : List (TaskTree ι)) (crew : Crew (TaskTree ι) Unit) (fault : Fault) :
    Prop where
  workers : ∃ worker, crew.workers = [worker] ∧ worker.Ending fault
  executed : crew.started.map (fun execution => execution.task) = upToFault order
  first : order.findSome? TaskTree.fault = some fault

/-- Where there is one worker, it is the one that acts. -/
theorem eq_of_workers {position : Nat} {acting : Worker (TaskTree ι)}
    (only : crew.workers = [worker]) (here : crew.workers[position]? = some acting) :
    acting = worker ∧ ∀ after, (crew.become position after).workers = [after] := by
  rw [only] at here
  cases position with
  | zero =>
    refine ⟨(Option.some.inj here).symm, fun after => ?_⟩
    rw [become, only]
    rfl
  | succ position => cases here

/-- What has been taken without a fault has no fault in its tree. -/
theorem Grown.faultless (grown : crew.Grown) {ended : List (Execution (TaskTree ι))}
    (taken : ∀ execution ∈ ended, execution ∈ crew.started)
    (clean : ∀ execution ∈ ended, execution.fault = none) :
    ∀ task ∈ ended.map (fun execution => execution.task), task.fault = none := by
  intro task member
  obtain ⟨execution, inside, rfl⟩ := List.mem_map.mp member
  rw [← (grown.told execution (taken execution inside)).2]
  exact clean execution inside

/-- The order depends on the worker, on what has been taken, and on what has not. -/
theorem Serves.congr (serves : Serves order rest crew worker)
    (workers : next.workers = crew.workers) (poisoned : next.poisoned = crew.poisoned)
    (started : next.started = crew.started) (untaken : next.untaken = crew.untaken)
    (apart : next.entering ≠ [] →
      next.entering.length = 1 ∧ next.queue = [] ∧ worker.held = []) :
    Serves order rest next worker := by
  obtain ⟨only, unhurt, clean, inOrder, -⟩ := serves
  refine ⟨workers.trans only, poisoned.trans unhurt, started ▸ clean, ?_, apart⟩
  rw [started, untaken]
  exact inOrder

/-- A worker that goes on without a task changes nothing. -/
theorem Serves.become (serves : Serves order rest crew worker) {position : Nat}
    (here : crew.workers[position]? = some worker) {after : Worker (TaskTree ι)}
    (held : after.held = worker.held) (unqueued : after.unqueued = worker.unqueued) :
    Serves order rest (crew.become position after) after := by
  obtain ⟨only, unhurt, clean, inOrder, apart⟩ := serves
  have alone := (eq_of_workers only here).2 after
  refine ⟨alone, unhurt, held ▸ clean, ?_, held ▸ apart⟩
  have untaken : (crew.become position after).untaken = crew.untaken := by
    rw [untaken, untaken, alone, only, List.flatMap_singleton, List.flatMap_singleton, unqueued]
    rfl
  rw [untaken]
  exact inOrder

/-- The worker takes the task that has waited longest. -/
theorem Serves.take (serves : Serves order rest crew .searching) {position : Nat}
    (here : crew.workers[position]? = some .searching) {ticket : Ticket (TaskTree ι)}
    (waits : crew.queue[0]? = some ticket) :
    Serves order rest (crew.takeUp TaskTree.execute position 0 ticket)
      (.busy (crew.execution TaskTree.execute ticket) ticket.task.children false) := by
  obtain ⟨only, unhurt, ⟨ended, started, clean⟩, inOrder, apart⟩ := serves
  obtain ⟨left, queue⟩ : ∃ left, crew.queue = ticket :: left := by
    cases kind : crew.queue with
    | nil => simp [kind] at waits
    | cons first left =>
      rw [kind] at waits
      exact ⟨left, by rw [Option.some.inj waits]⟩
  have entered : crew.entering = [] := by
    by_contra some
    rw [queue] at apart
    cases (apart some).2.1
  let execution := crew.execution TaskTree.execute ticket
  have alone := (eq_of_workers only here).2 (.busy execution ticket.task.children false)
  refine ⟨alone, unhurt, ⟨ended, ?_, clean⟩, ?_, fun some => absurd entered some⟩
  · change crew.started ++ [execution] = ended ++ [execution]
    rw [started]
    exact congrArg (· ++ [execution]) (List.append_nil ended)
  · have before : crew.untaken = ticket.task :: left.map Ticket.task := by
      rw [untaken, queue, entered, only]
      exact List.append_nil _
    have after : (crew.takeUp TaskTree.execute position 0 ticket).untaken =
        left.map Ticket.task ++ ticket.task.children := by
      change (crew.queue.eraseIdx 0).map Ticket.task ++ (crew.entering ++
        (crew.become position (.busy execution ticket.task.children false)).workers.flatMap
          Worker.unqueued) = _
      rw [alone, queue, entered, List.flatMap_singleton]
      rfl
    rw [before, levelOrder_cons] at inOrder
    rw [after, ← inOrder]
    change (crew.started ++ [execution]).map _ ++ _ = _
    rw [List.map_append, List.append_assoc]
    rfl

/-- The task of the worker puts its next child into the queue. -/
theorem Serves.spawn {execution : Execution (TaskTree ι)} {child : TaskTree ι}
    {left : List (TaskTree ι)}
    (serves : Serves order rest crew (.busy execution (child :: left) true)) {position : Nat}
    (here : crew.workers[position]? = some (.busy execution (child :: left) true)) :
    Serves order rest ((crew.become position (.busy execution left false)).push child)
      (.busy execution left false) := by
  obtain ⟨only, unhurt, clean, inOrder, apart⟩ := serves
  have entered : crew.entering = [] := by
    by_contra some
    cases (apart some).2.2
  have alone := (eq_of_workers only here).2 (.busy execution left false)
  refine ⟨alone, unhurt, clean, ?_, fun some => absurd entered some⟩
  have same : ((crew.become position (.busy execution left false)).push child).untaken =
      crew.untaken := by
    rw [untaken, untaken, only]
    change (crew.queue ++ [_]).map Ticket.task ++ (crew.entering ++
      ((crew.become position _).workers.flatMap Worker.unqueued)) = _
    rw [alone, entered, List.map_append]
    simp [Worker.unqueued]
  rw [same]
  exact inOrder

/-- The task of the worker has ended without a fault. -/
theorem Serves.finish {execution : Execution (TaskTree ι)}
    (serves : Serves order rest crew (.busy execution [] false))
    {position : Nat} (here : crew.workers[position]? = some (.busy execution [] false))
    (faultless : execution.fault = none) :
    Serves order rest (crew.countOff position execution crew.afterwards) crew.afterwards := by
  obtain ⟨only, unhurt, ⟨ended, started, clean⟩, inOrder, apart⟩ := serves
  have rests := crew.rests_afterwards
  have alone := (eq_of_workers only here).2 crew.afterwards
  refine ⟨alone, unhurt, ⟨ended ++ [execution], ?_, ?_⟩, ?_, ?_⟩
  · rw [rests.held, List.append_nil]
    exact started
  · intro other member
    rcases List.mem_append.mp member with old | new
    · exact clean other old
    · rw [List.mem_singleton.mp new]
      exact faultless
  · have same : (crew.countOff position execution crew.afterwards).untaken = crew.untaken := by
      change crew.queue.map Ticket.task ++ (crew.entering ++
        ((crew.become position crew.afterwards).workers.flatMap Worker.unqueued)) = _
      rw [untaken, alone, only, List.flatMap_singleton, rests.unqueued]
      rfl
    rw [same]
    exact inOrder
  · exact fun some => ⟨(apart some).1, (apart some).2.1, rests.held⟩

/-- The worker has notified the owner. -/
theorem Serves.notify {fault : Option Fault} (serves : Serves order rest crew (.notifying fault))
    {position : Nat} (here : crew.workers[position]? = some (.notifying fault)) (owner : Watch) :
    Serves order rest { crew.become position (.notified fault) with owner } (.notified fault) := by
  have rests := Worker.rests_notified (τ := TaskTree ι) fault
  have kept : Serves order rest (crew.become position (.notified fault)) (.notified fault) :=
    serves.become here rests.held rests.unqueued
  exact ⟨kept.workers, kept.unhurt, kept.clean, kept.order, kept.apart⟩

/-- The task of the worker has ended in a fault. All before it in the order have been
executed without one. -/
theorem Serves.report {execution : Execution (TaskTree ι)} {fault : Fault} (grown : crew.Grown)
    (serves : Serves order rest crew (.busy execution [] false)) {position : Nat}
    (here : crew.workers[position]? = some (.busy execution [] false))
    (faulty : execution.fault = some fault) :
    Halted order { crew.become position (.failing execution fault) with poisoned := true }
      fault := by
  obtain ⟨only, unhurt, ⟨ended, started, clean⟩, inOrder, apart⟩ := serves
  have taken : ∀ other ∈ ended, other ∈ crew.started := fun other member =>
    started ▸ List.mem_append_left _ member
  have last : execution.task.fault = some fault := by
    have member : execution ∈ crew.started := started ▸ List.mem_append_right _ List.mem_cons_self
    rw [← (grown.told execution member).2]
    exact faulty
  have faultless := grown.faultless taken clean
  have split : ended.map (fun execution => execution.task) ++
      execution.task :: (levelOrder crew.untaken ++ rest) = order := by
    rw [← inOrder, started, List.map_append, List.append_assoc]
    rfl
  refine ⟨⟨_, (eq_of_workers only here).2 _, .failing execution⟩, ?_, ?_⟩
  · change crew.started.map _ = _
    rw [← split, upToFault_append faultless, upToFault, last, if_neg (Option.some_ne_none fault),
      started, List.map_append]
    rfl
  · rw [← split, List.findSome?_append, List.findSome?_eq_none_iff.mpr faultless]
    exact List.findSome?_cons_of_isSome (by rw [last]; rfl) |>.trans last

/-- A turn of the only worker at which it takes no task out of order keeps the order, until a
task ends in a fault. -/
theorem Serves.act (serves : Serves order rest crew worker) (answered : crew.Answered)
    (grown : crew.Grown) {position : Nat}
    (acted : crew.act TaskTree.execute position 0 = some next) :
    (∃ worker, Serves order rest next worker) ∨ ∃ fault, Halted order next fault := by
  have acting {other : Worker (TaskTree ι)} (here : crew.workers[position]? = some other) :
      worker = other := (eq_of_workers serves.workers here).1.symm
  refine act_cases (motive := fun next =>
    (∃ worker, Serves order rest next worker) ∨ ∃ fault, Halted order next fault) acted ?findOpen
    ?findClosed ?take ?park ?wake ?count ?spawn ?finish ?report ?fail ?notify
  case findOpen =>
    intro here _
    obtain rfl := acting here
    exact .inl ⟨_, serves.become here rfl rfl⟩
  case findClosed =>
    intro here _
    obtain rfl := acting here
    exact .inl ⟨_, serves.become here rfl rfl⟩
  case take =>
    intro ticket here waits
    obtain rfl := acting here
    exact .inl ⟨_, serves.take here waits⟩
  case park =>
    intro here _ _
    obtain rfl := acting here
    exact .inl ⟨_, serves.become here rfl rfl⟩
  case wake =>
    intro here _ _
    obtain rfl := acting here
    exact .inl ⟨_, serves.become here rfl rfl⟩
  case count =>
    intro execution child left here
    obtain rfl := acting here
    let counting : Worker (TaskTree ι) := .busy execution (child :: left) true
    have kept : Serves order rest (crew.become position counting) counting :=
      serves.become here rfl rfl
    exact .inl ⟨_, kept.workers, kept.unhurt, kept.clean, kept.order, kept.apart⟩
  case spawn =>
    intro execution child left here
    obtain rfl := acting here
    exact .inl ⟨_, serves.spawn here⟩
  case finish =>
    intro execution here clean
    obtain rfl := acting here
    exact .inl ⟨_, serves.finish here clean⟩
  case report =>
    intro execution fault here faulty
    obtain rfl := acting here
    exact .inr ⟨fault, serves.report grown here faulty⟩
  case fail =>
    intro execution fault here
    have agrees := answered.agrees _ (List.mem_of_getElem? here)
    exact Bool.noConfusion (serves.unhurt.symm.trans agrees.2.2)
  case notify =>
    intro fault here _
    obtain rfl := acting here
    exact .inl ⟨_, serves.notify here _⟩

/-- A worker that has been ended by a fault, or will be, takes no other task. -/
theorem Halted.act {fault : Fault} (halted : Halted order crew fault) {position place : Nat}
    (acted : crew.act TaskTree.execute position place = some next) :
    Halted order next fault := by
  obtain ⟨⟨worker, only, ending⟩, executed, first⟩ := halted
  have acting {other : Worker (TaskTree ι)} (here : crew.workers[position]? = some other) :
      other.Ending fault ∧ ∀ after, (crew.become position after).workers = [after] :=
    ⟨(eq_of_workers only here).1 ▸ ending, (eq_of_workers only here).2⟩
  have elsewhere {other : Worker (TaskTree ι)} (here : crew.workers[position]? = some other)
      (works : ¬other.Ending fault) : False := works (acting here).1
  refine act_cases (motive := fun next => Halted order next fault) acted ?findOpen ?findClosed
    ?take ?park ?wake ?count ?spawn ?finish ?report ?fail ?notify
  case findOpen => exact fun here _ => (elsewhere here nofun).elim
  case findClosed => exact fun here _ => (elsewhere here nofun).elim
  case take => exact fun _ here _ => (elsewhere here nofun).elim
  case park => exact fun here _ _ => (elsewhere here nofun).elim
  case wake => exact fun here _ _ => (elsewhere here nofun).elim
  case count => exact fun _ _ _ here => (elsewhere here nofun).elim
  case spawn => exact fun _ _ _ here => (elsewhere here nofun).elim
  case finish => exact fun _ here _ => (elsewhere here nofun).elim
  case report => exact fun _ _ here _ => (elsewhere here nofun).elim
  case fail =>
    intro execution other here
    obtain ⟨ends, alone⟩ := acting here
    cases ends
    exact ⟨⟨_, alone _, .notifying⟩, executed, first⟩
  case notify =>
    intro other here _
    obtain ⟨ends, alone⟩ := acting here
    cases ends
    exact ⟨⟨_, alone _, .lost⟩, executed, first⟩

/-- Where no task waits and none is executed, the only worker keeps the order whatever it
does. -/
theorem Serves.quiet (serves : Serves order rest crew worker) (quiet : crew.queue = [])
    (idle : worker.held = []) {position place : Nat}
    (acted : crew.act TaskTree.execute position place = some next) :
    ∃ after, Serves order rest next after ∧ next.queue = [] ∧ next.entering = crew.entering ∧
      after.held = [] := by
  have executing : crew.executing = [] := by
    rw [executing, serves.workers, List.flatMap_singleton]
    exact idle
  obtain ⟨acting, _, frame⟩ := frame_of_act acted
  obtain ⟨after, owner, rfl, rests⟩ := act_of_quiet quiet executing acted
  have here := frame.here
  rw [(eq_of_workers serves.workers here).1] at here
  have unqueued : after.unqueued = worker.unqueued := by
    rw [(Worker.rests_of_held rests).unqueued, (Worker.rests_of_held idle).unqueued]
  have kept : Serves order rest (crew.become position after) after :=
    serves.become here (rests.trans idle.symm) unqueued
  exact ⟨after, ⟨kept.workers, kept.unhurt, kept.clean, kept.order, kept.apart⟩, quiet, rfl, rests⟩

end Crew

namespace Lifecycle

open Crew

variable {life next : Lifecycle (TaskTree ι) Unit}

/-- The commands of rounds that each enqueue a tree and drain the pool. -/
def roundCommands (trees : List (TaskTree ι)) : List (Command (TaskTree ι)) :=
  trees.flatMap fun tree => [.enqueue tree, .drain]

/-- The order in which the trees enqueued before a run, and then those of its rounds, are
executed by one worker. -/
def order (before rounds : List (TaskTree ι)) : List (TaskTree ι) :=
  levelOrder before ++ rounds.flatMap family

/-- Where a run of one worker is that executes trees in order. -/
inductive Ordered (before rounds : List (TaskTree ι)) (later : List (Command (TaskTree ι))) :
    Lifecycle (TaskTree ι) Unit → Prop where
  /-- The trees before the run are being enqueued. -/
  | waiting {life : Lifecycle (TaskTree ι) Unit} (left : List (TaskTree ι)) (size : life.size = 1)
      (running : life.verdicts = []) (unmanned : life.crew.workers = [])
      (none : life.crew.started = []) (unhurt : life.crew.poisoned = false)
      (forest : life.crew.queue.map Ticket.task ++ (life.crew.entering ++ left) = before)
      (todo : life.todo = left.map Command.enqueue ++
        .start :: .drain :: (roundCommands rounds ++ .close :: .join :: later)) :
      Ordered before rounds later life
  /-- The owner waits for the pool to be drained, or enqueues a tree and will wait. -/
  | draining {life : Lifecycle (TaskTree ι) Unit} (left : List (TaskTree ι))
      (worker : Worker (TaskTree ι)) (running : life.verdicts = [])
      (serves : Serves (order before rounds) (left.flatMap family) life.crew worker)
      (todo : life.todo = .drain :: (roundCommands left ++ .close :: .join :: later)) :
      Ordered before rounds later life
  /-- The pool is drained. -/
  | drained {life : Lifecycle (TaskTree ι) Unit} (left : List (TaskTree ι))
      (worker : Worker (TaskTree ι)) (running : life.verdicts = [])
      (serves : Serves (order before rounds) (left.flatMap family) life.crew worker)
      (quiet : life.crew.queue = []) (entered : life.crew.entering = [])
      (idle : worker.held = [])
      (todo : life.todo = roundCommands left ++ .close :: .join :: later) :
      Ordered before rounds later life
  /-- The pool has been closed. -/
  | stopping {life : Lifecycle (TaskTree ι) Unit} (worker : Worker (TaskTree ι))
      (running : life.verdicts = [])
      (serves : Serves (order before rounds) [] life.crew worker)
      (quiet : life.crew.queue = []) (entered : life.crew.entering = [])
      (idle : worker.held = []) (todo : life.todo = .join :: later) :
      Ordered before rounds later life
  /-- A task has ended in a fault. -/
  | halted {life : Lifecycle (TaskTree ι) Unit} (fault : Fault) (running : life.verdicts = [])
      (halted : Halted (order before rounds) life.crew fault) : Ordered before rounds later life
  /-- The run is over. -/
  | past {life : Lifecycle (TaskTree ι) Unit} (verdict : Option Fault)
      (rest : List (Option Fault)) (past : life.verdicts = verdict :: rest)
      (executed : life.crew.started.map (fun execution => execution.task) =
        upToFault (order before rounds))
      (first : (order before rounds).findSome? TaskTree.fault = verdict) :
      Ordered before rounds later life

variable {before rounds : List (TaskTree ι)} {later : List (Command (TaskTree ι))}

/-- A turn when the run is over. -/
theorem Ordered.of_past (lives : life.Lives) {verdict : Option Fault} {rest : List (Option Fault)}
    (past : life.verdicts = verdict :: rest)
    (executed : life.crew.started.map (fun execution => execution.task) =
      upToFault (order before rounds))
    (first : (order before rounds).findSome? TaskTree.fault = verdict) {turn : Turn}
    (turned : life.turn TaskTree.execute turn = some next) : Ordered before rounds later next := by
  have same := started_of_turn lives (by rw [past]; exact List.cons_ne_nil _ _) turned
  obtain ⟨-, more, longer⟩ := record_of_turn turned
  exact .past verdict (rest ++ more) (by rw [longer, past]; rfl) (same ▸ executed) first

/-- A turn of the only worker at which it takes no task out of order. -/
theorem Ordered.act (ordered : Ordered before rounds later life) (lives : life.Lives)
    (grown : life.crew.Grown) {position : Nat} {crew : Crew (TaskTree ι) Unit}
    (acted : life.crew.act TaskTree.execute position 0 = some crew) :
    Ordered before rounds later { life with crew } := by
  cases ordered with
  | waiting left size running unmanned none unhurt forest todo =>
    obtain ⟨_, _, frame⟩ := frame_of_act acted
    have here := frame.here
    rw [unmanned] at here
    cases here
  | draining left worker running serves todo =>
    rcases serves.act (lives.answered running) grown acted with
      ⟨after, still⟩ | ⟨fault, halted⟩
    · exact .draining left after running still todo
    · exact .halted fault running halted
  | drained left worker running serves quiet entered idle todo =>
    obtain ⟨after, still, empty, same, rests⟩ := serves.quiet quiet idle acted
    exact .drained left after running still empty (same.trans entered) rests todo
  | stopping worker running serves quiet entered idle todo =>
    obtain ⟨after, still, empty, same, rests⟩ := serves.quiet quiet idle acted
    exact .stopping after running still empty (same.trans entered) rests todo
  | halted fault running halted => exact .halted fault running (halted.act acted)
  | past verdict rest past executed first =>
    have turned : life.turn TaskTree.execute (.worker position 0) = some { life with crew } := by
      rw [turn, acted]
      rfl
    exact of_past lives past executed first turned

/-- The owner's turn while it enqueues the trees before the run. -/
theorem Ordered.own_waiting {left : List (TaskTree ι)} (size : life.size = 1)
    (running : life.verdicts = []) (unmanned : life.crew.workers = [])
    (none : life.crew.started = []) (unhurt : life.crew.poisoned = false)
    (forest : life.crew.queue.map Ticket.task ++ (life.crew.entering ++ left) = before)
    (todo : life.todo = left.map Command.enqueue ++
      .start :: .drain :: (roundCommands rounds ++ .close :: .join :: later))
    (owned : life.own = some next) : Ordered before rounds later next := by
  cases entered : life.crew.entering with
  | cons tree rest =>
    rw [own_submit entered] at owned
    cases owned
    refine .waiting left size running unmanned none unhurt ?_ todo
    rw [← forest, entered]
    simp [push]
  | nil =>
    cases left with
    | cons tree left =>
      rw [own_enqueue entered todo] at owned
      cases owned
      refine .waiting left size running unmanned none unhurt ?_ rfl
      rw [← forest, entered]
      simp [announce, entered]
    | nil =>
      rw [own_start entered todo (by rw [unmanned]; rfl)] at owned
      cases owned
      let manned : Crew (TaskTree ι) Unit :=
        { life.crew with workers := List.replicate life.size .ready }
      have workers : manned.workers = [.ready] := by
        change List.replicate life.size Worker.ready = _
        rw [size]
        rfl
      have untaken : manned.untaken = before := by
        rw [Crew.untaken, workers]
        exact forest
      refine .draining rounds .ready running (?_ : Serves _ _ manned _) rfl
      refine ⟨workers, unhurt, ⟨[], none, by simp⟩, ?_, fun some => absurd entered some⟩
      rw [untaken, order]
      change life.crew.started.map _ ++ _ = _
      rw [none]
      rfl

/-- The owner's turn while it waits for the pool to be drained, or enqueues a tree. -/
theorem Ordered.own_draining {left : List (TaskTree ι)} {worker : Worker (TaskTree ι)}
    (running : life.verdicts = []) (sound : life.crew.Sound)
    (serves : Serves (order before rounds) (left.flatMap family) life.crew worker)
    (todo : life.todo = .drain :: (roundCommands left ++ .close :: .join :: later))
    (owned : life.own = some next) : Ordered before rounds later next := by
  cases entered : life.crew.entering with
  | cons tree rest =>
    rw [own_submit entered] at owned
    cases owned
    have alone := (serves.apart (by rw [entered]; exact List.cons_ne_nil _ _)).1
    rw [entered] at alone
    obtain rfl : rest = [] := List.length_eq_zero_iff.mp (Nat.succ.inj alone)
    refine .draining left worker running (serves.congr rfl rfl rfl ?_ (absurd rfl)) todo
    change (life.crew.queue ++ [_]).map Ticket.task ++ ([] ++ _) = _
    rw [untaken, entered, List.map_append, List.append_assoc]
    rfl
  | nil =>
    by_cases asleep : life.crew.owner = .asleep
    · rw [own_asleep entered todo asleep] at owned
      cases owned
    rw [own_look entered todo asleep] at owned
    by_cases away : life.crew.look = .away
    · rw [if_pos away] at owned
      cases owned
      have pending : life.crew.pending = 0 := by
        rcases look_eq_away.mp away with ⟨-, zero⟩ | ⟨-, poisoned⟩
        · exact zero
        · exact Bool.noConfusion (serves.unhurt.symm.trans poisoned)
      have drained := sound.drained pending
      have idle : worker.held = [] :=
        (drained.resting worker (by rw [serves.workers]; exact List.mem_cons_self)).held
      exact .drained left worker running (serves.congr rfl rfl rfl rfl serves.apart) drained.queue
        entered idle rfl
    · rw [if_neg away] at owned
      cases owned
      exact .draining left worker running (serves.congr rfl rfl rfl rfl serves.apart) todo

/-- Nothing waits in a pool whose queue is empty and whose only worker has no task. -/
theorem untaken_of_quiet {crew : Crew (TaskTree ι) Unit} {worker : Worker (TaskTree ι)}
    (only : crew.workers = [worker])
    (quiet : crew.queue = []) (entered : crew.entering = []) (idle : worker.held = []) :
    crew.untaken = [] := by
  rw [untaken, only, quiet, entered, List.flatMap_singleton,
    (Worker.rests_of_held idle).unqueued]
  rfl

/-- The owner's turn when the pool is drained. -/
theorem Ordered.own_drained {left : List (TaskTree ι)} {worker : Worker (TaskTree ι)}
    (running : life.verdicts = [])
    (serves : Serves (order before rounds) (left.flatMap family) life.crew worker)
    (quiet : life.crew.queue = []) (entered : life.crew.entering = []) (idle : worker.held = [])
    (todo : life.todo = roundCommands left ++ .close :: .join :: later)
    (owned : life.own = some next) : Ordered before rounds later next := by
  cases left with
  | nil =>
    rw [own_close entered todo] at owned
    cases owned
    let shut : Crew (TaskTree ι) Unit := { life.crew with closed := true }
    have closed : Serves (order before rounds) [] shut worker :=
      serves.congr rfl rfl rfl rfl fun some => absurd entered some
    exact .stopping worker running closed quiet entered idle rfl
  | cons tree left =>
    rw [own_enqueue entered todo] at owned
    cases owned
    have none := untaken_of_quiet serves.workers quiet entered idle
    have single : (life.crew.announce tree).entering = [tree] := by
      rw [announce, entered]
      rfl
    have some : (life.crew.announce tree).untaken = [tree] := by
      rw [untaken, single]
      change life.crew.queue.map Ticket.task ++ ([tree] ++ life.crew.workers.flatMap _) = _
      rw [quiet, serves.workers, List.flatMap_singleton, (Worker.rests_of_held idle).unqueued]
      rfl
    refine .draining left worker running (?_ : Serves _ _ (life.crew.announce tree) _) rfl
    refine ⟨serves.workers, serves.unhurt, serves.clean, ?_, ?_⟩
    case refine_2 => exact fun _ => ⟨congrArg List.length single, quiet, idle⟩
    -- Nothing waits, so the family of the next tree comes first in what is left of the order.
    have inOrder := serves.order
    rw [none, levelOrder_nil, List.flatMap_cons] at inOrder
    rw [some]
    exact inOrder

/-- The owner's turn when the pool has been closed. -/
theorem Ordered.own_stopping {worker : Worker (TaskTree ι)} (running : life.verdicts = [])
    (lives : life.Lives) (grown : life.crew.Grown)
    (serves : Serves (order before rounds) [] life.crew worker)
    (quiet : life.crew.queue = []) (entered : life.crew.entering = []) (idle : worker.held = [])
    (todo : life.todo = .join :: later)
    (owned : life.own = some next) : Ordered before rounds later next := by
  by_cases done : life.crew.workers.all Worker.isDone = true
  · rw [own_join entered todo done] at owned
    cases owned
    obtain ⟨ended, started, clean⟩ := serves.clean
    rw [idle, List.append_nil] at started
    have whole := serves.order
    rw [untaken_of_quiet serves.workers quiet entered idle, levelOrder_nil, List.append_nil,
      List.append_nil] at whole
    have faultless : ∀ task ∈ order before rounds, task.fault = none := by
      rw [← whole, started]
      exact grown.faultless (fun execution member => started ▸ member) clean
    have judges := (lives.answered running).judges (List.all_eq_true.mp done)
    have verdict : life.crew.verdict? = none := judges.none_iff.mpr (started ▸ clean)
    refine .past life.crew.verdict? [] (by rw [running]; rfl) ?_ ?_
    · exact whole.trans (upToFault_of_clean faultless).symm
    · rw [verdict]
      exact List.findSome?_eq_none_iff.mpr faultless
  · rw [own_linger entered todo done] at owned
    cases owned

/-- The owner's turn when a task has ended in a fault. -/
theorem Ordered.own_halted {fault : Fault} (running : life.verdicts = []) (lives : life.Lives)
    (halted : Halted (order before rounds) life.crew fault)
    (owned : life.own = some next) : Ordered before rounds later next := by
  obtain ⟨workers, executed, first⟩ := halted
  refine own_cases (motive := Ordered before rounds later) owned ?submit ?enqueue ?start ?look
    ?leave ?close ?join
  case submit => exact fun _ _ _ => .halted fault running ⟨workers, executed, first⟩
  case enqueue => exact fun _ _ _ _ => .halted fault running ⟨workers, executed, first⟩
  case look => exact fun _ _ _ _ _ => .halted fault running ⟨workers, executed, first⟩
  case leave => exact fun _ _ _ _ _ => .halted fault running ⟨workers, executed, first⟩
  case close => exact fun _ _ _ => .halted fault running ⟨workers, executed, first⟩
  case start =>
    intro todo _ starts _
    -- A run that has not ended is started only once, so there is no worker to have a fault.
    obtain ⟨period, script, fits⟩ := lives
    rw [starts] at script
    cases script with | start later => ?_
    cases fits.of_running running with | between _ unmanned _ => ?_
    obtain ⟨worker, only, -⟩ := workers
    cases unmanned.symm.trans only
  case join =>
    intro todo _ _ done
    obtain ⟨worker, only, ending⟩ := workers
    have gone := done worker (by rw [only]; exact List.mem_cons_self)
    cases ending with
    | failing execution => cases gone
    | notifying => cases gone
    | lost =>
      refine .past (some fault) [] ?_ executed first
      change life.verdicts ++ [life.crew.verdict?] = _
      rw [running, verdict?, only]
      rfl

/-- A turn at which the only worker takes no task out of order. -/
theorem Ordered.turn (ordered : Ordered before rounds later life) (kept : life.Kept)
    (grown : life.crew.Grown) {turn : Turn} (inOrder : turn.inOrder = true)
    (turned : life.turn TaskTree.execute turn = some next) : Ordered before rounds later next := by
  cases turn with
  | worker position place =>
    obtain ⟨crew, acted, rfl⟩ := Option.map_eq_some_iff.mp turned
    rw [beq_iff_eq.mp inOrder] at acted
    exact ordered.act kept.lives grown acted
  | owner =>
    cases ordered with
    | waiting left size running unmanned none unhurt forest todo =>
      exact own_waiting size running unmanned none unhurt forest todo turned
    | draining left worker running serves todo =>
      exact own_draining running kept.sound serves todo turned
    | drained left worker running serves quiet entered idle todo =>
      exact own_drained running serves quiet entered idle todo turned
    | stopping worker running serves quiet entered idle todo =>
      exact own_stopping running kept.lives grown serves quiet entered idle todo turned
    | halted fault running halted => exact own_halted running kept.lives halted turned
    | past verdict rest past executed first => exact of_past kept.lives past executed first turned

/-- The commands of an owner that enqueues trees and then runs the pool in rounds. -/
theorem todo_fresh (before rounds : List (TaskTree ι)) (later : List (Activity (TaskTree ι))) :
    (fresh 1 () (before.map Activity.enqueue ++ .run (Request.rounds rounds) :: later)).todo =
      before.map Command.enqueue ++ .start :: .drain ::
        (roundCommands rounds ++ .close :: .join :: later.flatMap Activity.commands) := by
  have enqueues : (before.map Activity.enqueue).flatMap Activity.commands =
      before.map Command.enqueue := by
    rw [List.flatMap_map, List.map_eq_flatMap]
    rfl
  have requests : (Request.rounds rounds).map Request.command =
      .drain :: roundCommands rounds := by
    rw [Request.rounds, List.map_cons, List.map_flatMap]
    rfl
  change (before.map Activity.enqueue ++ _).flatMap Activity.commands = _
  rw [List.flatMap_append, enqueues, List.flatMap_cons, Activity.commands, requests]
  simp

/-- A pool on which trees are enqueued and then run in rounds has its order before it. -/
theorem ordered_fresh (before rounds : List (TaskTree ι))
    (later : List (Activity (TaskTree ι))) :
    Ordered before rounds (later.flatMap Activity.commands)
      (fresh 1 () (before.map Activity.enqueue ++ .run (Request.rounds rounds) :: later)) :=
  .waiting before rfl rfl rfl rfl rfl rfl (todo_fresh before rounds later)

/-- The families of the trees are kept by any number of turns. -/
theorem grown_of_play {turns : List Turn} (kept : life.Kept) (grown : life.crew.Grown)
    (played : play TaskTree.execute turns life = some next) : next.crew.Grown :=
  (play_induction (fun _ => True) (motive := fun life => life.Kept ∧ life.crew.Grown)
    (fun _ _ _ _ both turned =>
      ⟨both.1.turn turned, (run_of_turn both.1.watches turned).grown both.2⟩)
    (fun _ _ => trivial) ⟨kept, grown⟩ played).2

/-- Turns at which the only worker takes no task out of order. -/
theorem Ordered.play (ordered : Ordered before rounds later life) (kept : life.Kept)
    (grown : life.crew.Grown) {turns : List Turn} (inOrder : ∀ turn ∈ turns, turn.inOrder = true)
    (played : play TaskTree.execute turns life = some next) : Ordered before rounds later next := by
  have keeps : ∀ (between : Lifecycle (TaskTree ι) Unit) (turn : Turn)
      (after : Lifecycle (TaskTree ι) Unit), turn.inOrder = true →
      (between.Kept ∧ between.crew.Grown ∧ Ordered before rounds later between) →
      between.turn TaskTree.execute turn = some after →
      after.Kept ∧ after.crew.Grown ∧ Ordered before rounds later after := by
    rintro between turn after inOrder ⟨kept, grown, ordered⟩ turned
    exact ⟨kept.turn turned, (run_of_turn kept.watches turned).grown grown,
      ordered.turn kept grown inOrder turned⟩
  exact (play_induction (·.inOrder = true) keeps inOrder ⟨kept, grown, ordered⟩ played).2.2

/-- Where a fault has been reported or the run is over, what has been executed is what comes
first in the order, up to the first task that ends in a fault. -/
theorem Ordered.executed (ordered : Ordered before rounds later life)
    (ended : life.crew.poisoned = true ∨ life.verdicts ≠ []) :
    life.crew.started.map (fun execution => execution.task) =
      upToFault (order before rounds) := by
  have lasts (unhurt : life.crew.poisoned = false) (running : life.verdicts = []) : False := by
    rcases ended with poisoned | past
    · exact Bool.noConfusion (unhurt.symm.trans poisoned)
    · exact past running
  cases ordered with
  | waiting _ _ running _ _ unhurt _ _ => exact (lasts unhurt running).elim
  | draining _ _ running serves _ => exact (lasts serves.unhurt running).elim
  | drained _ _ running serves _ _ _ _ => exact (lasts serves.unhurt running).elim
  | stopping _ running serves _ _ _ _ => exact (lasts serves.unhurt running).elim
  | halted _ _ halted => exact halted.executed
  | past _ _ _ executed _ => exact executed

/-- A run that is over has ended with the first fault of the order, if there is one. -/
theorem Ordered.verdict (ordered : Ordered before rounds later life) {verdict : Option Fault}
    {rest : List (Option Fault)} (past : life.verdicts = verdict :: rest) :
    (order before rounds).findSome? TaskTree.fault = verdict := by
  cases ordered with
  | waiting _ _ running _ _ _ _ _ => cases running.symm.trans past
  | draining _ _ running _ _ => cases running.symm.trans past
  | drained _ _ running _ _ _ _ _ => cases running.symm.trans past
  | stopping _ running _ _ _ _ _ => cases running.symm.trans past
  | halted _ running _ => cases running.symm.trans past
  | past other more ended _ first =>
    cases ended.symm.trans past
    exact first

end Lifecycle

end RadixSort
