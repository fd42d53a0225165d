import RadixSort.Proofs.Scheduler.InOrder
import RadixSort.Proofs.Scheduler.Followed

/-!
# A session ends as every execution of one worker does

A session executes a task at a time and takes the one that has waited longest, so what it
executes is what comes first in level order, up to and including the first task that ends in
a fault. One worker whose turns interleave with those of the owner in any way, but which
takes no task out of order, executes the same tasks, and its run ends with the same fault.
So the outcome of a session does not depend on when its owner and its worker act.
-/
namespace RadixSort

variable {ι : Type}

open TaskTree

/-- At the front of a queue stands the task that has waited longest. -/
theorem Pool.take?_first {τ : Type} {pool : Pool τ} {task : τ} {rest : List τ}
    (queue : pool.queue = task :: rest) :
    pool.take? (0 % pool.queue.length) = some (task, { pool with queue := rest }) := by
  rw [Nat.zero_mod, take?, queue]
  rfl

namespace Session

/-- The number of tasks that tasks enqueue. -/
def offspring (tasks : List (TaskTree ι)) : Nat := (tasks.map fun task => task.children.length).sum

theorem offspring_append (first second : List (TaskTree ι)) :
    offspring (first ++ second) = offspring first + offspring second := by
  rw [offspring, List.map_append, List.sum_append]
  rfl

/-- Of some tasks, in their order, those up to the first that ends in a fault have been
executed since a session was as `before`, and `entered` trees have been enqueued. -/
structure Executed (before : Session ι) (tasks : List (TaskTree ι)) (entered : Nat)
    (fault : Option Fault) (after : Session ι) : Prop where
  first : tasks.findSome? TaskTree.fault = fault
  noted : after.executed = before.executed ++ (upToFault tasks).map TaskTree.id
  pending : after.pool.pending = after.pool.queue.length
  counted : after.pool.pending + (upToFault tasks).length =
    before.pool.pending + entered + offspring (upToFault tasks)
  isOpen : after.pool.closed = false
  poisoned : after.pool.poisoned = fault.isSome

variable {before middle after : Session ι} {tasks more : List (TaskTree ι)} {entered further : Nat}
  {fault : Option Fault}

/-- A session that goes on after a fault executes nothing of what follows. -/
theorem Executed.stop {fault : Fault} (executed : Executed before tasks entered (some fault) after)
    (more : List (TaskTree ι)) : Executed before (tasks ++ more) entered (some fault) after := by
  obtain ⟨first, noted, pending, counted, isOpen, poisoned⟩ := executed
  have same := upToFault_append_of_faulty first more
  refine ⟨?_, same.symm ▸ noted, pending, same.symm ▸ counted, isOpen, poisoned⟩
  rw [List.findSome?_append, first]
  rfl

/-- What is executed without a fault goes ahead of what is executed after it. -/
theorem Executed.trans (one : Executed before tasks entered none middle)
    (other : Executed middle more further fault after) :
    Executed before (tasks ++ more) (entered + further) fault after := by
  have clean := List.findSome?_eq_none_iff.mp one.first
  have split : upToFault (tasks ++ more) = upToFault tasks ++ upToFault more := by
    rw [upToFault_append clean, upToFault_of_clean clean]
  refine ⟨?_, ?_, other.pending, ?_, other.isOpen, other.poisoned⟩
  · rw [List.findSome?_append, one.first]
    exact other.first
  · rw [other.noted, one.noted, split, List.map_append, List.append_assoc]
  · have earlier := one.counted
    have later := other.counted
    rw [split, List.length_append, offspring_append]
    omega

/-- Enqueuing a tree executes nothing. -/
theorem Executed.enqueue (executed : Executed before tasks entered fault after)
    (tree : TaskTree ι) : Executed before tasks (entered + 1) fault (after.enqueue tree) := by
  obtain ⟨first, noted, pending, counted, isOpen, poisoned⟩ := executed
  refine ⟨first, noted, ?_, ?_, isOpen, poisoned⟩
  · change after.pool.pending + 1 = (after.pool.queue ++ [tree]).length
    rw [pending, List.length_append]
    rfl
  · change after.pool.pending + 1 + _ = _
    omega

/-- A session from which nothing has been executed. -/
theorem Executed.refl (pending : before.pool.pending = before.pool.queue.length)
    (isOpen : before.pool.closed = false) (clean : before.pool.poisoned = false) :
    Executed before [] 0 none before :=
  ⟨rfl, (List.append_nil _).symm, pending, rfl, isOpen, clean⟩

/-- The session after one of its tasks has been taken and executed, with the children of the
task behind all others. -/
def advance (session : Session ι) (turn : Nat) (task : TaskTree ι) (rest : List (TaskTree ι)) :
    Session ι :=
  let taken := { session.pool with queue := rest }
  ⟨taken.absorb (execute turn taken task session.log),
    (execute turn taken task session.log).state⟩

/-- The task that has waited longest is executed. -/
theorem executed_advance {session : Session ι} {task : TaskTree ι} {rest : List (TaskTree ι)}
    (queue : session.pool.queue = task :: rest)
    (pending : session.pool.pending = session.pool.queue.length)
    (isOpen : session.pool.closed = false) (clean : session.pool.poisoned = false) (turn : Nat) :
    (session.advance turn task rest).pool.queue = rest ++ task.children ∧
      Executed session [task] 0 task.fault (session.advance turn task rest) := by
  let taken : Pool (TaskTree ι) := { session.pool with queue := rest }
  have waiting : (session.advance turn task rest).pool.queue = rest ++ task.children :=
    Pool.queue_enqueueAll taken task.children
  have counted : (session.advance turn task rest).pool.pending =
      session.pool.pending + task.children.length - 1 :=
    congrArg (· - 1) (Pool.pending_enqueueAll taken task.children)
  have alone : upToFault [task] = [task] := by
    rw [upToFault]
    exact ite_self _
  have switches := Pool.switches_enqueueAll taken task.children
  rw [queue, List.length_cons] at pending
  constructor
  · exact waiting
  constructor
  case first =>
    rw [List.findSome?_cons]
    cases task.fault <;> rfl
  case noted =>
    rw [alone]
    exact List.map_append
  case pending =>
    rw [waiting, counted, List.length_append]
    omega
  case counted =>
    rw [alone, counted, offspring, List.map_singleton, List.sum_singleton, List.length_singleton]
    omega
  case isOpen => exact switches.1.trans isOpen
  case poisoned =>
    have passes : (session.advance turn task rest).pool.poisoned =
        ((taken.enqueueAll task.children).finish task.fault.isSome).poisoned := rfl
    rw [passes]
    cases task.fault with
    | none => exact switches.2.trans clean
    | some fault => exact decide_eq_true (Nat.succ_pos _)

/-- Executing tasks in the order in which they wait executes them in level order.

Induct over the number of tasks. Each goes ahead of the others, and its children wait behind
them. -/
theorem executed_serve (allowance turn : Nat) {session : Session ι}
    (enough : sizeAll session.pool.queue ≤ allowance)
    (pending : session.pool.pending = session.pool.queue.length)
    (isOpen : session.pool.closed = false) (clean : session.pool.poisoned = false) :
    let served := Pool.serve execute (fun _ => 0) allowance turn session.pool session.log
    Executed session (levelOrder session.pool.queue) 0 served.fault ⟨served.pool, served.state⟩ ∧
      (served.fault = none → served.pool.queue = []) := by
  induction allowance generalizing turn session with
  | zero =>
    have empty := eq_nil_of_sizeAll (Nat.le_zero.mp enough)
    intro served
    rw [empty, levelOrder_nil]
    exact ⟨.refl pending isOpen clean, fun _ => empty⟩
  | succ allowance ih =>
    cases queue : session.pool.queue with
    | nil =>
      rw [Pool.serve, Pool.take?, queue, levelOrder_nil]
      exact ⟨.refl pending isOpen clean, fun _ => queue⟩
    | cons task rest =>
      obtain ⟨waiting, executed⟩ := executed_advance queue pending isOpen clean turn
      rw [queue, sizeAll_cons] at enough
      have less := Nat.le_of_succ_le_succ enough
      rw [Pool.serve, Pool.take?_first queue, levelOrder_cons]
      have ends : (execute turn { session.pool with queue := rest } task session.log).fault =
          task.fault := rfl
      cases faulty : task.fault with
      | some fault =>
        rw [faulty] at executed ends
        simp only [ends]
        exact ⟨executed.stop _, fun clean => absurd clean (Option.some_ne_none _)⟩
      | none =>
        rw [faulty] at executed ends
        simp only [ends]
        obtain ⟨later, drained⟩ := ih (turn + 1) (waiting ▸ less) executed.pending executed.isOpen
          executed.poisoned
        rw [waiting] at later
        exact ⟨executed.trans later, drained⟩

/-- Draining a pool executes what waits in level order. -/
theorem executed_runUntilEmpty {session : Session ι}
    (pending : session.pool.pending = session.pool.queue.length)
    (isOpen : session.pool.closed = false) (clean : session.pool.poisoned = false) :
    Executed session (levelOrder session.pool.queue) 0 session.runUntilEmpty.2
        session.runUntilEmpty.1 ∧
      (session.runUntilEmpty.2 = none → session.runUntilEmpty.1.pool.queue = []) := by
  rw [runUntilEmpty]
  split
  · rename_i past
    rw [isOpen, Bool.or_false, Pool.drained, clean, Bool.or_false, beq_iff_eq] at past
    have empty : session.pool.queue = [] := List.length_eq_zero_iff.mp (pending.symm.trans past)
    rw [empty, levelOrder_nil]
    exact ⟨.refl pending isOpen clean, fun _ => rfl⟩
  · exact executed_serve _ 0 (Nat.le_refl _) pending isOpen clean

/-- A pool in which a task has ended in a fault executes nothing. -/
theorem runUntilEmpty_poisoned {session : Session ι} (poisoned : session.pool.poisoned = true) :
    session.runUntilEmpty = (session, none) := by
  rw [runUntilEmpty, Pool.drained, poisoned, Bool.or_true, Bool.true_or, if_pos rfl]

/-- After a fault the rounds are gone through, and their trees wait. -/
theorem Executed.rounds {fault : Fault} (trees : List (TaskTree ι))
    (executed : Executed before tasks entered (some fault) middle) :
    Executed before tasks (entered + trees.length) (some fault) (Session.rounds trees middle).1 ∧
      (Session.rounds trees middle).2.1 = none := by
  induction trees generalizing entered middle with
  | nil => exact ⟨executed, rfl⟩
  | cons tree rest ih =>
    have enqueued := executed.enqueue tree
    rw [Session.rounds, runUntilEmpty_poisoned enqueued.poisoned, List.length_cons,
      Nat.add_comm _ 1, ← Nat.add_assoc]
    exact ih enqueued

/-- The rounds of a drained pool execute the families of their trees, one after the other. -/
theorem executed_rounds (trees : List (TaskTree ι)) {session : Session ι}
    (empty : session.pool.queue = []) (pending : session.pool.pending = 0)
    (isOpen : session.pool.closed = false) (clean : session.pool.poisoned = false) :
    Executed session (trees.flatMap family) trees.length (rounds trees session).2.1
      (rounds trees session).1 := by
  induction trees generalizing session with
  | nil =>
    exact Executed.refl (pending.trans (congrArg List.length empty).symm) isOpen clean
  | cons tree rest ih =>
    have waiting : session.pool.pending = session.pool.queue.length :=
      pending.trans (congrArg List.length empty).symm
    have one := (Executed.refl waiting isOpen clean).enqueue tree
    have only : (session.enqueue tree).pool.queue = [tree] := congrArg (· ++ [tree]) empty
    obtain ⟨executed, drained⟩ := executed_runUntilEmpty one.pending one.isOpen one.poisoned
    rw [only] at executed
    have both := one.trans executed
    rw [rounds, List.flatMap_cons, List.length_cons, Nat.add_comm _ 1]
    dsimp only
    cases ends : (session.enqueue tree).runUntilEmpty.2 with
    | some fault =>
      rw [ends] at both
      -- The later rounds still enqueue their trees.
      obtain ⟨later, -⟩ := both.rounds rest
      exact later.stop _
    | none =>
      rw [ends] at both
      have empty := drained ends
      have later := ih empty (both.pending.trans (congrArg List.length empty)) both.isOpen
        both.poisoned
      exact both.trans later

/-- The fault a run ends with, if any. -/
def faultOf {α : Type} : Except Fault α → Option Fault
  | .error fault => some fault
  | .ok _ => none

/-- A run ends with the first fault that draining its pool or one of its rounds ends with. -/
theorem faultOf_run (session : Session ι) (awaitIdle : Bool) (trees : List (TaskTree ι)) :
    faultOf (session.run awaitIdle trees).2 =
      session.runUntilEmpty.2.or (rounds trees session.runUntilEmpty.1).2.1 := by
  rw [run]
  dsimp only
  cases session.runUntilEmpty.2.or (rounds trees session.runUntilEmpty.1).2.1 <;> rfl

/-- Trees that are enqueued wait in their order. -/
theorem executed_enqueueEach (trees : List (TaskTree ι)) {session : Session ι}
    (pending : session.pool.pending = session.pool.queue.length)
    (isOpen : session.pool.closed = false) (clean : session.pool.poisoned = false) :
    (session.enqueueEach trees).1.pool.queue = session.pool.queue ++ trees ∧
      Executed session [] trees.length none (session.enqueueEach trees).1 := by
  induction trees generalizing session with
  | nil => exact ⟨(List.append_nil _).symm, .refl pending isOpen clean⟩
  | cons tree rest ih =>
    have one := (Executed.refl pending isOpen clean).enqueue tree
    obtain ⟨queue, others⟩ := ih one.pending one.isOpen one.poisoned
    have both := one.trans others
    rw [List.length_cons, Nat.add_comm _ 1]
    refine ⟨?_, both⟩
    exact queue.trans (List.append_assoc _ [tree] rest)

/-- The rounds of a pool that waits execute what waits in level order, and then the families
of their trees. -/
theorem executed_run {session : Session ι}
    (pending : session.pool.pending = session.pool.queue.length)
    (isOpen : session.pool.closed = false) (clean : session.pool.poisoned = false)
    (trees : List (TaskTree ι)) :
    Executed session (levelOrder session.pool.queue ++ trees.flatMap family) trees.length
      (session.runUntilEmpty.2.or (rounds trees session.runUntilEmpty.1).2.1)
      (rounds trees session.runUntilEmpty.1).1 := by
  obtain ⟨executed, drained⟩ := executed_runUntilEmpty pending isOpen clean
  cases ends : session.runUntilEmpty.2 with
  | some fault =>
    rw [ends] at executed
    obtain ⟨later, -⟩ := executed.rounds trees
    rw [Nat.zero_add] at later
    exact later.stop _
  | none =>
    rw [ends] at executed
    have empty := drained ends
    have later := executed_rounds trees empty
      (executed.pending.trans (congrArg List.length empty)) executed.isOpen executed.poisoned
    have both := executed.trans later
    rw [Nat.zero_add] at both
    exact both

/-- A session on a new pool executes the trees enqueued before its run and then those of its
rounds, in order, up to and including the first task that ends in a fault. The run ends with
that fault. The counter is the number of tasks enqueued less the number of those executed. -/
theorem run_executed {workers : Nat} {session : Session ι}
    (opens : Session.opened workers = .ok session) (before trees : List (TaskTree ι))
    (awaitIdle : Bool) :
    let ended := (session.enqueueEach before).1.run awaitIdle trees
    let tasks := upToFault (Lifecycle.order before trees)
    ended.1.executed = tasks.map TaskTree.id ∧
      (Lifecycle.order before trees).findSome? TaskTree.fault = faultOf ended.2 ∧
      ended.1.pool.pending + tasks.length = before.length + trees.length + offspring tasks := by
  obtain ⟨-, rfl⟩ := Crew.session_eq_of_opened opens
  have fresh : (⟨{ workers }, []⟩ : Session ι).pool.pending = 0 := rfl
  obtain ⟨queue, enqueued⟩ := executed_enqueueEach before fresh rfl rfl
  have executed := enqueued.trans
    (executed_run enqueued.pending enqueued.isOpen enqueued.poisoned trees)
  rw [queue] at executed
  intro ended tasks
  have closes := Crew.run_eq (Session.enqueueEach ⟨{ workers }, []⟩ before).1 awaitIdle trees
  refine ⟨?_, ?_, ?_⟩
  · change Session.executed (Session.run _ awaitIdle trees).1 = _
    rw [closes]
    exact executed.noted
  · exact executed.first.trans (faultOf_run _ awaitIdle trees).symm
  · change (Session.run _ awaitIdle trees).1.pool.pending + _ = _
    rw [closes]
    exact executed.counted.trans (congrArg (· + _) (Nat.zero_add _))

end Session

open Lifecycle

/-- One worker that takes no task out of order executes what a session executes, whatever it
and the owner do in which turns, and its run ends as that of the session does. -/
theorem Lifecycle.play_agrees {workers : Nat} {session : Session ι}
    (opens : Session.opened workers = .ok session) (before trees : List (TaskTree ι))
    (awaitIdle : Bool) (later : List (Activity (TaskTree ι))) {turns : List Turn}
    {life : Lifecycle (TaskTree ι) Unit} (inOrder : ∀ turn ∈ turns, turn.inOrder = true)
    (played : play TaskTree.execute turns
      (fresh 1 () (before.map .enqueue ++ .run (Request.rounds trees) :: later)) = some life)
    {verdict : Option Fault} {rest : List (Option Fault)} (past : life.verdicts = verdict :: rest) :
    let ended := (session.enqueueEach before).1.run awaitIdle trees
    life.crew.started.map (fun execution => execution.task.id) = ended.1.executed ∧
      verdict = Session.faultOf ended.2 := by
  obtain ⟨executed, first, -⟩ := Session.run_executed opens before trees awaitIdle
  have ordered := (ordered_fresh before trees later).play (kept_fresh Nat.one_pos () _)
    Crew.grown_opened inOrder played
  have taken := ordered.executed (.inr (by rw [past]; exact List.cons_ne_nil _ _))
  refine ⟨?_, (ordered.verdict past).symm.trans first⟩
  rw [executed, ← taken, List.map_map]
  rfl

end RadixSort
