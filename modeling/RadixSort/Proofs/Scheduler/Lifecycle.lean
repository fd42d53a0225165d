import RadixSort.Proofs.Scheduler.InOrder
import RadixSort.Proofs.Scheduler.Progress

/-!
# The life of a pool in which tasks end in faults

A run comes to its end whatever its tasks do, however many workers there are, and however
their turns interleave with those of the owner. An owner that sleeps although nothing is
pending any more, or a fault has been reported, is going to be notified, so every wait of the
owner comes to an end as well. The run ends with the fault of an executed task if one has
ended in a fault, and without one otherwise. What is enqueued after that waits for ever. One
worker that takes the task that has waited longest executes the tasks of the run in level
order, up to and including the first that ends in a fault, and no other.
-/
namespace RadixSort

variable {ι : Type}

open TaskTree

namespace Lifecycle

open Crew

variable {life next : Lifecycle (TaskTree ι) Unit}

/-- Executed tasks enqueue no more tasks than the trees of the pool have. -/
theorem offspring_le {turns : List Turn} (kept : life.Kept) (grown : life.crew.Grown)
    (played : play TaskTree.execute turns life = some next) :
    next.crew.offspring ≤ sizeAll life.tasks := by
  have few := (grown_of_play kept grown played).offspring_le (kept.play played).balanced
  rw [← tasks_of_play played, tasks, sizeAll_append]
  exact few.trans (Nat.le_add_right _ _)

/-- A pool on which trees are enqueued, that is then run, and whatever is done with it
afterwards.

No execution is longer than some bound, and until the run is over, some turn is possible and
none needs to take a task out of order. So the run ends, and with it every wait of the owner,
which is going to be notified whenever it sleeps although it need not wait. When the run has
ended, it is concluded. The trees that have been enqueued are the first of those that are to
be, and the tasks that were executed did what their trees say. One worker that takes no task
out of order has executed, when the run is over and as soon as a fault has been reported, the
tasks up to and including the first in the order that ends in a fault, and that is the fault
the run ends with. -/
theorem play_concludes {size : Nat} (positive : 0 < size) (before : List (TaskTree ι))
    (requests : List (Request (TaskTree ι))) (later : List (Activity (TaskTree ι))) :
    ∃ bound, ∀ turns life,
      play TaskTree.execute turns
        (fresh size () (before.map .enqueue ++ .run requests :: later)) = some life →
      turns.length ≤ bound ∧
      (life.verdicts = [] →
        ∃ turn next, turn.inOrder = true ∧ life.turn TaskTree.execute turn = some next) ∧
      life.crew.Heard ∧
      life.tasks = ((before.map Activity.enqueue ++ .run requests :: later).flatMap
        Activity.commands).filterMap Command.task? ∧
      (∀ execution ∈ life.crew.started, execution.spawned = execution.task.children ∧
        execution.fault = execution.task.fault) ∧
      (∀ verdict rest, life.verdicts = verdict :: rest →
        Concluded TaskTree.execute life verdict rest) ∧
      ∀ rounds, size = 1 → requests = Request.rounds rounds →
        (∀ turn ∈ turns, turn.inOrder = true) →
        (life.crew.poisoned = true ∨ life.verdicts ≠ [] →
          life.crew.started.map (fun execution => execution.task) =
            upToFault (order before rounds)) ∧
        ∀ verdict rest, life.verdicts = verdict :: rest →
          (order before rounds).findSome? TaskTree.fault = verdict := by
  let life₀ : Lifecycle (TaskTree ι) Unit :=
    fresh size () (before.map .enqueue ++ .run requests :: later)
  have fresh : life₀.Kept := kept_fresh positive () _
  have unborn : life₀.crew.Grown := grown_opened
  refine ⟨life₀.effort (sizeAll life₀.tasks), fun turns life played => ?_⟩
  have kept := fresh.play played
  have grown := grown_of_play fresh unborn played
  refine ⟨?_, ?_, kept.heard, tasks_of_play played, grown.told, ?_, ?_⟩
  · have used := length_le_effort (Nat.zero_le _)
      (fun _ _ played => offspring_le fresh unborn played) played
    exact Nat.le_of_add_right_le used
  · intro running
    have ahead : life₀.verdicts = [] → .join ∈ life₀.todo := fun _ =>
      List.mem_flatMap.mpr ⟨.run requests, by simp, by simp [Activity.commands]⟩
    have more := join_mem_of_play ahead played running
    exact exists_turn TaskTree.execute kept running (List.ne_nil_of_mem more)
  · exact fun verdict rest past => kept.concluded past
  · rintro rounds rfl rfl inOrder
    have ordered := (ordered_fresh before rounds later).play fresh unborn inOrder played
    exact ⟨ordered.executed, fun verdict rest past => ordered.verdict past⟩

/-- A task that enqueues one child and then ends in a fault. -/
def faulty : TaskTree Nat := .node 0 [.node 1 [] none] (some (.raised "task failed"))

/-- The turns of the owner and of one worker from the first tree to the end of a second run: the
owner falls asleep, the worker is lost at the first task and wakes the owner, and the round, the
later tree and the second run come to their ends without it. -/
def faultyTurns : List Turn :=
  List.replicate 7 .owner ++ List.replicate 7 (.worker 0 0) ++ List.replicate 13 .owner ++
    [.worker 0 0, .owner, .owner]

/-- A task ends in a fault before the first round. Neither its child nor the two trees that
are enqueued afterwards are executed. -/
theorem play_concludes_faulty : ∃ life,
    play TaskTree.execute faultyTurns (fresh 1 ()
      (([faulty].map .enqueue) ++ .run (Request.rounds [.node 2 [] none]) ::
        [.enqueue (.node 3 [] none), .run []])) = some life ∧
    life.verdicts = [some (.raised "task failed"), none] ∧ life.crew.pending = 3 ∧
    life.crew.started.map (fun execution => execution.task) = [faulty] ∧
    Concluded TaskTree.execute life (some (.raised "task failed")) [none] := by
  obtain ⟨bound, each⟩ := play_concludes Nat.one_pos [faulty] (Request.rounds [.node 2 [] none])
    [.enqueue (.node 3 [] none), .run []]
  obtain ⟨life, played, verdicts, pending⟩ : ∃ life, play TaskTree.execute faultyTurns (fresh 1 ()
      (([faulty].map .enqueue) ++ .run (Request.rounds [.node 2 [] none]) ::
        [.enqueue (.node 3 [] none), .run []])) = some life ∧
      life.verdicts = [some (.raised "task failed"), none] ∧ life.crew.pending = 3 :=
    ⟨_, rfl, rfl, rfl⟩
  obtain ⟨-, -, -, -, -, concluded, inOrder⟩ := each faultyTurns life played
  obtain ⟨executed, -⟩ := inOrder [.node 2 [] none] rfl rfl (by decide)
  refine ⟨life, played, verdicts, pending, ?_, concluded _ _ verdicts⟩
  rw [executed (.inr (by rw [verdicts]; exact List.cons_ne_nil _ _)), order, levelOrder_cons]
  exact if_neg (Option.some_ne_none _)

end Lifecycle

end RadixSort
