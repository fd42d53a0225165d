import RadixSort.Scheduler.Session
import RadixSort.Proofs.Scheduler.Drained
import RadixSort.Proofs.Scheduler.Moves
import RadixSort.Proofs.Scheduler.LevelOrder

/-!
# Every task of every tree is executed once

Where tasks are trees, a task enqueues its children. So the families of the tasks that wait,
of the children that are still to be enqueued, and the tasks that have been taken make up the
families of all trees the owner has enqueued. Whoever waits for the pool goes on when the
counter is zero or a fault has been reported. If no task ends in a fault, only the first can
happen, and then all tasks of all trees have been executed, each of them once.

Nothing is assumed of the number of workers, of the order in which tasks are taken, or of
when the owner enqueues its trees. So this holds at every return, whatever was enqueued
since the one before.
-/
namespace RadixSort

variable {ι : Type}

namespace Crew

open TaskTree

variable {crew next : Crew (TaskTree ι) Unit}

/-- The tasks that have been taken did what their trees say, and with the families of those
that have not been taken they make up the families of the owner's trees. -/
structure Grown (crew : Crew (TaskTree ι) Unit) : Prop where
  told : ∀ execution ∈ crew.started, execution.spawned = execution.task.children ∧
    execution.fault = execution.task.fault
  descended : (crew.started.map (fun execution => execution.task) ++
      crew.untaken.flatMap family).Perm (crew.announced.flatMap family)

/-- A pool that has just been opened has no trees. -/
theorem grown_opened : (opened () : Crew (TaskTree ι) Unit).Grown where
  told := by simp [opened]
  descended := List.Perm.refl _

/-- Every action keeps the families: a task that is taken makes way for its children. -/
theorem Step.grown (action : Step TaskTree.execute crew next) (grown : crew.Grown) :
    next.Grown := by
  obtain ⟨told, descended⟩ := grown
  cases action.moves with
  | stay more announced started _ untaken =>
    refine ⟨started ▸ told, ?_⟩
    rw [announced, started, List.flatMap_append]
    refine List.Perm.trans ?_ (descended.append_right _)
    rw [List.append_assoc, ← List.flatMap_append]
    exact (untaken.flatMap_right family).append_left _
  | take ticket rest announced started _ before after =>
    constructor
    · rw [started]
      intro execution member
      rcases List.mem_append.mp member with old | new
      · exact told execution old
      · rw [List.mem_singleton.mp new]
        exact ⟨rfl, rfl⟩
    · have ahead := before.flatMap_right family
      have behind := after.flatMap_right family
      rw [List.flatMap_cons] at ahead
      rw [List.flatMap_append] at behind
      rw [announced, started, List.map_append, List.append_assoc]
      refine List.Perm.trans (List.Perm.append_left _ ?_) descended
      refine List.Perm.trans ((behind.trans List.perm_append_comm).cons ticket.task) ?_
      exact (((family_perm ticket.task).append_right _).symm).trans ahead.symm

/-- Any number of actions keeps the families. -/
theorem Run.grown {first last : Crew (TaskTree ι) Unit} (run : Run TaskTree.execute first last)
    (grown : first.Grown) : last.Grown := by
  induction run with
  | done => exact grown
  | step _ action ih => exact action.grown ih

/-- A forest has at least as many tasks as roots. -/
theorem length_le_families (forest : List (TaskTree ι)) :
    forest.length ≤ (forest.flatMap family).length := by
  induction forest with
  | nil => exact Nat.le_refl 0
  | cons tree rest ih =>
    rw [List.flatMap_cons, List.length_append, family_eq, List.length_cons, List.length_cons]
    omega

/-- Tasks enqueue no more tasks than the owner's trees have. -/
theorem Grown.offspring_le (grown : crew.Grown) (balanced : crew.Balanced) :
    crew.offspring ≤ sizeAll crew.announced := by
  have whole := grown.descended.length_eq
  have roots := length_le_families crew.untaken
  have tasks : (crew.announced.flatMap family).length = sizeAll crew.announced := by
    rw [← (levelOrder_perm crew.announced).length_eq, length_levelOrder]
  rw [List.length_append, List.length_map, tasks] at whole
  unfold Balanced at balanced
  omega

/-- Nothing is left to do, and all tasks of all trees that were enqueued have been executed
once. -/
structure Completed (crew : Crew (TaskTree ι) Unit) : Prop extends Drained crew where
  executed : (crew.started.map fun execution => execution.task).Perm (levelOrder crew.announced)

/-- What is drained is completed. -/
theorem Grown.completed (grown : crew.Grown) (drained : crew.Drained) : crew.Completed := by
  have descended := grown.descended
  rw [drained.untaken, List.flatMap_nil, List.append_nil] at descended
  exact ⟨drained, descended.trans (levelOrder_perm _).symm⟩

/-- A pool reports a fault only if one of the tasks it has been given ends in one. -/
theorem Grown.poisoned_eq_false (grown : crew.Grown) (sound : crew.Sound)
    (clean : ∀ task ∈ levelOrder crew.announced, task.fault = none) : crew.poisoned = false := by
  rw [Bool.eq_false_iff]
  intro poisoned
  obtain ⟨execution, member, faulty⟩ := sound.reported poisoned
  apply faulty
  rw [(grown.told execution member).2]
  apply clean
  apply (levelOrder_perm crew.announced).mem_iff.mpr
  apply grown.descended.mem_iff.mp
  exact List.mem_append_left _ (List.mem_map_of_mem member)

/-- In every state that can come about, whatever the number of workers, the trees enqueued
and the interleaving, the record of the pool is exact. If no task ends in a fault, the pool is
completed when whoever waits for it may go on, and when the owner, which may have slept
meanwhile, goes on from its wait. -/
theorem reachable_exact (reachable : Reachable TaskTree.execute () crew) :
    crew.Exact TaskTree.execute ∧
      ((∀ task ∈ levelOrder crew.announced, task.fault = none) →
        (crew.mayReturn = true → crew.Completed) ∧
        ∀ next, Step TaskTree.execute crew next → crew.owner ≠ .away → next.owner = .away →
          crew.Completed ∧ next.Completed) := by
  have sound := sound_of_reachable reachable
  have grown := Run.grown reachable grown_opened
  refine ⟨sound.exact, fun clean => ?_⟩
  have unhurt := grown.poisoned_eq_false sound clean
  have completed (zero : crew.pending = 0) : crew.Completed := grown.completed (sound.drained zero)
  refine ⟨fun free => completed ?_, fun next action waits goes => ?_⟩
  · rw [mayReturn, unhurt, Bool.or_false] at free
    exact beq_iff_eq.mp free
  · obtain ⟨away, rfl⟩ := action.look_of_away waits goes
    have zero : crew.pending = 0 := by
      rcases look_eq_away.mp away with ⟨-, zero⟩ | ⟨-, poisoned⟩
      · exact zero
      · exact Bool.noConfusion (unhurt.symm.trans poisoned)
    obtain ⟨⟨queue, entering, resting, pending, ended⟩, executed⟩ := completed zero
    exact ⟨completed zero, ⟨queue, entering, resting, pending, ended⟩, executed⟩

/-- A task with one child. -/
def parent : TaskTree Nat := .node 0 [.node 1 [] none] none

/-- Two workers have executed a task and its child, one each. The owner has slept until it was
notified, and has looked at the counter again. -/
def twoWorkers : Crew (TaskTree Nat) Unit where
  state := ()
  workers := [.ready, .ready]
  queue := []
  issued := 2
  pending := 0
  poisoned := false
  closed := false
  owner := .reading
  announced := [parent]
  entering := []
  started := [⟨⟨0, parent⟩, [.node 1 [] none], none⟩, ⟨⟨1, .node 1 [] none⟩, [], none⟩]
  ended := [1, 0]

/-- The second worker takes the child and ends first. The first one counts off the last task
while the owner sleeps, and wakes it. -/
theorem reachable_exact_twoWorkers : Reachable TaskTree.execute () twoWorkers ∧
    twoWorkers.Exact TaskTree.execute ∧ twoWorkers.mayReturn = true ∧ twoWorkers.Completed ∧
    Completed { twoWorkers with owner := .away } := by
  let first : Execution (TaskTree Nat) := ⟨⟨0, parent⟩, [.node 1 [] none], none⟩
  let second : Execution (TaskTree Nat) := ⟨⟨1, .node 1 [] none⟩, [], none⟩
  have run : Reachable TaskTree.execute () twoWorkers :=
    (Run.done (opened ())).step (.start _ 2 rfl (by simp [opened]))
      |>.step (.announce _ parent rfl)
      |>.step (.submit _ parent [] rfl rfl)
      |>.step (.look _ (by decide))
      |>.step (.findOpen _ 0 rfl rfl)
      |>.step (.take _ 0 0 ⟨0, parent⟩ rfl rfl)
      |>.step (.look _ (by decide))
      |>.step (.look _ (by decide))
      |>.step (.look _ (by decide))
      |>.step (.count _ 0 first [.node 1 [] none] rfl (by simp))
      |>.step (.spawn _ 0 first (.node 1 [] none) [] rfl)
      |>.step (.findOpen _ 1 rfl rfl)
      |>.step (.take _ 1 0 ⟨1, .node 1 [] none⟩ rfl rfl)
      |>.step (.finish _ 1 second rfl rfl)
      |>.step (.finish _ 0 first rfl rfl)
      |>.step (.notify _ 0 none rfl rfl)
      |>.step (.look _ (by decide))
  have clean : ∀ task ∈ levelOrder twoWorkers.announced, task.fault = none := by
    simp [twoWorkers, levelOrder, nextLevel, parent, children, fault]
  obtain ⟨exact, completed⟩ := reachable_exact run
  obtain ⟨free, returns⟩ := completed clean
  have leaves : Step TaskTree.execute twoWorkers { twoWorkers with owner := .away } :=
    .look twoWorkers (by decide)
  exact ⟨run, exact, rfl, free rfl, (returns _ leaves (by decide) rfl).2⟩

end Crew

end RadixSort
