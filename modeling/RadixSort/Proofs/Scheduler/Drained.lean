import RadixSort.Proofs.Scheduler.Crew
import Mathlib.Data.List.Nodup

/-!
# A pool whose counter is zero is drained

Between any two actions the record of a pool is exact: its counter is the number of tasks
that have been enqueued and not counted off, and no task is executed twice or before it was
enqueued. Where the counter is zero, no task is in any of the places that it counts: none
waits, none is about to be enqueued, and no worker executes one.

Nothing is assumed of what tasks do, of the number of workers, of the order in which tasks
are taken, or of when the owner enqueues tasks.
-/
namespace RadixSort

variable {τ σ : Type} {execute : Nat → τ → σ → Pool.Effect τ σ}

namespace Crew

variable {crew next : Crew τ σ}

/-- An action executes no task but one that waits in the queue. -/
theorem Step.queue_of_started (action : Step execute crew next) {execution : Execution τ}
    (now : execution ∈ next.started) (fresh : execution ∉ crew.started) :
    execution.toTicket ∈ crew.queue := by
  cases action with
  | take position place ticket here queued =>
    rcases List.mem_append.mp now with old | new
    · exact absurd old fresh
    · rw [List.mem_singleton.mp new]
      exact List.mem_of_getElem? queued
  | _ => exact absurd now fresh

/-- The record of a pool at any moment: the counter tells how many tasks have been enqueued
and not counted off, a task that was taken is being executed or has been counted off, no
task is executed twice, and none before it has a ticket and waits in the queue. -/
structure Exact (execute : Nat → τ → σ → Pool.Effect τ σ) (crew : Crew τ σ) : Prop where
  pending : crew.pending + crew.ended.length = crew.enqueued
  executed : crew.numbers.Perm (crew.ended ++ crew.executing.map fun execution => execution.number)
  once : crew.numbers.Nodup
  issued : ∀ execution ∈ crew.started, execution.number < crew.issued
  queued : ∀ next, Step execute crew next → ∀ execution ∈ next.started,
    execution ∉ crew.started → execution.toTicket ∈ crew.queue

/-- Nothing is left to do: no task waits or is executed, and all that have been taken have
been counted off. -/
structure Drained (crew : Crew τ σ) : Prop where
  queue : crew.queue = []
  entering : crew.entering = []
  resting : ∀ worker ∈ crew.workers, worker.Rests
  pending : crew.pending = 0
  ended : crew.numbers.Perm crew.ended

/-- The counter is the number of tasks that have been enqueued and not counted off. -/
theorem Sound.pending_eq (sound : crew.Sound) :
    crew.pending + crew.ended.length = crew.enqueued := by
  have tickets := sound.numbered.length_eq
  have places := sound.executed.length_eq
  have counted := sound.counted
  rw [List.length_append, List.length_map, List.length_range] at tickets
  rw [List.length_append, List.length_map] at places
  rw [enqueued]
  omega

/-- A sound pool has an exact record. -/
theorem Sound.exact (sound : crew.Sound) : crew.Exact execute := by
  have distinct := sound.numbered.nodup_iff.mpr List.nodup_range
  constructor
  case pending => exact sound.pending_eq
  case executed => exact sound.executed
  case once => exact (List.nodup_append.mp distinct).1
  case issued =>
    intro execution member
    apply List.mem_range.mp
    exact sound.numbered.mem_iff.mp (List.mem_append_left _ (List.mem_map_of_mem member))
  case queued => exact fun next action execution now fresh => action.queue_of_started now fresh

/-- Where every worker rests, the counter counts the tasks that wait and those that the owner
is about to put into the queue. -/
theorem Sound.pending_of_resting (sound : crew.Sound)
    (resting : ∀ worker ∈ crew.workers, worker.Rests) :
    crew.pending = crew.queue.length + crew.entering.length := by
  have executing : crew.executing = [] :=
    List.flatMap_eq_nil_iff.mpr fun worker member => (resting worker member).held
  have announces : crew.workers.countP Worker.announces = 0 :=
    List.countP_eq_zero.mpr fun worker member => by simp [(resting worker member).announces]
  have counted := sound.counted
  rw [executing, announces] at counted
  exact counted

/-- A task that is executed is pending. -/
theorem Sound.pending_pos (sound : crew.Sound) {worker : Worker τ} (member : worker ∈ crew.workers)
    (works : worker.held ≠ []) : crew.pending ≠ 0 := by
  intro zero
  have counted := sound.counted
  have executing : crew.executing = [] := List.length_eq_zero_iff.mp (by omega)
  exact works (List.flatMap_eq_nil_iff.mp executing worker member)

/-- A pool whose counter is zero is drained. -/
theorem Sound.drained (sound : crew.Sound) (zero : crew.pending = 0) : crew.Drained := by
  have counted := sound.counted
  have executing : crew.executing = [] := List.length_eq_zero_iff.mp (by omega)
  constructor
  case queue => exact List.length_eq_zero_iff.mp (by omega)
  case entering => exact List.length_eq_zero_iff.mp (by omega)
  case resting =>
    exact fun worker member =>
      Worker.rests_of_held (List.flatMap_eq_nil_iff.mp executing worker member)
  case pending => exact zero
  case ended =>
    have executed := sound.executed
    rw [executing, List.map_nil, List.append_nil] at executed
    exact executed

/-- No task is left to be taken from a pool that is drained. -/
theorem Drained.untaken (drained : crew.Drained) : crew.untaken = [] := by
  have unqueued : crew.workers.flatMap Worker.unqueued = [] :=
    List.flatMap_eq_nil_iff.mpr fun worker member => (drained.resting worker member).unqueued
  rw [Crew.untaken, drained.queue, drained.entering, unqueued]
  rfl

/-- The owner goes on from its wait only if the counter is zero or a fault has been
reported. -/
theorem look_eq_away : crew.look = .away ↔
    crew.owner = .reading ∧ crew.pending = 0 ∨ crew.owner = .doubting ∧ crew.poisoned = true := by
  unfold look
  cases crew.owner <;> simp

/-- Only an action of its own makes the owner go on from its wait. -/
theorem Step.look_of_away (action : Step execute crew next) (waits : crew.owner ≠ .away)
    (goes : next.owner = .away) : crew.look = .away ∧ next = { crew with owner := .away } := by
  cases action with
  | look _ => exact ⟨goes, congrArg (fun owner => { crew with owner }) goes⟩
  | notify position fault here unlocked =>
    have stays : crew.owner.notified = .away := goes
    cases watch : crew.owner <;> rw [watch] at stays waits <;>
      first
      | exact absurd rfl waits
      | cases stays
  | _ => exact absurd goes waits

end Crew

end RadixSort
