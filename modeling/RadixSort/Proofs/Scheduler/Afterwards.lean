import RadixSort.Proofs.Scheduler.Verdict
import RadixSort.Proofs.Scheduler.Wakeups
import RadixSort.Proofs.Scheduler.Moves

/-!
# What waits when a pool has been run

Every task of the owner is enqueued, and so is every task that an executed task enqueues, as
soon as it has come so far. So when no task is being executed, as many tasks have been
enqueued as the owner and the executed tasks have. The counter of the pool is that number less
the number of executed tasks, those included that ended in a fault. After the first run
nothing is executed, and each task that the owner enqueues raises the counter.
-/
namespace RadixSort

variable {τ σ : Type} {execute : Nat → τ → σ → Pool.Effect τ σ}

namespace Crew

variable {crew next : Crew τ σ}

/-- Where no task is being executed, the counter is the number of tasks that have been
enqueued less the number of those that have been executed. -/
theorem pending_of_balanced (sound : crew.Sound) (balanced : crew.Balanced)
    (resting : ∀ worker ∈ crew.workers, worker.Rests) :
    crew.pending + crew.started.length = crew.announced.length + crew.offspring := by
  have unqueued : crew.workers.flatMap Worker.unqueued = [] :=
    List.flatMap_eq_nil_iff.mpr fun worker member => (resting worker member).unqueued
  have counted := sound.pending_of_resting resting
  unfold Balanced at balanced
  rw [untaken, unqueued, List.length_append, List.length_map, List.append_nil] at balanced
  omega

end Crew

namespace Lifecycle

open Crew

variable {life next : Lifecycle τ σ}

/-- When the first run is over, no turn executes a task. -/
theorem started_of_turn {turn : Turn} (lives : life.Lives) (past : life.verdicts ≠ [])
    (turned : life.turn execute turn = some next) : next.crew.started = life.crew.started := by
  cases turn with
  | worker position place =>
    obtain ⟨crew, acted, rfl⟩ := Option.map_eq_some_iff.mp turned
    obtain ⟨verdict, rest, ended⟩ := List.exists_cons_of_ne_nil past
    obtain ⟨period, -, fits⟩ := lives
    have shut := fits.of_ended ended
    rw [act_of_shut shut.isClosed shut.shut acted]
    rfl
  | owner =>
    refine own_cases (motive := fun next => next.crew.started = life.crew.started) turned ?submit
      ?enqueue ?start ?look ?leave ?close ?join
    case submit => exact fun _ _ _ => rfl
    case enqueue => exact fun _ _ _ _ => rfl
    case start => exact fun _ _ _ _ => rfl
    case look => exact fun _ _ _ _ _ => rfl
    case leave => exact fun _ _ _ _ _ => rfl
    case close => exact fun _ _ _ => rfl
    case join => exact fun _ _ _ _ => rfl

/-- All that every turn keeps. -/
structure Kept (life : Lifecycle τ σ) : Prop where
  positive : 0 < life.size
  lives : life.Lives
  watches : life.Watches
  sound : life.crew.Sound
  balanced : life.crew.Balanced
  heard : life.crew.Heard

/-- A pool that has just been opened keeps all that it should. -/
theorem kept_fresh {size : Nat} (positive : 0 < size) (state : σ)
    (activities : List (Activity τ)) : (fresh size state activities).Kept :=
  ⟨positive, lives_fresh size state activities, absurd rfl, sound_opened state, rfl,
    heard_of_away rfl⟩

/-- Every turn keeps all that it should. -/
theorem Kept.turn {turn : Turn} (kept : life.Kept) (turned : life.turn execute turn = some next) :
    next.Kept := by
  obtain ⟨positive, lives, watches, sound, balanced, heard⟩ := kept
  have run := run_of_turn watches turned
  exact ⟨(record_of_turn turned).1 ▸ positive, lives.turn turned, watches.turn turned,
    run.sound sound, run.balanced balanced, run.heard sound heard⟩

/-- Any number of turns keeps all that it should. -/
theorem Kept.play {turns : List Turn} (kept : life.Kept)
    (played : play execute turns life = some next) : next.Kept :=
  play_induction (fun _ => True) (fun _ _ _ _ kept turned => kept.turn turned)
    (fun _ _ => trivial) kept played

/-- When the first run is over, it stays so, and no task is executed any more. -/
theorem Kept.started {turns : List Turn} (kept : life.Kept) (past : life.verdicts ≠ [])
    (played : Lifecycle.play execute turns life = some next) :
    next.verdicts ≠ [] ∧ next.crew.started = life.crew.started := by
  have keeps : ∀ (between : Lifecycle τ σ) (turn : Turn) (after : Lifecycle τ σ), True →
      (between.Lives ∧ between.verdicts ≠ [] ∧ between.crew.started = life.crew.started) →
      between.turn execute turn = some after →
      after.Lives ∧ after.verdicts ≠ [] ∧ after.crew.started = life.crew.started := by
    rintro between turn after - ⟨lives, past, same⟩ turned
    obtain ⟨-, more, longer⟩ := record_of_turn turned
    refine ⟨lives.turn turned, ?_, (started_of_turn lives past turned).trans same⟩
    rw [longer]
    exact List.append_ne_nil_of_left_ne_nil past more
  exact (play_induction (fun _ => True) keeps (fun _ _ => trivial) ⟨kept.lives, past, rfl⟩ played).2

/-- The counter of a pool whose first run is over. -/
theorem Kept.pending (kept : life.Kept) (past : life.verdicts ≠ []) :
    life.crew.pending + life.crew.started.length =
      life.crew.announced.length + life.crew.offspring := by
  obtain ⟨verdict, rest, ended⟩ := List.exists_cons_of_ne_nil past
  refine pending_of_balanced kept.sound kept.balanced fun worker member => ?_
  rcases (kept.lives.past ended).2.2 worker member with rfl | done
  · exact ⟨rfl, rfl, rfl⟩
  · exact Worker.rests_of_isDone done

/-- A run is over. Its verdict is that of its tasks, and those of later runs are none. The
counter is the number of tasks that have been enqueued less the number of those that have
been executed. Whatever happens from now on, no task is executed, and every task that the
owner enqueues raises the counter by one. -/
structure Concluded (execute : Nat → τ → σ → Pool.Effect τ σ) (life : Lifecycle τ σ)
    (verdict : Option Fault) (rest : List (Option Fault)) : Prop where
  judges : life.crew.Judges verdict
  later : ∀ other ∈ rest, other = none
  pending : life.crew.pending + life.crew.started.length =
    life.crew.announced.length + life.crew.offspring
  still : ∀ turns further, play execute turns life = some further →
    further.crew.started = life.crew.started ∧
      further.crew.pending + life.crew.announced.length =
        life.crew.pending + further.crew.announced.length

/-- A run that is over is concluded. -/
theorem Kept.concluded (kept : life.Kept) {verdict : Option Fault} {rest : List (Option Fault)}
    (past : life.verdicts = verdict :: rest) : Concluded execute life verdict rest := by
  have some : life.verdicts ≠ [] := by
    rw [past]
    exact List.cons_ne_nil _ _
  obtain ⟨judges, later, -⟩ := kept.lives.past past
  have pending := kept.pending some
  refine ⟨judges, later, pending, fun turns further played => ?_⟩
  obtain ⟨still, same⟩ := kept.started some played
  have after := (kept.play played).pending still
  have offspring : further.crew.offspring = life.crew.offspring := by
    rw [Crew.offspring, Crew.offspring, same]
  rw [same, offspring] at after
  exact ⟨same, by omega⟩

end Lifecycle

end RadixSort
