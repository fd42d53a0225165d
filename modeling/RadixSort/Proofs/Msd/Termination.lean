import RadixSort.Msd
import RadixSort.Proofs.Engine.Depths
import RadixSort.Proofs.Msd.Run
import Mathlib.Logic.Hydra
import Mathlib.Order.OrderIsoNat

/-!
# Every sort ends

Whichever waiting task is executed next, and whatever a task hears of the others, only
finitely many tasks are executed. The ranges of a sort need not become shorter from one
depth to the next, and a task may leave any number of others behind; but all of them have
a lower rank. The rank of a task falls with the depth of its range, and at one depth the
first phase of a partition ranks before the second, and that before a job. Replacing one
member of a finite collection by finitely many of lower rank cannot go on for ever.

Nothing is assumed of the rules, and a task that ends in a fault counts as executed: the
other workers go on.
-/
namespace RadixSort.Msd

open Engine

variable {α : Type} {radix : Nat} {rules : Rules α radix} {data : Array α}

/-- What the workers of a sort share. -/
structure Site (α : Type) (radix : Nat) where
  pool : Pool EngineTask
  engine : Engine α radix

/-- The tasks of the whole range wait, and none has been executed. -/
inductive Begins (rules : Rules α radix) (data : Array α) : Site α radix → Prop where
  | opened {pool : Pool EngineTask} {engine : Engine α radix} {tasks : List EngineTask}
      (workers : Pool.opened rules.settings.threads = .ok pool)
      (dispatched : (Engine.fresh data).dispatch rules (fun _ => 0) ⟨Window.whole data.size, 0⟩ =
        .ok (engine, tasks)) :
      Begins rules data ⟨pool.enqueueAll tasks, engine⟩

/-- Some waiting task is executed, wherever in the queue it waits. -/
inductive Turn (rules : Rules α radix) : Site α radix → Site α radix → Prop where
  | executed {pool taken : Pool EngineTask} {engine : Engine α radix} {position : Nat}
      {task : EngineTask} (took : pool.take? position = some (task, taken))
      (schedule : Schedule) (turn : Nat) :
      Turn rules ⟨pool, engine⟩
        ⟨taken.absorb (execute rules schedule turn taken task engine),
          (execute rules schedule turn taken task engine).state⟩

/-- A site that some sequence of turns leads to. -/
def Reached (rules : Rules α radix) (data : Array α) (site : Site α radix) : Prop :=
  ∃ start, Begins rules data start ∧ Relation.ReflTransGen (Turn rules) start site

/-- The number of the partition that a task belongs to, if it belongs to one. -/
def number? : EngineTask → Option Nat
  | .small _ => none
  | .count number _ => some number
  | .distribute number _ => some number

/-- The partitions have their depths, and no task names a partition that is still to come. -/
structure Tracked (rules : Rules α radix) (depths : Nat → Nat) (site : Site α radix) : Prop where
  listed : Listed rules.maxDepth depths site.engine
  numbered : ∀ task ∈ site.pool.queue, ∀ number, number? task = some number →
    number < site.engine.nextStep

/-- The rank of a task. -/
def rank (maxDepth : Nat) (depths : Nat → Nat) : EngineTask → Nat
  | .small job => 3 * (maxDepth - job.depth)
  | .distribute number _ => 3 * (maxDepth - depths number) + 1
  | .count number _ => 3 * (maxDepth - depths number) + 2

/-- The ranks of all tasks that wait. -/
def ranks (maxDepth : Nat) (depths : Nat → Nat) (queue : List EngineTask) : Multiset Nat :=
  queue.map (rank maxDepth depths)

variable {maxDepth : Nat} {depths later : Nat → Nat} {engine next : Engine α radix}
  {task made : EngineTask} {site after : Site α radix}

/-- A task keeps its rank while the number it names keeps its depth. -/
theorem rank_congr (same : ∀ number, number? task = some number → later number = depths number) :
    rank maxDepth later task = rank maxDepth depths task := by
  cases task with
  | small job => rfl
  | count number part => simp only [rank, same number rfl]
  | distribute number part => simp only [rank, same number rfl]

/-- What a task leaves behind has a lower rank. -/
theorem rank_lt_of_leaves (listed : Listed maxDepth depths engine)
    (same : ∀ number, number? task = some number → later number = depths number)
    (leaves : Leaves maxDepth depths later engine next task made) :
    rank maxDepth later made < rank maxDepth depths task := by
  cases task with
  | small job =>
    obtain ⟨given, rfl, deeper, within⟩ := leaves
    simp only [rank]
    omega
  | count number part =>
    obtain ⟨other, rfl⟩ := leaves
    simp only [rank, same number rfl]
    omega
  | distribute number part =>
    obtain ⟨⟨step, member⟩, deeper⟩ := leaves
    obtain ⟨-, depth, shallow⟩ := listed _ member
    have shallow : depths number < maxDepth := depth ▸ shallow
    cases made with
    | small job =>
      have deeper : job.depth = depths number + 1 := deeper
      simp only [rank, deeper]
      omega
    | count other part =>
      obtain ⟨deeper, -⟩ := deeper
      simp only [rank, deeper]
      omega
    | distribute other part => exact deeper.elim

/-- What a task leaves behind names no partition that is still to come. -/
theorem numbered_of_leaves (listed : Listed maxDepth later next)
    (known : ∀ number, number? task = some number → number < next.nextStep)
    (leaves : Leaves maxDepth depths later engine next task made) :
    ∀ number, number? made = some number → number < next.nextStep := by
  intro number named
  cases task with
  | small job =>
    obtain ⟨given, rfl, -⟩ := leaves
    cases named
  | count other part =>
    obtain ⟨place, rfl⟩ := leaves
    cases named
    exact known number rfl
  | distribute other part =>
    obtain ⟨-, deeper⟩ := leaves
    cases made with
    | small job => cases named
    | count fresh part =>
      cases named
      obtain ⟨-, step, member⟩ := deeper
      exact (listed _ member).1
    | distribute fresh part => exact deeper.elim

/-- A turn replaces one of the ranks by lower ones. -/
theorem Tracked.turn (tracked : Tracked rules depths site) (turn : Turn rules site after) :
    ∃ later, Tracked rules later after ∧
      Relation.CutExpand (· < ·) (ranks rules.maxDepth later after.pool.queue)
        (ranks rules.maxDepth depths site.pool.queue) := by
  obtain @⟨pool, taken, engine, position, task, took, schedule, number⟩ := turn
  obtain ⟨listed, numbered⟩ := tracked
  obtain ⟨rest, -⟩ := Pool.perm_of_take took
  have known := numbered task (rest.mem_iff.mpr List.mem_cons_self)
  have others : ∀ other ∈ taken.queue, ∀ number, number? other = some number →
      number < engine.nextStep :=
    fun other member => numbered other (rest.mem_iff.mpr (List.mem_cons_of_mem _ member))
  have before : ranks rules.maxDepth depths pool.queue =
      rank rules.maxDepth depths task ::ₘ ranks rules.maxDepth depths taken.queue :=
    Multiset.coe_eq_coe.mpr (rest.map _)
  have leaves := perform_leaves listed (schedule.news number) task
  unfold execute carryOut
  cases ran : engine.perform rules (schedule.news number) task with
  | error fault =>
    have queue : (taken.absorb { state := engine, fault := some fault :
        Pool.Effect EngineTask (Engine α radix) }).queue = taken.queue := rfl
    refine ⟨depths, ⟨listed, others⟩, 0, rank rules.maxDepth depths task, by simp, ?_⟩
    rw [before]
    change ranks rules.maxDepth depths taken.queue + _ = _
    rw [add_zero, add_comm, Multiset.singleton_add]
  | ok result =>
    obtain ⟨next, spawned⟩ := result
    rw [ran] at leaves
    obtain ⟨later, grown, same, kept, each⟩ := leaves
    obtain ⟨queue, -⟩ := Pool.absorb_exact taken next spawned
    have old (other : EngineTask) (named : ∀ number, number? other = some number →
        number < engine.nextStep) : ∀ number, number? other = some number →
        later number = depths number := fun number eq => same number (named number eq)
    have waiting : ranks rules.maxDepth later taken.queue =
        ranks rules.maxDepth depths taken.queue :=
      congrArg _ (List.map_congr_left fun other member =>
        rank_congr (old other (others other member)))
    refine ⟨later, ⟨kept, ?_⟩, ranks rules.maxDepth later spawned,
      rank rules.maxDepth depths task, ?_, ?_⟩
    · intro other member
      rcases List.mem_append.mp (queue ▸ member) with left | new
      · exact fun number named => Nat.lt_of_lt_of_le (others other left number named) grown
      · exact numbered_of_leaves kept
          (fun number named => Nat.lt_of_lt_of_le (known number named) grown) (each other new)
    · intro lower member
      obtain ⟨made, present, rfl⟩ := List.mem_map.mp (Multiset.mem_coe.mp member)
      exact rank_lt_of_leaves listed (old task known) (each made present)
    · have after : ranks rules.maxDepth later (taken.queue ++ spawned) =
          ranks rules.maxDepth depths taken.queue + ranks rules.maxDepth later spawned := by
        rw [← waiting, ranks, List.map_append]
        rfl
      rw [queue, after, before, ← Multiset.singleton_add]
      exact (add_comm _ _).trans (add_assoc _ _ _).symm

/-- Only finitely many turns follow where the partitions have their depths.

Induct over the collection of ranks, which every turn lowers. -/
theorem Tracked.acc (tracked : Tracked rules depths site) :
    Acc (fun next current => Turn rules current next) site := by
  have falls : WellFounded (Relation.CutExpand (α := Nat) (· < ·)) := Nat.lt_wfRel.wf.cutExpand
  generalize weighed : ranks rules.maxDepth depths site.pool.queue = weight
  induction weight using falls.induction generalizing site depths with
  | _ weight ih =>
    subst weighed
    constructor
    intro next turn
    obtain ⟨later, kept, lower⟩ := tracked.turn turn
    exact ih _ lower kept rfl

/-- The partitions of a sort that begins have their depths. -/
theorem Begins.tracked (begins : Begins rules data site) : ∃ depths, Tracked rules depths site := by
  obtain @⟨pool, engine, tasks, workers, dispatched⟩ := begins
  have unlisted : Listed rules.maxDepth (fun _ => 0) (Engine.fresh data : Engine α radix) := by
    simp [Listed, Engine.fresh]
  obtain ⟨depths, -, listed, made⟩ :=
    (dispatch_made (fun _ => 0) unlisted ⟨Window.whole data.size, 0⟩).of_ok dispatched
  have empty : pool.queue = [] := by
    unfold Pool.opened at workers
    split at workers
    · cases workers
    · cases workers
      rfl
  refine ⟨depths, listed, ?_⟩
  intro task member number named
  rw [Pool.queue_enqueueAll, empty, List.nil_append] at member
  have made := made task member
  cases task with
  | small job => cases named
  | count other part =>
    cases named
    obtain ⟨-, step, present⟩ := made
    exact (listed _ present).1
  | distribute other part => exact made.elim

/-- The partitions of a sort have their depths, however many turns have been made. -/
theorem Reached.tracked (reached : Reached rules data site) :
    ∃ depths, Tracked rules depths site := by
  obtain ⟨start, begins, turns⟩ := reached
  induction turns with
  | refl => exact begins.tracked
  | tail before turn ih =>
    obtain ⟨depths, tracked⟩ := ih
    obtain ⟨later, kept, -⟩ := tracked.turn turn
    exact ⟨later, kept⟩

/-- A task that was made by another lies deeper, unless it belongs to the second phase of
the partition whose first phase the other ended. -/
def Descends (maxDepth : Nat) (engine next : Engine α radix) (task made : EngineTask) : Prop :=
  (∃ number last part, task = .count number last ∧ made = .distribute number part) ∨
    ∃ depth deeper, engine.depthOf? task = some depth ∧ next.depthOf? made = some deeper ∧
      depth < deeper ∧ deeper ≤ maxDepth

/-- What a task leaves behind descends from it. -/
theorem descends_of_leaves (listed : Listed maxDepth depths engine)
    (kept : Listed maxDepth later next)
    (leaves : Leaves maxDepth depths later engine next task made) :
    Descends maxDepth engine next task made := by
  cases task with
  | small job =>
    obtain ⟨given, rfl, deeper, within⟩ := leaves
    exact .inr ⟨job.depth, given.depth, rfl, rfl, deeper, within⟩
  | count number last =>
    obtain ⟨part, rfl⟩ := leaves
    exact .inl ⟨number, last, part, rfl, rfl⟩
  | distribute number part =>
    obtain ⟨⟨step, member⟩, deeper⟩ := leaves
    obtain ⟨-, depth, shallow⟩ := listed _ member
    exact .inr ⟨depths number, depths number + 1, listed.depthOf member, deeper.depthOf kept,
      Nat.lt_succ_self _, depth ▸ shallow⟩

/-- Every sort ends, whatever its rules and its input, in whatever order its tasks are
executed, and whatever they hear of the others.

No sequence of turns from where the tasks of the whole range wait goes on for ever, and no
job makes steps for ever. Whatever a task makes lies deeper than the task, or is the second
phase of its partition. And no digit is asked for at the largest depth or below: with any
other digits there, those included that cannot be read, each task does the same. -/
theorem turns_end (rules : Rules α radix) (data : Array α) :
    (∀ sites : Nat → Site α radix, Begins rules data (sites 0) →
      ¬∀ turn, Turn rules (sites turn) (sites (turn + 1))) ∧
    (∀ (states : Nat → SmallJob.State α) (idle : Nat → Nat → Bool),
      ¬∀ round, SmallJob.step rules (idle round) (states round) =
        .ok (.running (states (round + 1)))) ∧
    ∀ site, Reached rules data site → ∀ task ∈ site.pool.queue, ∀ news,
      (∀ next spawned, site.engine.perform rules news task = .ok (next, spawned) →
        ∀ made ∈ spawned, Descends rules.maxDepth site.engine next task made) ∧
      ∀ deeper, site.engine.perform (rules.upTo deeper) news task =
        site.engine.perform rules news task := by
  refine ⟨?_, ?_, ?_⟩
  · intro sites begins endless
    obtain ⟨depths, tracked⟩ := begins.tracked
    exact (acc_iff_isEmpty_descending_chain.mp tracked.acc).elim ⟨sites, rfl, endless⟩
  · intro states idle endless
    let weight (round : Nat) := SmallJob.stackWeight radix rules.maxDepth (states round).stack
    have falls (round : Nat) : weight (round + 1) < weight round :=
      SmallJob.step_stackWeight_lt (endless round)
    exact (wellFounded_iff_isEmpty_descending_chain.mp Nat.lt_wfRel.wf).elim ⟨weight, falls⟩
  · intro site reached task member news
    obtain ⟨depths, listed, -⟩ := reached.tracked
    refine ⟨?_, fun deeper => perform_upTo listed news task⟩
    intro next spawned ran made present
    obtain ⟨later, -, -, kept, each⟩ := (perform_leaves listed news task).of_ok ran
    exact descends_of_leaves listed kept (each made present)

/-- Three numbers whose digits are all alike, so that no range is ever divided, by two
workers: the first tasks count the chunks, and the sort ends. -/
theorem turns_end_alike :
    let rules : Rules Nat DigitWidth.oneByte.radix :=
      ⟨{ threads := 2, subsortThreshold := 1, minParallelChunk := 1 },
        .ofTotal fun _ _ => 0, fun elements => .ok elements, 5⟩
    ∃ start : Site Nat DigitWidth.oneByte.radix, Begins rules #[3, 1, 2] start ∧
      start.pool.queue = [.count 0 0, .count 0 1, .count 0 2] ∧
      ∀ sites : Nat → Site Nat DigitWidth.oneByte.radix, sites 0 = start →
        ¬∀ turn, Turn rules (sites turn) (sites (turn + 1)) := by
  intro rules
  let fresh : Engine Nat DigitWidth.oneByte.radix := Engine.fresh #[3, 1, 2]
  have long : isLong rules fresh.work ⟨Window.whole 3, 0⟩ = true := by decide
  have fits : Word.checked (3 * DigitWidth.oneByte.radix) = .ok (3 * DigitWidth.oneByte.radix) :=
    Word.checked_eq_ok_iff.mpr ⟨by decide, rfl⟩
  have started : (RadixStep.start (Window.whole 3) 0 1 :
      Except Fault (RadixStep DigitWidth.oneByte.radix)) =
        .ok ⟨Window.whole 3, 0, 3, 1, 3, Array.replicate 3 (Vector.replicate _ 0)⟩ :=
    bind_eq_ok.mpr ⟨_, fits, rfl⟩
  obtain ⟨engine, dispatched⟩ : ∃ engine, fresh.dispatch rules (fun _ => 0) ⟨Window.whole 3, 0⟩ =
      .ok (engine, [.count 0 0, .count 0 1, .count 0 2]) := by
    have threshold : (fresh.work.settledElsewhere 3 0).sequentialThreshold rules.settings
        fresh.work.memory.primary.size = 1 := by decide
    have again : RadixStep.start (Window.whole 3) 0
        ((fresh.work.settledElsewhere 3 0).sequentialThreshold rules.settings
          fresh.work.memory.primary.size) = .ok _ :=
      threshold.symm ▸ started
    rw [dispatch, if_pos long]
    exact ⟨_, bind_eq_ok.mpr ⟨_, again, rfl⟩⟩
  have begins : Begins rules #[3, 1, 2] ⟨_, engine⟩ := .opened rfl dispatched
  refine ⟨_, begins, rfl, ?_⟩
  intro sites first
  exact (turns_end rules #[3, 1, 2]).1 sites (first ▸ begins)

end RadixSort.Msd
