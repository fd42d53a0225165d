import RadixSort.Proofs.Engine.SmallJob
import RadixSort.Proofs.Engine.Stage
import Mathlib.Algebra.Order.BigOperators.Group.List

/-!
# The engine keeps its ledger

Between two tasks, everything the engine still has to do is a sequential job that waits
in the queue or a partition that has not finished, and the queue holds these jobs and
the tasks of these partitions, in some order. The ledger of the whole array lists just
them. Executing a task, whichever it is, keeps this true. While the buckets of a finished
partition are dispatched one after the other, some ranges are owed that are neither.

Every range may bring about a number of tasks that its length and its depth bound. That
bound falls with every task, so the engine runs out of tasks.
-/
namespace RadixSort.Engine

open Recursion

variable {α : Type} {radix : Nat} {rules : Rules α radix} {excused : Fault → Prop}

/-- How many tasks a range may still bring about. -/
def jobWeight (maxDepth : Nat) (job : Job) : Nat :=
  2 * job.window.length * (maxDepth + 1 - job.depth)

/-- How many tasks some ranges and partitions may still bring about. -/
def weight (maxDepth : Nat) (ranges : List Job) (stages : List (Stage radix)) : Nat :=
  (ranges.map (jobWeight maxDepth)).sum + (stages.map (Stage.weight maxDepth)).sum

/-- What the engine has to make of an array, and at what cost. -/
def aim (rules : Rules α radix) (data : Array α) (elements : List α) (counts : Counts) : Prop :=
  EngineSorts rules data.size data.toList 0 ⟨elements, counts⟩

/-- All that is still to be done: ranges that are owed, sequential jobs, and partitions. -/
def pending (rules : Rules α radix) (total : Nat) (owed jobs : List Job)
    (stages : List (Stage radix)) : List (Obligation α) :=
  owed.map (Job.overall rules total) ++
    (jobs.map (Job.obligation rules) ++
      stages.map fun stage => stage.step.obligation rules total)

/-- The ranges of all that is still to be done. -/
def ranges (owed jobs : List Job) (stages : List (Stage radix)) : List Job :=
  owed ++ (jobs ++ stages.map Stage.range)

/-- All that is still to be done has a range, in the same order. -/
theorem map_window_pending (rules : Rules α radix) (total : Nat) (owed jobs : List Job)
    (stages : List (Stage radix)) : (pending rules total owed jobs stages).map Obligation.window =
      (ranges owed jobs stages).map Job.window := by
  simp only [pending, ranges, List.map_append, List.map_map]
  rfl

/-- A job that waits is listed behind those that already do. -/
theorem pending_job_perm (rules : Rules α radix) (total : Nat) (owed jobs : List Job)
    (stages : List (Stage radix)) (job : Job) :
    (job.obligation rules :: pending rules total owed jobs stages).Perm
      (pending rules total owed (jobs ++ [job]) stages) := by
  have split : pending rules total owed (jobs ++ [job]) stages =
      (owed.map (Job.overall rules total) ++ jobs.map (Job.obligation rules)) ++
        job.obligation rules :: stages.map fun stage => stage.step.obligation rules total := by
    simp [pending]
  rw [split, pending, ← List.append_assoc]
  exact List.perm_middle.symm

/-- A partition that starts is listed behind all others. -/
theorem pending_stage_perm (rules : Rules α radix) (total : Nat) (owed jobs : List Job)
    (stages : List (Stage radix)) (stage : Stage radix) :
    (stage.step.obligation rules total :: pending rules total owed jobs stages).Perm
      (pending rules total owed jobs (stages ++ [stage])) := by
  have split : pending rules total owed jobs (stages ++ [stage]) =
      pending rules total owed jobs stages ++ [stage.step.obligation rules total] := by
    simp [pending]
  rw [split]
  exact (List.perm_append_singleton _ _).symm

/-- The order of the ranges does not matter for how many tasks they bring about. -/
theorem weight_perm {maxDepth : Nat} {ranges reordered : List Job} (same : ranges.Perm reordered)
    (stages : List (Stage radix)) :
    weight maxDepth ranges stages = weight maxDepth reordered stages := by
  rw [weight, weight, (same.map (jobWeight maxDepth)).sum_eq]

/-- The counters of the work, given how many jobs wait. -/
structure Tallied (stats : Stats) (waiting : Nat) (counts : Counts) : Prop where
  bigSteps : stats.bigSteps = counts.bigSteps
  comparisonSorts : stats.comparisonSorts = counts.comparisonSorts
  smallJobs : stats.smallJobs + waiting = stats.donatedJobs + counts.ownJobs

/-- The engine between two steps: some ranges are owed, the queue holds tasks, and no more
than `budget` tasks will still be executed. -/
structure Sound (rules : Rules α radix) (data : Array α) (owed : List Job)
    (queue : List EngineTask) (engine : Engine α radix) (budget : Nat) (jobs : List Job)
    (stages : List (Stage radix)) (counts : Counts) : Prop where
  registered : Registered engine stages
  queued : queue.Perm (jobs.map EngineTask.small ++ stages.flatMap Stage.tasks)
  ledger : Ledger rules.Gave (Window.whole data.size) (aim rules data) engine.work.memory
    (pending rules data.size owed jobs stages) engine.work.finished counts
  size : ∀ side, (engine.work.memory.side side).size = data.size
  owing : ∀ job ∈ owed, 0 < job.window.length ∧ job.depth ≤ rules.maxDepth
  waiting : ∀ job ∈ jobs, 2 ≤ job.window.length ∧ job.depth ≤ rules.maxDepth
  /-- The elements of a range have all digits before its depth in common. -/
  uniform : ∀ range ∈ ranges owed jobs stages,
    Uniform rules.digits.digit range.depth (engine.work.memory.held range.window)
  partitioning : ∀ stage ∈ stages, stage.Sound rules data.size engine.work.memory
  tallied : Tallied engine.work.stats jobs.length counts
  accounted : engine.work.Accounted rules.settings data.size
  affordable : weight rules.maxDepth (owed ++ jobs) stages ≤ budget

variable {data : Array α} {owed jobs : List Job} {queue : List EngineTask}
  {engine : Engine α radix} {budget : Nat} {stages : List (Stage radix)} {counts : Counts}

/-- The whole of both arrays is there. -/
theorem Sound.spans (sound : Sound rules data owed queue engine budget jobs stages counts) :
    engine.work.memory.Spans (Window.whole data.size) := by
  intro side
  rw [sound.size]
  exact Nat.le_of_eq (Nat.zero_add _)

/-- A window of the ledger is no longer than the input. -/
theorem Sound.within (sound : Sound rules data owed queue engine budget jobs stages counts)
    {obligation : Obligation α} (member : obligation ∈ pending rules data.size owed jobs stages)
    (some : 0 < obligation.window.length) : obligation.window.length ≤ data.size := by
  have bounds := Ledger.bounds_of_slots some (sound.ledger.part_of_mem member)
  have whole : (Window.whole data.size).offset + (Window.whole data.size).length = data.size :=
    Nat.zero_add _
  omega

/-- Partitions whose windows share no slot with the window of an obligation go on
undisturbed when memory changes there. -/
theorem stages_undisturbed {gave : List α → Prop} {root : Window}
    {goal : List α → Counts → Prop} {memory after : Memory α} {obligation : Obligation α}
    {rest : List (Obligation α)} {finished : List Window} {total : Nat}
    (ledger : Ledger gave root goal memory (obligation :: rest) finished counts)
    (spans : memory.Spans root) (change : Memory.Elsewhere obligation.window memory after)
    (listed : ∀ stage ∈ stages, stage.step.obligation rules total ∈ rest)
    (sound : ∀ stage ∈ stages, stage.Sound rules total memory) :
    ∀ stage ∈ stages, stage.Sound rules total after := by
  intro stage member
  have well := sound stage member
  have many := well.shaped.many
  have stageSpans := ledger.spans_of_mem spans (List.mem_cons_of_mem _ (listed stage member))
    (by show 0 < stage.step.window.length; omega)
  exact well.undisturbed change stageSpans (ledger.apart.1 _ (listed stage member))

/-- The elements of ranges keep what they have in common when memory changes in a window
without a slot of theirs. -/
theorem ranges_undisturbed {gave : List α → Prop} {root : Window}
    {goal : List α → Counts → Prop} {memory after : Memory α} {obligation : Obligation α}
    {rest : List (Obligation α)} {finished : List Window}
    (ledger : Ledger gave root goal memory (obligation :: rest) finished counts)
    (change : Memory.Elsewhere obligation.window memory after) {others : List Job}
    (listed : rest.map Obligation.window = others.map Job.window)
    (uniform : ∀ range ∈ others,
      Uniform rules.digits.digit range.depth (memory.held range.window)) :
    ∀ range ∈ others, Uniform rules.digits.digit range.depth (after.held range.window) := by
  intro range member
  have present : range.window ∈ rest.map Obligation.window :=
    listed ▸ List.mem_map_of_mem member
  obtain ⟨other, own, same⟩ := List.mem_map.mp present
  rw [← same, change.held_eq (ledger.apart.1 other own), same]
  exact uniform range member

/-- The obligations of partitions are pending. -/
theorem mem_pending_stage {total : Nat} {stage : Stage radix} (member : stage ∈ stages) :
    stage.step.obligation rules total ∈ pending rules total owed jobs stages :=
  List.mem_append_right _ (List.mem_append_right _
    (List.mem_map_of_mem (f := fun stage => stage.step.obligation rules total) member))

/-- Where nothing is owed, what is pending are jobs and partitions. -/
theorem mem_pending {total : Nat} {obligation : Obligation α} :
    obligation ∈ pending rules total [] jobs stages ↔
      (∃ job ∈ jobs, job.obligation rules = obligation) ∨
        ∃ stage ∈ stages, stage.step.obligation rules total = obligation := by
  simp [pending]

/-- The tracked number is the length of all that is still to be sorted. -/
theorem Sound.rest_eq (sound : Sound rules data owed queue engine budget jobs stages counts)
    (tracked : rules.settings.trackRemaining = true) (fits : data.size < Word.bound) :
    engine.work.rest.toNat =
      (((pending rules data.size owed jobs stages).map Obligation.window).map
        Window.length).sum :=
  sound.accounted.rest_eq tracked fits sound.ledger.total_length

/-- The tracked number includes every range that is owed. -/
theorem Sound.length_le_rest
    (sound : Sound rules data owed queue engine budget jobs stages counts)
    (tracked : rules.settings.trackRemaining = true) (fits : data.size < Word.bound) {job : Job}
    (member : job ∈ owed) : job.window.length ≤ engine.work.rest.toNat := by
  have present : Job.overall rules data.size job ∈ pending rules data.size owed jobs stages :=
    List.mem_append_left _ (List.mem_map_of_mem member)
  rw [sound.rest_eq tracked fits]
  exact List.le_sum_of_mem
    (List.mem_map_of_mem (f := Window.length)
      (List.mem_map_of_mem (f := Obligation.window) present))

/-- The number of elements still to be sorted includes every range that is owed, also after
others have finished some. -/
theorem Sound.inForce_again
    (sound : Sound rules data owed queue engine budget jobs stages counts) {job : Job}
    (member : job ∈ owed) (settled : Nat) :
    rules.InForce data.size job.window.length
      ((engine.work.settledElsewhere job.window.length settled).sequentialThreshold
        rules.settings engine.work.memory.primary.size) := by
  have size : engine.work.memory.primary.size = data.size := sound.size .primary
  have present : Job.overall rules data.size job ∈ pending rules data.size owed jobs stages :=
    List.mem_append_left _ (List.mem_map_of_mem member)
  have some := (sound.owing job member).1
  have within := sound.within present some
  rw [Work.sequentialThreshold, size]
  cases tracked : rules.settings.trackRemaining with
  | false => exact rules.inForce_total within
  | true =>
    obtain ⟨fewer, enough⟩ :=
      engine.work.rest_settledElsewhere job.window.length settled
    refine ⟨_, ?_, by simp [tracked], rfl⟩
    intro fits
    refine ⟨enough (sound.length_le_rest tracked fits member), Nat.le_trans fewer ?_⟩
    rw [sound.rest_eq tracked fits]
    have tiled := sound.ledger.total_length
    have whole : (Window.whole data.size).length = data.size := rfl
    omega

/-- The number of elements still to be sorted includes every range that is owed. -/
theorem Sound.inForce (sound : Sound rules data owed queue engine budget jobs stages counts)
    {job : Job} (member : job ∈ owed) :
    rules.InForce data.size job.window.length
      (engine.work.sequentialThreshold rules.settings engine.work.memory.primary.size) := by
  have again := sound.inForce_again member 0
  have same : engine.work.settledElsewhere job.window.length 0 = engine.work := by
    simp [Work.settledElsewhere]
  rwa [same] at again

/-- A range that is long is so under the threshold that is read again. -/
theorem long_again {work : Work α} {job : Job} (settled total : Nat)
    (long : rules.Long (work.sequentialThreshold rules.settings total) job.window.length
      job.depth) :
    rules.Long ((work.settledElsewhere job.window.length settled).sequentialThreshold
      rules.settings total) job.window.length job.depth := by
  obtain ⟨parallel, shallow, longer⟩ := long
  refine ⟨parallel, shallow, Nat.lt_of_le_of_lt ?_ longer⟩
  exact Work.sequentialThreshold_mono total fun _ =>
    (work.rest_settledElsewhere job.window.length settled).1

/-- A range counts as long if it is long under the threshold in force. -/
theorem isLong_iff {work : Work α} {job : Job} : isLong rules work job = true ↔
    rules.Long (work.sequentialThreshold rules.settings work.memory.primary.size)
      job.window.length job.depth := by
  simp [isLong, Rules.Long, and_assoc]

/-- A partition and its buckets bring about no more tasks than its range may. -/
theorem weight_started_le {window : Window} {depth maxDepth : Nat} (number threshold : Nat)
    (some : 0 < window.length) (shallow : depth < maxDepth) :
    (Stage.started number window depth threshold : Stage radix).weight maxDepth ≤
      jobWeight maxDepth ⟨window, depth⟩ := by
  have few := Rules.parts_le_length some threshold
  have level : maxDepth + 1 - depth = maxDepth - depth + 1 := by omega
  simp only [Stage.weight, Stage.started, jobWeight, level, if_true, List.length_range]
  rw [Nat.mul_add, Nat.mul_one]
  omega

/-- The tasks of ranges and partitions taken together. -/
theorem weight_cons (maxDepth : Nat) (job : Job) (ranges : List Job)
    (stages : List (Stage radix)) :
    weight maxDepth (job :: ranges) stages =
      jobWeight maxDepth job + weight maxDepth ranges stages := by
  rw [weight, weight, List.map_cons, List.sum_cons, Nat.add_assoc]

/-- The tasks of further ranges are added. -/
theorem weight_append (maxDepth : Nat) (first second : List Job) (stages : List (Stage radix)) :
    weight maxDepth (first ++ second) stages =
      weight maxDepth first stages + (second.map (jobWeight maxDepth)).sum := by
  rw [weight, weight, List.map_append, List.sum_append]
  omega

/-- The tasks of a further partition are added. -/
theorem weight_concat (maxDepth : Nat) (ranges : List Job) (stages : List (Stage radix))
    (stage : Stage radix) : weight maxDepth ranges (stages ++ [stage]) =
      weight maxDepth ranges stages + stage.weight maxDepth := by
  simp [weight, Nat.add_assoc]

/-- A range that is not long is sorted by the job it becomes. -/
theorem ledger_of_short {memory : Memory α} {job : Job} {total threshold : Nat}
    (held : (memory.held job.window).length = job.window.length) (many : 2 ≤ job.window.length)
    (inForce : rules.InForce total job.window.length threshold)
    (short : ¬rules.Long threshold job.window.length job.depth) :
    Ledger rules.Gave job.window (Ledger.aim (job.overall rules total) memory) memory
      [job.obligation rules] [] { ownJobs := 1 } := by
  refine Ledger.of_single (job.obligation rules) fun result sorts => ?_
  have reached := EngineSorts.job (held.symm ▸ many) (held.symm ▸ inForce) (held.symm ▸ short) sorts
  rw [add_comm]
  exact reached

/-- A range that is long is sorted by the partition it becomes. -/
theorem ledger_of_long {memory : Memory α} {job : Job} {total threshold : Nat} (number : Nat)
    (held : (memory.held job.window).length = job.window.length) (many : 2 ≤ job.window.length)
    (inForce : rules.InForce total job.window.length threshold)
    (long : rules.Long threshold job.window.length job.depth) :
    Ledger rules.Gave job.window (Ledger.aim (job.overall rules total) memory) memory
      [(Stage.started number job.window job.depth threshold :
        Stage radix).step.obligation rules total] [] { bigSteps := 1 } := by
  refine Ledger.of_single ((Stage.started number job.window job.depth threshold :
    Stage radix).step.obligation rules total) ?_
  rintro result ⟨readable, results, sorts, rfl⟩
  have sorts : ∀ bucket, EngineSorts rules total (bucketShare (rules.digits.digit · job.depth)
      (Rules.chunkLength (memory.held job.window).length threshold) (memory.held job.window)
      bucket) (job.depth + 1) (results bucket) := by
    intro bucket
    rw [held]
    exact sorts bucket
  have reached := EngineSorts.step (held.symm ▸ many) (held.symm ▸ inForce) (held.symm ▸ long)
    readable sorts
  rw [add_comm]
  exact reached

/-- A range that is not long becomes one sequential job. -/
theorem Sound.enqueueJob {job : Job}
    (sound : Sound rules data (job :: owed) queue engine budget jobs stages counts)
    (many : 2 ≤ job.window.length)
    (short : ¬rules.Long
      (engine.work.sequentialThreshold rules.settings engine.work.memory.primary.size)
      job.window.length job.depth) :
    Sound rules data owed (queue ++ [.small job]) engine budget (jobs ++ [job]) stages
      (counts + { ownJobs := 1 }) where
  registered := sound.registered
  queued := by
    have moved := sound.queued.append_right [EngineTask.small job]
    refine moved.trans ?_
    rw [List.map_append, List.map_singleton, List.append_assoc, List.append_assoc]
    exact List.Perm.append_left _ List.perm_append_comm
  ledger := by
    have present : Job.overall rules data.size job ∈
        pending rules data.size (job :: owed) jobs stages := List.mem_cons_self
    have held := (sound.ledger.spans_of_mem sound.spans present
      (by omega : 0 < job.window.length)).length_held
    have part := ledger_of_short held many (sound.inForce List.mem_cons_self) short
    exact (sound.ledger.refine (Memory.Elsewhere.refl _ _) part).perm
      (pending_job_perm rules data.size owed jobs stages job)
  size := sound.size
  owing other member := sound.owing other (List.mem_cons_of_mem _ member)
  waiting other member := by
    rcases List.mem_append.mp member with old | new
    · exact sound.waiting other old
    · rw [List.mem_singleton.mp new]
      exact ⟨many, (sound.owing job List.mem_cons_self).2⟩
  uniform range member := by
    apply sound.uniform
    simp only [ranges, List.mem_append, List.mem_cons, List.not_mem_nil,
      or_false] at member ⊢
    tauto
  partitioning := sound.partitioning
  tallied := by
    obtain ⟨bigSteps, comparisonSorts, smallJobs⟩ := sound.tallied
    refine ⟨bigSteps, comparisonSorts, ?_⟩
    rw [List.length_append, List.length_singleton, Counts.ownJobs_add, ← Nat.add_assoc,
      ← Nat.add_assoc, smallJobs]
  accounted := sound.accounted
  affordable := by
    refine Nat.le_trans (Nat.le_of_eq (weight_perm ?_ stages)) sound.affordable
    rw [← List.append_assoc]
    exact List.perm_append_singleton _ _

/-- A range that is long becomes a partition by several tasks. -/
theorem Sound.enqueueStage {job : Job} {threshold : Nat}
    (sound : Sound rules data (job :: owed) queue engine budget jobs stages counts)
    (inForce : rules.InForce data.size job.window.length threshold)
    (many : 2 ≤ job.window.length)
    (long : rules.Long threshold job.window.length job.depth) :
    Sound rules data owed
      (queue ++ (Stage.started engine.nextStep job.window job.depth threshold :
        Stage radix).tasks)
      ⟨{ engine.work with
          stats := { engine.work.stats with bigSteps := engine.work.stats.bigSteps + 1 } },
        engine.steps ++
          [(Stage.started engine.nextStep job.window job.depth threshold : Stage radix).entry],
        engine.nextStep + 1⟩
      budget jobs (stages ++ [Stage.started engine.nextStep job.window job.depth threshold])
      (counts + { bigSteps := 1 }) := by
  have present : Job.overall rules data.size job ∈
      pending rules data.size (job :: owed) jobs stages := List.mem_cons_self
  have some : 0 < job.window.length := by omega
  have spans := sound.ledger.spans_of_mem sound.spans present some
  have within := sound.within present some
  constructor
  case registered =>
    exact sound.registered.start rfl _
  case queued =>
    rw [List.flatMap_append, List.flatMap_singleton, ← List.append_assoc]
    exact sound.queued.append_right _
  case ledger =>
    have part := ledger_of_long engine.nextStep spans.length_held many inForce long
    exact (sound.ledger.refine (Memory.Elsewhere.refl _ _) part).perm
      (pending_stage_perm rules data.size owed jobs stages _)
  case size =>
    exact sound.size
  case owing =>
    exact fun other member => sound.owing other (List.mem_cons_of_mem _ member)
  case waiting =>
    exact sound.waiting
  case uniform =>
    intro range member
    have moved : range ∈ ranges (job :: owed) jobs stages := by
      simp only [ranges, List.map_append, List.map_cons, List.map_nil, List.mem_append,
        List.mem_cons, List.not_mem_nil, or_false] at member ⊢
      tauto
    exact sound.uniform range moved
  case partitioning =>
    intro stage member
    rcases List.mem_append.mp member with old | new
    · exact sound.partitioning stage old
    · rw [List.mem_singleton.mp new]
      exact Stage.sound_started engine.nextStep threshold spans many within long.2.1
        fun undivided => undivided _ _ _ inForce long
  case tallied =>
    obtain ⟨bigSteps, comparisonSorts, smallJobs⟩ := sound.tallied
    exact ⟨congrArg (· + 1) bigSteps, comparisonSorts, smallJobs⟩
  case accounted =>
    exact sound.accounted
  case affordable =>
    have lighter : (Stage.started engine.nextStep job.window job.depth threshold :
        Stage radix).weight rules.maxDepth ≤ jobWeight rules.maxDepth job :=
      weight_started_le engine.nextStep threshold some long.2.1
    have afford := sound.affordable
    rw [List.cons_append, weight_cons] at afford
    rw [weight_concat]
    omega

/-- A range of two or more elements becomes tasks, by which it is sorted. -/
theorem dispatch_ensures (excuses : Excuses rules data.size excused) (settled : Job → Nat)
    {job : Job}
    (sound : Sound rules data (job :: owed) queue engine budget jobs stages counts)
    (many : 2 ≤ job.window.length) :
    Ensures excused (dispatch rules settled engine job) fun next => ∃ jobs stages counts,
      Sound rules data owed (queue ++ next.2) next.1 budget jobs stages counts := by
  have present : Job.overall rules data.size job ∈
      pending rules data.size (job :: owed) jobs stages := List.mem_cons_self
  have some : 0 < job.window.length := by omega
  unfold dispatch
  by_cases isLong : isLong rules engine.work job = true
  · rw [if_pos isLong]
    have long := long_again (settled job) _ (isLong_iff.mp isLong)
    have owes : job ∈ job :: owed := List.mem_cons_self
    have inForce := sound.inForce_again owes (settled job)
    refine (Stage.start_ensures excuses engine.nextStep job.depth some
      (sound.within present some) inForce long).bind ?_
    rintro step rfl
    exact ⟨_, _, _, sound.enqueueStage inForce many long⟩
  · rw [if_neg isLong]
    exact ⟨_, _, _, sound.enqueueJob many fun long => isLong (isLong_iff.mpr long)⟩

/-- A range of one element that is owed is copied back, and is finished then. -/
theorem Sound.finishSingle {job : Job}
    (sound : Sound rules data (job :: owed) queue engine budget jobs stages counts)
    (single : job.window.length = 1) :
    Sound rules data owed queue
      { engine with
        work := ({ engine.work with memory := engine.work.memory.copyBack job.window } :
          Work α).settle rules.settings job.window.settled }
      budget jobs stages counts := by
  have present : Job.overall rules data.size job ∈
      pending rules data.size (job :: owed) jobs stages := List.mem_cons_self
  have spans := sound.ledger.spans_of_mem sound.spans present
    (by omega : 0 < job.window.length)
  have change := Memory.elsewhere_copyBack engine.work.memory job.window
  constructor
  case registered =>
    exact sound.registered.rework _
  case queued =>
    exact sound.queued
  case ledger =>
    have part : Ledger rules.Gave job.window
        (Ledger.aim (job.overall rules data.size) engine.work.memory)
        (engine.work.memory.copyBack job.window) [] [job.window.settled] 0 := by
      refine Ledger.of_copyBack spans (.inl single) (.alone ?_)
      rw [spans.length_held]
      exact Nat.le_of_eq single
    have refined := sound.ledger.refine change part
    rw [add_zero] at refined
    exact refined
  case size =>
    intro side
    exact (change.size side).trans (sound.size side)
  case owing =>
    exact fun other member => sound.owing other (List.mem_cons_of_mem _ member)
  case waiting =>
    exact sound.waiting
  case uniform =>
    exact ranges_undisturbed sound.ledger change (map_window_pending _ _ _ _ _)
      fun range member => sound.uniform range (List.mem_cons_of_mem _ member)
  case partitioning =>
    exact stages_undisturbed sound.ledger sound.spans change
      (fun stage member => mem_pending_stage member) sound.partitioning
  case tallied =>
    exact sound.tallied
  case accounted =>
    exact Work.Accounted.settle sound.accounted _
  case affordable =>
    have afford := sound.affordable
    rw [List.cons_append, weight_cons] at afford
    exact Nat.le_trans (Nat.le_add_left _ _) afford

/-- The buckets of a partition that has finished are copied back or become tasks, one
after the other.

Induct over the buckets. Those that have not been handled are owed. -/
theorem dispatchBuckets_ensures (excuses : Excuses rules data.size excused)
    (settled : Job → Nat) {window : Window} {depth : Nat} (within : window.length ≤ data.size)
    (buckets : List Bucket)
    (inside : ∀ bucket ∈ buckets, bucket.start + bucket.length ≤ window.length)
    (sound : Sound rules data
      (buckets.map fun bucket => ⟨window.exchanged.part bucket, depth + 1⟩) queue engine budget
      jobs stages counts) :
    Ensures excused (dispatchBuckets rules settled window depth buckets engine) fun next =>
      ∃ jobs stages counts,
        Sound rules data [] (queue ++ next.2) next.1 budget jobs stages counts := by
  induction buckets generalizing queue engine jobs stages counts with
  | nil =>
    refine ⟨jobs, stages, counts, ?_⟩
    rw [List.append_nil]
    exact sound
  | cons bucket buckets ih =>
    have others := fun other member => inside other (List.mem_cons_of_mem bucket member)
    have some : 0 < bucket.length := (sound.owing _ List.mem_cons_self).1
    refine (Window.flip_ensures (excuses.job.fits_length within)
      (inside bucket List.mem_cons_self)).bind ?_
    rintro part rfl
    by_cases single : bucket.length = 1
    · rw [if_pos single]
      exact ih others (sound.finishSingle single)
    · rw [if_neg single]
      have many : 2 ≤ bucket.length := by omega
      refine (dispatch_ensures excuses settled sound many).bind ?_
      rintro ⟨first, tasks⟩ ⟨_, _, _, dispatched⟩
      refine (ih others dispatched).bind ?_
      rintro ⟨last, later⟩ ⟨jobs, stages, counts, done⟩
      refine ⟨jobs, stages, counts, ?_⟩
      rw [List.append_assoc] at done
      exact done

end RadixSort.Engine
