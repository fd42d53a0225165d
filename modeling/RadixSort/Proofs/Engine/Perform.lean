import RadixSort.Proofs.Engine.Descent
import RadixSort.Proofs.Engine.Dispatch

/-!
# Executing a task keeps the ledger

A task is taken from anywhere in the queue. A sequential job leaves behind the jobs it has
given away. A task of a partition takes one part off those that are left; the last one of
a phase begins the next phase, or hands on the buckets. Each brings about less than it was
allowed to, since whatever it leaves behind lies a digit deeper, or has a part less to do.
-/
namespace RadixSort.Engine

open Recursion

variable {α : Type} {radix : Nat} {rules : Rules α radix} {excused : Fault → Prop}
  {data : Array α} {jobs reordered : List Job} {queue rest spawned : List EngineTask}
  {engine : Engine α radix} {budget : Nat} {stages before after : List (Stage radix)}
  {stage next : Stage radix} {counts : Counts} {task : EngineTask}

/-- The order in which jobs are listed does not matter. -/
theorem Sound.reorder (same : jobs.Perm reordered)
    (sound : Sound rules data [] queue engine budget jobs stages counts) :
    Sound rules data [] queue engine budget reordered stages counts where
  registered := sound.registered
  queued := sound.queued.trans ((same.map EngineTask.small).append_right _)
  ledger := sound.ledger.perm ((same.map (Job.obligation rules)).append_right _)
  size := sound.size
  owing := sound.owing
  waiting job member := sound.waiting job (same.mem_iff.mpr member)
  uniform range member := by
    refine sound.uniform range ?_
    simp only [ranges, List.mem_append] at member ⊢
    exact member.imp_right (Or.imp_left same.mem_iff.mpr)
  partitioning := sound.partitioning
  tallied := by
    rw [← same.length_eq]
    exact sound.tallied
  accounted := sound.accounted
  affordable := by
    rw [← weight_perm (same.append_left [])]
    exact sound.affordable

/-- Where one task has been taken from some and others have been added to them, the rest of
the queue is as it was. -/
theorem perm_replaced {front back own others replaced : List EngineTask}
    (taken : (front ++ (own ++ back)).Perm (task :: rest)) (first : own.Perm (task :: others))
    (made : (others ++ spawned).Perm replaced) :
    (rest ++ spawned).Perm (front ++ (replaced ++ back)) := by
  have left : (task :: rest).Perm (task :: (front ++ (others ++ back))) := by
    refine taken.symm.trans ?_
    refine (List.Perm.append_left front (first.append_right back)).trans ?_
    exact List.perm_middle
  calc List.Perm (rest ++ spawned) (front ++ (others ++ back) ++ spawned) :=
        left.cons_inv.append_right spawned
    _ = front ++ (others ++ (back ++ spawned)) := by rw [List.append_assoc, List.append_assoc]
    List.Perm _ (front ++ (others ++ (spawned ++ back))) :=
        (List.perm_append_comm.append_left others).append_left front
    _ = front ++ (others ++ spawned ++ back) := by rw [List.append_assoc others]
    List.Perm _ (front ++ (replaced ++ back)) := (made.append_right back).append_left front

/-- Ranges that lie deeper than some depth, and within some length, bring about fewer tasks
than one range of that depth and length may. -/
theorem sum_jobWeight_le (maxDepth : Nat) {depth length : Nat} (ranges : List Job)
    (deeper : ∀ range ∈ ranges, depth < range.depth)
    (shorter : (ranges.map fun range => range.window.length).sum ≤ length) :
    (ranges.map (jobWeight maxDepth)).sum ≤ 2 * length * (maxDepth - depth) := by
  induction ranges generalizing length with
  | nil => exact Nat.zero_le _
  | cons range ranges ih =>
    rw [List.map_cons, List.sum_cons] at shorter ⊢
    have others := ih (fun other member => deeper other (List.mem_cons_of_mem _ member))
      (Nat.le_sub_of_add_le' shorter)
    have below := deeper range List.mem_cons_self
    have level : maxDepth + 1 - range.depth ≤ maxDepth - depth := by omega
    have own : jobWeight maxDepth range ≤ 2 * range.window.length * (maxDepth - depth) :=
      Nat.mul_le_mul_left _ level
    calc jobWeight maxDepth range + (ranges.map (jobWeight maxDepth)).sum
        ≤ 2 * range.window.length * (maxDepth - depth) +
            2 * (length - range.window.length) * (maxDepth - depth) := Nat.add_le_add own others
      _ = 2 * length * (maxDepth - depth) := by
        rw [← Nat.add_mul, ← Nat.mul_add, Nat.add_sub_cancel' (Nat.le_of_add_right_le shorter)]

/-- The jobs that a job gives away bring about fewer tasks than the job may, itself included. -/
theorem sum_jobWeight_lt {maxDepth : Nat} {job : Job} {donated : List Job}
    (shallow : job.depth ≤ maxDepth) (some : 0 < job.window.length)
    (deeper : ∀ other ∈ donated, job.depth < other.depth)
    (shorter : (donated.map fun other => other.window.length).sum ≤ job.window.length) :
    (donated.map (jobWeight maxDepth)).sum < jobWeight maxDepth job := by
  have lighter := sum_jobWeight_le maxDepth donated deeper shorter
  have level : maxDepth + 1 - job.depth = maxDepth - job.depth + 1 := by omega
  rw [jobWeight, level, Nat.mul_add, Nat.mul_one]
  omega

/-- The counters after a job that has given some jobs away, and what it has cost. -/
theorem Tallied.execute {stats spent : Stats} {waiting donated : Nat} {counts cost : Counts}
    (tallied : Tallied stats (waiting + 1) counts) (steps : cost.bigSteps = 0)
    (own : cost.ownJobs = 0)
    (spends : spent = { stats with
      smallJobs := stats.smallJobs + 1
      donatedJobs := stats.donatedJobs + donated
      comparisonSorts := stats.comparisonSorts + cost.comparisonSorts }) :
    Tallied spent (waiting + donated) (counts + cost) := by
  obtain ⟨bigSteps, comparisonSorts, smallJobs⟩ := tallied
  subst spends
  constructor
  case bigSteps =>
    rw [Counts.bigSteps_add, steps]
    exact bigSteps
  case comparisonSorts =>
    rw [Counts.comparisonSorts_add]
    exact congrArg (· + cost.comparisonSorts) comparisonSorts
  case smallJobs =>
    rw [Counts.ownJobs_add, own]
    dsimp only
    omega

/-- A sequential job is executed. The jobs it gives away take its place. -/
theorem performSmall_ensures (excuses : Excuses rules data.size excused) (idle : Nat → Bool)
    {job : Job} {others : List Job}
    (sound : Sound rules data [] queue engine (budget + 1) (job :: others) stages counts)
    (taken : queue.Perm (.small job :: rest)) :
    Ensures excused (performSmall rules idle job engine) fun next => ∃ jobs stages counts,
      Sound rules data [] (rest ++ next.2) next.1 budget jobs stages counts := by
  obtain ⟨many, shallow⟩ := sound.waiting job List.mem_cons_self
  have present : job.obligation rules ∈ pending rules data.size [] (job :: others) stages :=
    List.mem_cons_self
  have some : 0 < job.window.length := by omega
  have spans := sound.ledger.spans_of_mem sound.spans present some
  have within := sound.within present some
  refine Ensures.bind ((SmallJob.run_ensures excuses.job idle (by exact spans) within many).both
    (SmallJob.run_holds excuses.job (by exact spans) within idle)) ?_
  rintro ⟨work, donated⟩ ⟨⟨⟨settled, cost, underway⟩, given⟩, holds⟩
  refine ⟨others ++ donated, stages, counts + cost, ?_⟩
  constructor
  case registered =>
    exact sound.registered.rework work
  case queued =>
    have queued := sound.queued.symm.trans taken
    rw [List.map_cons] at queued
    have replaced : (rest ++ donated.map EngineTask.small).Perm
        ([] ++ ((others.map EngineTask.small ++ donated.map EngineTask.small) ++
          stages.flatMap Stage.tasks)) :=
      perm_replaced queued (List.Perm.refl _) (List.Perm.refl _)
    rw [List.map_append]
    exact replaced
  case ledger =>
    have refined := sound.ledger.refine underway.elsewhere underway.ledger
    have finished : settled ++ engine.work.finished = work.finished := underway.finished.symm
    rw [finished] at refined
    refine refined.perm ?_
    rw [pending, List.map_append, List.map_nil, List.nil_append, List.append_assoc]
    exact List.perm_append_comm_assoc _ _ _
  case size =>
    intro side
    exact (underway.elsewhere.size side).trans (sound.size side)
  case owing =>
    exact sound.owing
  case waiting =>
    intro other member
    rcases List.mem_append.mp member with old | new
    · exact sound.waiting other (List.mem_cons_of_mem _ old)
    · exact ⟨(given other new).many, (given other new).shallow⟩
  case uniform =>
    have others : ∀ range ∈ ranges [] others stages,
        Uniform rules.digits.digit range.depth (work.memory.held range.window) :=
      ranges_undisturbed sound.ledger underway.elsewhere
        (map_window_pending rules data.size [] others stages)
        fun range member => sound.uniform range (List.mem_cons_of_mem _ member)
    have own := sound.uniform job List.mem_cons_self
    intro range member
    simp only [ranges, List.nil_append, List.append_assoc, List.mem_append] at member others
    rcases member with old | new | old
    · exact others range (.inl old)
    · exact (holds range new).uniform own
    · exact others range (.inr old)
  case partitioning =>
    exact stages_undisturbed sound.ledger sound.spans underway.elsewhere
      (fun stage member => List.mem_append_right _
        (List.mem_map_of_mem (f := fun stage => stage.step.obligation rules data.size) member))
      sound.partitioning
  case tallied =>
    rw [List.length_append]
    exact sound.tallied.execute underway.steps underway.jobs underway.stats
  case accounted =>
    exact underway.accounted sound.accounted
  case affordable =>
    have shorter : (donated.map fun range => range.window.length).sum ≤ job.window.length := by
      have lengths := underway.ledger.sum_length_le
      rw [List.map_map] at lengths
      exact lengths
    have lighter : (donated.map (jobWeight rules.maxDepth)).sum < jobWeight rules.maxDepth job :=
      sum_jobWeight_lt shallow some (fun other member => (given other member).deeper) shorter
    have afford := sound.affordable
    rw [List.nil_append, weight_cons] at afford
    rw [List.nil_append, weight_append]
    omega

/-- A sequential job that is taken from the queue is one that waits. -/
theorem Sound.job_of_mem {job : Job}
    (sound : Sound rules data [] queue engine budget jobs stages counts)
    (member : EngineTask.small job ∈ queue) : job ∈ jobs := by
  rcases List.mem_append.mp (sound.queued.mem_iff.mp member) with small | listed
  · obtain ⟨other, waiting, same⟩ := List.mem_map.mp small
    cases same
    exact waiting
  · obtain ⟨⟨number, step, phase, left⟩, -, listed⟩ := List.mem_flatMap.mp listed
    obtain ⟨part, -, same⟩ := List.mem_map.mp listed
    cases phase <;> cases same

/-- The task of a partition that is executed is one of a partition that has not finished. -/
theorem Sound.stage_of_mem (sound : Sound rules data [] queue engine budget jobs stages counts)
    (member : task ∈ queue) (large : ∀ job, task ≠ .small job) :
    ∃ before stage after, stages = before ++ stage :: after ∧
      ∃ part ∈ stage.left, task = stage.task part := by
  rcases List.mem_append.mp (sound.queued.mem_iff.mp member) with small | listed
  · obtain ⟨job, -, rfl⟩ := List.mem_map.mp small
    exact absurd rfl (large job)
  · obtain ⟨stage, registered, listed⟩ := List.mem_flatMap.mp listed
    obtain ⟨part, left, rfl⟩ := List.mem_map.mp listed
    obtain ⟨before, after, split⟩ := List.append_of_mem registered
    exact ⟨before, stage, after, split, part, left, rfl⟩

/-- The obligation of a partition is listed between those of the others. -/
theorem pending_middle_perm (rules : Rules α radix) (total : Nat) (jobs : List Job)
    (before after : List (Stage radix)) (stage : Stage radix) :
    (pending rules total [] jobs (before ++ stage :: after)).Perm
      (stage.step.obligation rules total :: pending rules total [] jobs (before ++ after)) := by
  have listed : pending rules total [] jobs (before ++ stage :: after) =
      (jobs.map (Job.obligation rules) ++
        before.map fun stage => stage.step.obligation rules total) ++
        stage.step.obligation rules total ::
          after.map fun stage => stage.step.obligation rules total := by
    simp [pending]
  have others : pending rules total [] jobs (before ++ after) =
      (jobs.map (Job.obligation rules) ++
        before.map fun stage => stage.step.obligation rules total) ++
          after.map fun stage => stage.step.obligation rules total := by
    simp [pending]
  rw [listed, others]
  exact List.perm_middle

/-- The range of a partition is listed between those of the others. -/
theorem ranges_middle_perm (jobs : List Job) (before after : List (Stage radix))
    (stage : Stage radix) : (ranges [] jobs (before ++ stage :: after)).Perm
      (stage.range :: ranges [] jobs (before ++ after)) := by
  simp only [ranges, List.nil_append, List.map_append, List.map_cons, ← List.append_assoc]
  exact List.perm_middle

/-- A change within the range of one partition leaves what other ranges have in common. -/
theorem Sound.others_uniform {memory : Memory α}
    (sound : Sound rules data [] queue engine budget jobs (before ++ stage :: after) counts)
    (change : Memory.Elsewhere stage.step.window engine.work.memory memory) :
    ∀ range ∈ ranges [] jobs (before ++ after),
      Uniform rules.digits.digit range.depth (memory.held range.window) := by
  have ledger := sound.ledger.perm (pending_middle_perm rules data.size jobs before after stage)
  refine ranges_undisturbed ledger change (map_window_pending _ _ _ _ _) fun range member => ?_
  exact sound.uniform range ((ranges_middle_perm jobs before after stage).mem_iff.mpr
    (List.mem_cons_of_mem _ member))

/-- A change within the range of one partition leaves the others undisturbed. -/
theorem Sound.others_undisturbed {memory : Memory α}
    (sound : Sound rules data [] queue engine budget jobs (before ++ stage :: after) counts)
    (change : Memory.Elsewhere stage.step.window engine.work.memory memory) :
    ∀ other ∈ before ++ after, other.Sound rules data.size memory := by
  have ledger := sound.ledger.perm (pending_middle_perm rules data.size jobs before after stage)
  refine stages_undisturbed ledger sound.spans change
    (fun other member => mem_pending_stage member) ?_
  intro other member
  apply sound.partitioning
  rcases List.mem_append.mp member with old | later
  · exact List.mem_append_left _ old
  · exact List.mem_append_right _ (List.mem_cons_of_mem _ later)

/-- A partition goes on within its range while the rest of the engine stays as it is. -/
theorem Sound.advance {memory : Memory α} {others : List EngineTask}
    (sound : Sound rules data [] queue engine (budget + 1) jobs (before ++ stage :: after) counts)
    (same : next.number = stage.number) (place : next.range = stage.range)
    (owes : next.step.obligation rules data.size = stage.step.obligation rules data.size)
    (change : Memory.Elsewhere stage.step.window engine.work.memory memory)
    (kept : memory.held stage.step.window = engine.work.memory.held stage.step.window)
    (well : next.Sound rules data.size memory) (taken : queue.Perm (task :: rest))
    (own : stage.tasks.Perm (task :: others)) (made : (others ++ spawned).Perm next.tasks)
    (lighter : next.weight rules.maxDepth + 1 ≤ stage.weight rules.maxDepth) :
    Sound rules data [] (rest ++ spawned)
      (({ engine with work := { engine.work with memory } } : Engine α radix).updateStep
        stage.number next.step)
      budget jobs (before ++ next :: after) counts := by
  have ledger := sound.ledger.perm (pending_middle_perm rules data.size jobs before after stage)
  have undisturbed := sound.others_undisturbed change
  constructor
  case registered =>
    exact (sound.registered.rework { engine.work with memory }).update same
  case queued =>
    have queued := sound.queued.symm.trans taken
    rw [List.flatMap_append, List.flatMap_cons, ← List.append_assoc] at queued ⊢
    exact perm_replaced queued own made
  case ledger =>
    have part : Ledger rules.Gave stage.step.window
        (Ledger.aim (stage.step.obligation rules data.size) engine.work.memory) memory
        [stage.step.obligation rules data.size] [] 0 := by
      refine Ledger.of_single (stage.step.obligation rules data.size) fun result met => ?_
      rw [zero_add]
      change (stage.step.obligation rules data.size).promise
        (engine.work.memory.held stage.step.window) result
      rw [← kept]
      exact met
    have refined := ledger.refine change part
    rw [add_zero] at refined
    refine refined.perm ?_
    rw [← owes]
    exact (pending_middle_perm rules data.size jobs before after next).symm
  case size =>
    intro side
    exact (change.size side).trans (sound.size side)
  case owing =>
    exact sound.owing
  case waiting =>
    exact sound.waiting
  case uniform =>
    intro range member
    rcases List.mem_cons.mp ((ranges_middle_perm jobs before after next).mem_iff.mp member)
      with rfl | other
    · have own := sound.uniform stage.range
        ((ranges_middle_perm jobs before after stage).mem_iff.mpr List.mem_cons_self)
      rw [place]
      exact kept ▸ own
    · exact sound.others_uniform change range other
  case partitioning =>
    intro other member
    rcases List.mem_append.mp member with old | new
    · exact undisturbed other (List.mem_append_left _ old)
    · rcases List.mem_cons.mp new with rfl | later
      · exact well
      · exact undisturbed other (List.mem_append_right _ later)
  case tallied =>
    exact sound.tallied
  case accounted =>
    exact sound.accounted
  case affordable =>
    have afford := sound.affordable
    simp only [weight, List.map_append, List.map_cons, List.sum_append, List.sum_cons] at afford ⊢
    omega

/-- A partition goes on in its phase with one part less. -/
theorem Sound.goOn {memory : Memory α} {part : Nat} {table : CountTable radix}
    (sound : Sound rules data [] queue engine (budget + 1) jobs (before ++ stage :: after) counts)
    (change : Memory.Elsewhere stage.step.window engine.work.memory memory)
    (kept : memory.held stage.step.window = engine.work.memory.held stage.step.window)
    (member : part ∈ stage.left) (unfinished : stage.left.erase part ≠ [])
    (achieved : (stage.without part table).Achieved rules memory)
    (taken : queue.Perm (stage.task part :: rest)) :
    Sound rules data [] (rest ++ [])
      (({ engine with work := { engine.work with memory } } : Engine α radix).updateStep
        stage.number (stage.without part table).step)
      budget jobs (before ++ stage.without part table :: after) counts := by
  have well := sound.partitioning stage (List.mem_append_right _ List.mem_cons_self)
  refine sound.advance rfl rfl rfl change kept (well.without unfinished achieved) taken
    (Stage.tasks_perm table member) ?_ (Nat.le_of_eq (Stage.weight_without table _ member))
  rw [List.append_nil]

/-- The task that counts a chunk is executed. The last one of its partition lays out the
buckets and makes the tasks that scatter the chunks. -/
theorem performCount_ensures (excuses : Excuses rules data.size excused)
    (sound : Sound rules data [] queue engine (budget + 1) jobs (before ++ stage :: after) counts)
    (counting : stage.phase = .counting) {part : Nat} (member : part ∈ stage.left)
    (taken : queue.Perm (.count stage.number part :: rest)) :
    Ensures excused (performCount rules stage.number part engine) fun next =>
      ∃ jobs stages counts,
        Sound rules data [] (rest ++ next.2) next.1 budget jobs stages counts := by
  obtain ⟨number, step, phase, left⟩ := stage
  obtain rfl : phase = .counting := counting
  obtain ⟨shaped, distinct, valid, -, achieved⟩ := sound.partitioning _
    (List.mem_append_right _ List.mem_cons_self)
  have counted : step.Counted rules engine.work.memory left := achieved
  have spans := sound.ledger.spans_of_mem sound.spans
    (mem_pending_stage (List.mem_append_right _ List.mem_cons_self))
    shaped.window_pos
  refine (Ensures.of_eq_ok sound.registered.lookup rfl).bind ?_
  rintro _ rfl
  refine (counted.count_ensures shaped excuses spans member (valid part member)).bind ?_
  rintro _ ⟨table, rfl, counted⟩
  have shaped := shaped.turn (step.left - 1) table
  have number_left : step.left - 1 = (left.erase part).length := counted.number
  by_cases last : left.erase part = []
  · have none : step.left - 1 = 0 := by rw [number_left, last, List.length_nil]
    rw [if_pos none]
    rw [last] at counted
    refine (counted.layOut_ensures shaped excuses spans).bind ?_
    rintro _ ⟨ends, rfl, scattered⟩
    let next : Stage radix :=
      ⟨number, { step with table := ends, left := step.parts }, .scattering, List.range step.parts⟩
    have well : next.Sound rules data.size engine.work.memory :=
      ⟨shaped.turn step.parts ends, List.nodup_range, fun part => List.mem_range.mp,
        List.ne_nil_of_mem (List.mem_range.mpr shaped.chunking.parts_pos), scattered⟩
    refine ⟨jobs, before ++ next :: after, counts, ?_⟩
    have same : next.number = number := rfl
    refine sound.advance same rfl rfl (Memory.Elsewhere.refl _ _) rfl well taken
      (Stage.tasks_perm table member) ?_ ?_
    · rw [Stage.tasks, Stage.without, last]
      exact List.Perm.refl _
    · have positive : 0 < left.length := List.length_pos_of_mem member
      change (List.range step.parts).length + 0 +
          2 * step.window.length * (rules.maxDepth - step.depth) + 1 ≤
        left.length + step.parts + 2 * step.window.length * (rules.maxDepth - step.depth)
      rw [List.length_range]
      omega
  · have some : step.left - 1 ≠ 0 := by
      rw [number_left]
      exact List.length_pos_iff.mpr last |>.ne'
    rw [if_neg some]
    exact ⟨jobs, _, counts,
      sound.goOn (Memory.Elsewhere.refl _ _) rfl member last counted taken⟩

/-- The ranges that the buckets of a partition are sorted as. -/
def bucketJobs (window : Window) (depth : Nat) (buckets : List Bucket) : List Job :=
  buckets.map fun bucket => ⟨window.exchanged.part bucket, depth + 1⟩

/-- Buckets are sorted one digit deeper than the range they are part of. -/
theorem bucketJobs_deeper (window : Window) (depth : Nat) (buckets : List Bucket) :
    ∀ job ∈ bucketJobs window depth buckets, depth < job.depth := by
  intro job member
  obtain ⟨bucket, -, rfl⟩ := List.mem_map.mp member
  exact Nat.lt_succ_self _

/-- The buckets of a partition that has scattered its last chunk. -/
def finishedBuckets (rules : Rules α radix) (memory : Memory α) (step : RadixStep radix) :
    List Bucket :=
  Bucket.ofBlocks 0 (groupChunks (step.key rules) step.chunkLength (memory.held step.window))

/-- The range of a partition whose last chunk has been scattered is sorted by its buckets. -/
theorem ledger_of_scattered {earlier memory : Memory α} {step : RadixStep radix}
    {table : CountTable radix} {left total : Nat} (shaped : step.Shaped rules total)
    (spans : memory.Spans step.window)
    (kept : memory.held step.window = earlier.held step.window)
    (scattered : RadixStep.Scattered rules memory { step with table, left } []) :
    Ledger rules.Gave step.window (Ledger.aim (step.obligation rules total) earlier) memory
      ((bucketJobs step.window step.depth (finishedBuckets rules memory step)).map
        (Job.overall rules total)) [] 0 := by
  have finished := Stage.finished_ledger (shaped.turn left table) spans scattered
  have owed : (bucketJobs step.window step.depth (finishedBuckets rules memory step)).map
      (Job.overall rules total) =
        Stage.bucketsOwed rules total memory { step with table, left } := by
    rw [bucketJobs, List.map_map]
    rfl
  rw [owed]
  refine ⟨finished.tiles, fun final later settled met => ?_, finished.given⟩
  have reached := finished.settles final later settled met
  change (step.obligation rules total).promise (earlier.held step.window) _
  rw [← kept]
  exact reached

/-- Once its last chunk has been scattered, a partition is forgotten, and its buckets are
owed. -/
theorem Sound.complete {memory : Memory α} {table : CountTable radix} {left : Nat}
    (sound : Sound rules data [] queue engine (budget + 1) jobs (before ++ stage :: after) counts)
    (change : Memory.Elsewhere stage.step.window engine.work.memory memory)
    (kept : memory.held stage.step.window = engine.work.memory.held stage.step.window)
    (scattered : RadixStep.Scattered rules memory { stage.step with table, left } [])
    (taken : queue.Perm (task :: rest)) (own : stage.tasks = [task]) :
    Sound rules data
      (bucketJobs stage.step.window stage.step.depth (finishedBuckets rules memory stage.step))
      rest
      (({ engine with work := { engine.work with memory } } : Engine α radix).removeStep
        stage.number)
      budget jobs (before ++ after) counts := by
  have ledger := sound.ledger.perm (pending_middle_perm rules data.size jobs before after stage)
  have well := sound.partitioning stage (List.mem_append_right _ List.mem_cons_self)
  have shaped := well.shaped.turn left table
  have spans : engine.work.memory.Spans stage.step.window :=
    ledger.spans_of_mem sound.spans List.mem_cons_self well.shaped.window_pos
  have part := ledger_of_scattered well.shaped (change.spans spans) kept scattered
  constructor
  case registered =>
    exact (sound.registered.rework { engine.work with memory }).remove
  case queued =>
    have queued := sound.queued.symm.trans taken
    rw [List.flatMap_append, List.flatMap_cons, ← List.append_assoc, own] at queued
    have left : (rest ++ []).Perm (_ ++ ([] ++ _)) :=
      perm_replaced queued (List.Perm.refl _) (List.Perm.refl [])
    rw [List.append_nil, List.nil_append] at left
    rw [List.flatMap_append, ← List.append_assoc]
    exact left
  case ledger =>
    have refined := ledger.refine change part
    rw [add_zero] at refined
    exact refined
  case size =>
    intro side
    exact (change.size side).trans (sound.size side)
  case owing =>
    intro job member
    obtain ⟨bucket, listed, rfl⟩ := List.mem_map.mp member
    exact ⟨(Bucket.bounds_of_mem listed).1, well.shaped.shallow⟩
  case waiting =>
    exact sound.waiting
  case uniform =>
    have own := sound.uniform stage.range
      ((ranges_middle_perm jobs before after stage).mem_iff.mpr List.mem_cons_self)
    intro range member
    rcases List.mem_append.mp member with bucket | other
    · obtain ⟨bucket, listed, rfl⟩ := List.mem_map.mp bucket
      exact Stage.finished_uniform shaped (change.spans spans) scattered (kept ▸ own) listed
    · exact sound.others_uniform change range other
  case partitioning =>
    exact sound.others_undisturbed change
  case tallied =>
    exact sound.tallied
  case accounted =>
    exact sound.accounted
  case affordable =>
    have shorter : ((bucketJobs stage.step.window stage.step.depth
        (finishedBuckets rules memory stage.step)).map fun job => job.window.length).sum ≤
          stage.step.window.length := by
      have lengths := part.sum_length_le
      rw [List.map_map] at lengths
      exact lengths
    have lighter := sum_jobWeight_le rules.maxDepth _ (bucketJobs_deeper _ _ _) shorter
    have single : stage.left.length = 1 := by
      rw [← List.length_map (f := stage.task)]
      exact congrArg List.length own
    have afford := sound.affordable
    simp only [weight, List.nil_append, List.map_append, List.map_cons, List.sum_append,
      List.sum_cons] at afford ⊢
    rw [Stage.weight, single] at afford
    omega

/-- The task that scatters a chunk of a partition is executed, and something follows that
depends on whether it was the last one. Either the partition goes on with one chunk less, or
it is forgotten, and its buckets are owed. -/
theorem Sound.distribute_bind {β : Type} {post : β → Prop}
    {following : RadixStep radix → RadixStep radix × Memory α → Except Fault β}
    (excuses : Excuses rules data.size excused)
    (sound : Sound rules data [] queue engine (budget + 1) jobs (before ++ stage :: after) counts)
    (scattering : stage.phase = .scattering) {part : Nat} (member : part ∈ stage.left)
    (taken : queue.Perm (.distribute stage.number part :: rest))
    (goesOn : ∀ scattered memory stages, scattered.left ≠ 0 →
      Sound rules data [] (rest ++ [])
        (({ engine with work := { engine.work with memory } } : Engine α radix).updateStep
          stage.number scattered) budget jobs stages counts →
      Ensures excused (following stage.step (scattered, memory)) post)
    (ends : ∀ scattered memory stages buckets, scattered.left = 0 →
      scattered.buckets = .ok buckets → stage.step.window.length ≤ data.size →
      (∀ bucket ∈ buckets, bucket.start + bucket.length ≤ stage.step.window.length) →
      Sound rules data (bucketJobs stage.step.window stage.step.depth buckets) rest
        (({ engine with work := { engine.work with memory } } : Engine α radix).removeStep
          stage.number) budget jobs stages counts →
      Ensures excused (following stage.step (scattered, memory)) post) :
    Ensures excused (do
      let step ← engine.step stage.number
      let scattered ← step.distribute rules.digits engine.work.memory part
      following step scattered) post := by
  obtain ⟨number, step, phase, left⟩ := stage
  obtain rfl : phase = .scattering := scattering
  obtain ⟨shaped, distinct, valid, -, achieved⟩ := sound.partitioning _
    (List.mem_append_right _ List.mem_cons_self)
  have scattered : step.Scattered rules engine.work.memory left := achieved
  have spans : engine.work.memory.Spans step.window := sound.ledger.spans_of_mem sound.spans
    (mem_pending_stage (List.mem_append_right _ List.mem_cons_self))
    shaped.window_pos
  refine (Ensures.of_eq_ok sound.registered.lookup rfl).bind ?_
  rintro _ rfl
  refine (scattered.distribute_ensures shaped excuses spans distinct member
    (valid part member)).bind ?_
  rintro ⟨_, memory⟩ ⟨⟨table, rfl⟩, change, kept, scattered⟩
  have shaped := shaped.turn (step.left - 1) table
  have number_left : step.left - 1 = (left.erase part).length := scattered.number
  by_cases last : left.erase part = []
  · have none : step.left - 1 = 0 := by rw [number_left, last, List.length_nil]
    rw [last] at scattered
    have own : Stage.tasks ⟨number, step, .scattering, left⟩ = [.distribute number part] := by
      have fewer : (left.erase part).length = left.length - 1 := List.length_erase_of_mem member
      have positive : 0 < left.length := List.length_pos_of_mem member
      have single : left.length = 1 := by
        rw [last, List.length_nil] at fewer
        omega
      obtain ⟨only, rfl⟩ := List.length_eq_one_iff.mp single
      rw [List.mem_singleton.mp member]
      rfl
    obtain ⟨buckets, -⟩ := scattered.buckets_exact shaped (change.spans spans)
    refine ends _ memory _ _ none buckets shaped.within ?_
      (sound.complete change kept scattered taken own)
    intro bucket listed
    have inside := (Bucket.bounds_of_mem listed).2.2
    rw [shaped.length_buckets (change.spans spans), Nat.zero_add] at inside
    exact inside
  · have some : step.left - 1 ≠ 0 := by
      rw [number_left]
      exact List.length_pos_iff.mpr last |>.ne'
    exact goesOn _ memory _ some (sound.goOn change kept member last scattered taken)

/-- The task that scatters a chunk is executed. The last one of its partition hands the
buckets on. -/
theorem performDistribute_ensures (excuses : Excuses rules data.size excused)
    (settled : Job → Nat)
    (sound : Sound rules data [] queue engine (budget + 1) jobs (before ++ stage :: after) counts)
    (scattering : stage.phase = .scattering) {part : Nat} (member : part ∈ stage.left)
    (taken : queue.Perm (.distribute stage.number part :: rest)) :
    Ensures excused (performDistribute rules settled stage.number part engine) fun next =>
      ∃ jobs stages counts,
        Sound rules data [] (rest ++ next.2) next.1 budget jobs stages counts := by
  refine sound.distribute_bind excuses scattering member taken ?_ ?_
  · intro scattered memory stages some gone
    change Ensures excused (if scattered.left = 0 then _ else _) _
    rw [if_neg some]
    exact ⟨jobs, stages, counts, gone⟩
  · intro scattered memory stages buckets none listed within inside owed
    change Ensures excused (if scattered.left = 0 then _ else _) _
    rw [if_pos none]
    refine (Ensures.of_eq_ok listed rfl).bind ?_
    rintro _ rfl
    exact dispatchBuckets_ensures excuses settled within _ inside owed

/-- Executing any task that waits keeps the ledger of the engine, and brings about less
than the engine was allowed to. -/
theorem perform_ensures (excuses : Excuses rules data.size excused) (news : News)
    (sound : Sound rules data [] queue engine (budget + 1) jobs stages counts)
    (taken : queue.Perm (task :: rest)) :
    Ensures excused (perform rules news task engine) fun next => ∃ jobs stages counts,
      Sound rules data [] (rest ++ next.2) next.1 budget jobs stages counts := by
  have member : task ∈ queue := taken.mem_iff.mpr List.mem_cons_self
  cases task with
  | small job =>
    have waiting : job ∈ jobs := sound.job_of_mem member
    have front := sound.reorder (List.perm_cons_erase waiting)
    exact performSmall_ensures excuses news.idle front taken
  | count number part =>
    obtain ⟨before, ⟨own, step, phase, left⟩, after, rfl, mine, listed, same⟩ :=
      sound.stage_of_mem member (by simp)
    cases phase with
    | counting =>
      cases same
      exact performCount_ensures excuses sound rfl listed taken
    | scattering => cases same
  | distribute number part =>
    obtain ⟨before, ⟨own, step, phase, left⟩, after, rfl, mine, listed, same⟩ :=
      sound.stage_of_mem member (by simp)
    cases phase with
    | counting => cases same
    | scattering =>
      cases same
      exact performDistribute_ensures excuses news.settled sound rfl listed taken

end RadixSort.Engine
