import RadixSort.Msd
import RadixSort.Proofs.Scheduler.Serial
import RadixSort.Proofs.Engine.Perform

/-!
# A sort from the most significant digit runs to its end

The engine starts with the whole array owed and an allowance of tasks that the array
cannot exceed. Whichever waiting task is executed next, the ledger is kept, so the queue
is empty when the allowance is spent, and an empty queue leaves nothing in the ledger.
What the caller's array holds then is what the engine makes of the input.
-/
namespace RadixSort

open Recursion

variable {α : Type} {radix : Nat} {rules : Rules α radix} {excused : Fault → Prop}
  {data : Array α}

/-- A digit has at least two values. -/
theorem DigitWidth.two_le_radix (width : DigitWidth) : 2 ≤ width.radix := by
  cases width <;> decide

namespace Engine

variable {jobs : List Job} {queue : List EngineTask} {engine : Engine α radix} {budget : Nat}
  {stages : List (Stage radix)} {counts : Counts}

/-- An engine that has not begun owes the whole of its array. -/
theorem sound_fresh (rules : Rules α radix) (many : 2 ≤ data.size) :
    Sound rules data [⟨Window.whole data.size, 0⟩] [] (fresh data : Engine α radix)
      (Msd.allowance data.size rules.maxDepth) [] [] 0 where
  registered := ⟨rfl, List.nodup_nil, by simp⟩
  queued := List.Perm.refl _
  ledger := by
    have opened := Ledger.opened rules.Gave
      (Job.overall rules data.size ⟨Window.whole data.size, 0⟩)
      (fresh data : Engine α radix).work.memory
    have held : (fresh data : Engine α radix).work.memory.held (Window.whole data.size) =
        data.toList := by
      rw [Memory.held_eq_slice]
      exact slice_all data
    have aims : Ledger.aim (Job.overall rules data.size ⟨Window.whole data.size, 0⟩)
        (fresh data : Engine α radix).work.memory = aim rules data := by
      funext elements counts
      rw [aim, ← held]
      rfl
    rw [aims] at opened
    exact opened
  size side := by cases side <;> rfl
  owing job member := by
    rw [List.mem_singleton.mp member]
    exact ⟨Nat.lt_of_lt_of_le Nat.two_pos many, Nat.zero_le _⟩
  waiting := by simp
  uniform range member := by
    rw [List.mem_singleton.mp member]
    exact fun _ _ _ _ _ none => absurd none (Nat.not_lt_zero _)
  partitioning := by simp
  tallied := ⟨rfl, rfl, rfl⟩
  accounted := Work.accounted_fresh rules.settings data
  affordable := by simp [weight, jobWeight, Msd.allowance, Window.whole]

/-- Where no task waits, there are no jobs and no partitions. -/
theorem Sound.empty (sound : Sound rules data [] queue engine budget jobs stages counts)
    (idle : queue = []) : jobs = [] ∧ stages = [] := by
  have queued := sound.queued
  rw [idle] at queued
  obtain ⟨small, large⟩ := List.append_eq_nil_iff.mp queued.symm.eq_nil
  refine ⟨List.map_eq_nil_iff.mp small, List.eq_nil_iff_forall_not_mem.mpr ?_⟩
  intro stage member
  have none := List.flatMap_eq_nil_iff.mp large stage member
  exact (sound.partitioning stage member).unfinished (List.map_eq_nil_iff.mp none)

/-- Where no task waits, no allowance is needed. -/
theorem Sound.unspent (sound : Sound rules data [] queue engine budget jobs stages counts)
    (idle : queue = []) (allowance : Nat) :
    Sound rules data [] queue engine allowance jobs stages counts := by
  obtain ⟨rfl, rfl⟩ := sound.empty idle
  exact { sound with affordable := Nat.zero_le _ }

/-- No more tasks wait than may be executed. -/
theorem Sound.queue_le (sound : Sound rules data [] queue engine budget jobs stages counts) :
    queue.length ≤ budget := by
  have small : jobs.length ≤ (jobs.map (jobWeight rules.maxDepth)).sum := by
    rw [← List.length_map (jobWeight rules.maxDepth)]
    refine List.length_le_sum_of_one_le _ fun weight member => ?_
    obtain ⟨job, listed, rfl⟩ := List.mem_map.mp member
    obtain ⟨many, shallow⟩ := sound.waiting job listed
    exact Nat.mul_pos (by omega) (by omega)
  have large : (stages.flatMap Stage.tasks).length ≤
      (stages.map (Stage.weight rules.maxDepth)).sum := by
    rw [List.length_flatMap]
    refine List.sum_le_sum fun stage _ => ?_
    rw [Stage.tasks, List.length_map, Stage.weight, Nat.add_assoc]
    exact Nat.le_add_right _ _
  have afford := sound.affordable
  rw [List.nil_append, weight] at afford
  rw [sound.queued.length_eq, List.length_append, List.length_map]
  omega

/-- Where no more task may be executed, none waits. -/
theorem Sound.exhausted (sound : Sound rules data [] queue engine 0 jobs stages counts) :
    queue = [] :=
  List.length_eq_zero_iff.mp (Nat.le_zero.mp sound.queue_le)

/-- Where a task waits, one more may be executed. -/
theorem Sound.exists_succ (sound : Sound rules data [] queue engine budget jobs stages counts)
    {task : EngineTask} (waits : task ∈ queue) : ∃ left, budget = left + 1 := by
  cases budget with
  | zero =>
    rw [sound.exhausted] at waits
    cases waits
  | succ left => exact ⟨left, rfl⟩

/-- An engine in which no task waits has sorted its array. -/
theorem Sound.sorted (sound : Sound rules data [] [] engine budget jobs stages counts) :
    EngineSorts rules data.size data.toList 0 ⟨engine.work.memory.primary.toList, counts⟩ := by
  obtain ⟨rfl, rfl⟩ := sound.empty rfl
  have reached := sound.ledger.settles engine.work.memory.primary 0 (fun _ _ => rfl) rfl
  have size : (Window.whole data.size).length = engine.work.memory.primary.size :=
    (sound.size .primary).symm
  rw [add_zero, size] at reached
  have whole : slice engine.work.memory.primary (Window.whole data.size).offset
      engine.work.memory.primary.size = engine.work.memory.primary.toList :=
    slice_all engine.work.memory.primary
  rw [whole] at reached
  exact reached

/-- An engine in which no task waits leaves no element unfinished. -/
theorem Sound.rest_eq_zero (sound : Sound rules data [] [] engine budget jobs stages counts)
    (tracked : rules.settings.trackRemaining = true) : engine.work.rest = 0 := by
  obtain ⟨rfl, rfl⟩ := sound.empty rfl
  have account := sound.accounted tracked
  have tiled : 0 + (engine.work.finished.map Window.length).sum = data.size :=
    sound.ledger.total_length
  rw [← tiled, Nat.zero_add] at account
  apply UInt64.toNat_inj.mp
  have word := congrArg UInt64.toNat account
  have less := engine.work.rest.toNat_lt
  simp only [UInt64.toNat_add, Nat.toUInt64, UInt64.toNat_ofNat'] at word
  rw [UInt64.toNat_zero]
  omega

end Engine

namespace Msd

open Engine

/-- After some tasks have been executed: either one of them ended in a fault that is
excused, or the engine keeps its ledger, the pool counts the tasks that wait, and no more
than `budget` tasks will still be executed. -/
def Serving (rules : Rules α radix) (excused : Fault → Prop) (data : Array α) (budget : Nat)
    (served : Pool.Served EngineTask (Engine α radix)) : Prop :=
  match served.fault with
  | some fault => excused fault
  | none => served.pool.pending = served.pool.queue.length ∧ ∃ jobs stages counts,
      Sound rules data [] served.pool.queue served.state budget jobs stages counts

/-- Executing tasks, whichever of those that wait are chosen, uses up the allowance.

Induct over the number of tasks to be executed. Where it outlasts the queue, nothing was
left to use the allowance. -/
theorem serving_serve (excuses : Excuses rules data.size excused) (schedule : Schedule)
    {jobs : List Job} {engine : Engine α radix} {stages : List (Stage radix)} {counts : Counts}
    (count turn budget : Nat) {pool : Pool EngineTask}
    (pending : pool.pending = pool.queue.length)
    (sound : Sound rules data [] pool.queue engine budget jobs stages counts) :
    Serving rules excused data (budget - count)
      (Pool.serve (execute rules schedule) schedule.pick count turn pool engine) := by
  induction count generalizing turn budget pool engine jobs stages counts with
  | zero => exact ⟨pending, jobs, stages, counts, sound⟩
  | succ count ih =>
    rw [Pool.serve]
    split
    · rename_i none
      have empty := Pool.queue_of_take none
      exact ⟨pending, jobs, stages, counts, sound.unspent empty _⟩
    · rename_i task taken took
      obtain ⟨rest, same⟩ := Pool.perm_of_take took
      obtain ⟨left, rfl⟩ := sound.exists_succ (rest.mem_iff.mpr List.mem_cons_self)
      have performed := perform_ensures excuses (schedule.news turn) sound rest
      unfold execute carryOut
      cases ran : engine.perform rules (schedule.news turn) task with
      | error fault =>
        rw [ran] at performed
        exact performed
      | ok next =>
        obtain ⟨engine, spawned⟩ := next
        obtain ⟨jobs, stages, counts, sound⟩ := performed.of_ok ran
        rw [Nat.add_sub_add_right]
        obtain ⟨queue, counted⟩ := Pool.absorb_exact taken engine spawned
        refine ih (turn + 1) left (counted ?_) (queue.symm ▸ sound)
        rw [same, pending, rest.length_eq, List.length_cons]

/-- Some of the tasks of a sort have been executed. -/
theorem serveTasks_ensures (excuses : Excuses rules data.size excused) (schedule : Schedule)
    (count : Nat) (workers : 0 < rules.settings.threads) (many : 2 ≤ data.size) :
    Ensures excused (serveTasks rules schedule count data)
      (Serving rules excused data (allowance data.size rules.maxDepth - count)) := by
  have opened : (Pool.opened rules.settings.threads : Except Fault (Pool EngineTask)) =
      .ok { workers := rules.settings.threads } := if_neg (Nat.ne_of_gt workers)
  refine (Ensures.of_eq_ok opened rfl).bind ?_
  rintro pool rfl
  have whole : 2 ≤ (Window.whole data.size).length := many
  refine (dispatch_ensures excuses (fun _ => 0) (sound_fresh rules many) whole).bind ?_
  rintro ⟨engine, tasks⟩ ⟨jobs, stages, counts, sound⟩
  have queue := Pool.queue_enqueueAll { workers := rules.settings.threads } tasks
  have pending := Pool.pending_enqueueAll { workers := rules.settings.threads } tasks
  refine serving_serve excuses schedule count 0 _ ?_ (queue.symm ▸ sound)
  rw [pending, queue]
  exact Nat.zero_add _

/-- A sort whose workers have been started gives what the engine makes of the input. -/
theorem sortStarted_ensures (excuses : Excuses rules data.size excused) (schedule : Schedule)
    (workers : 0 < rules.settings.threads) (many : 2 ≤ data.size) :
    Ensures excused (sortStarted rules schedule data) fun result => ∃ counts,
      EngineSorts rules data.size data.toList 0 ⟨result.1.toList, counts⟩ ∧
        Tallied result.2 0 counts := by
  refine (serveTasks_ensures excuses schedule _ workers many).bind ?_
  rintro ⟨pool, engine, fault⟩ serving
  cases fault with
  | some fault => exact serving
  | none =>
    obtain ⟨pending, jobs, stages, counts, sound⟩ := serving
    rw [Nat.sub_self] at sound
    have empty := sound.exhausted
    rw [empty] at sound pending
    have drained : ¬pool.pending ≠ 0 := fun waiting => waiting pending
    have checked : ¬(rules.settings.trackRemaining ∧ engine.work.rest ≠ 0) :=
      fun ⟨tracked, left⟩ => left (sound.rest_eq_zero tracked)
    change Ensures excused (if _ then _ else if _ then _ else _) _
    rw [if_neg drained, if_neg checked]
    obtain ⟨rfl, rfl⟩ := sound.empty rfl
    exact ⟨counts, sound.sorted, sound.tallied⟩

/-- Where no fault is excused, any number of tasks can be executed. -/
theorem exists_served (excuses : Excuses rules data.size fun _ => False) (schedule : Schedule)
    (count : Nat) (workers : 0 < rules.settings.threads) (many : 2 ≤ data.size) :
    ∃ served, serveTasks rules schedule count data = .ok served ∧ served.fault = none := by
  obtain ⟨served, ran, serving⟩ :=
    (serveTasks_ensures excuses schedule count workers many).exists_ok fun _ => id
  refine ⟨served, ran, ?_⟩
  unfold Serving at serving
  split at serving
  · exact serving.elim
  · assumption

/-- Valid settings are not refused. -/
theorem refusal_of_valid {settings : Settings} (valid : settings.Valid) :
    settings.refusal? = none := by
  obtain ⟨threads, subsort, chunk⟩ := valid
  have none : settings.zeroParameter? = none := by
    rw [Settings.zeroParameter?, if_neg threads.ne', if_neg subsort.ne', if_neg chunk.ne']
  rw [Settings.refusal?, none]
  rfl

/-- A call that gets as far as its elements: its settings are valid, there is something to sort,
and the scratch array is granted. -/
structure Proceeds (settings : Settings) (resources : Resources) (length : Nat) : Prop where
  valid : settings.Valid
  many : 2 ≤ length
  granted : resources.grants .shadow = true

variable {resources : Resources} {schedule : Schedule}

/-- A call that gets as far as its elements, and whose workers can be started, does not end
early. -/
theorem Proceeds.early (proceeds : Proceeds rules.settings resources data.size)
    (started : resources.spawnFailure? = none) : early? rules.settings resources data = none := by
  obtain ⟨valid, many, granted⟩ := proceeds
  have several : ¬data.size ≤ 1 := Nat.not_le.mpr many
  have given : ¬(!resources.grants .shadow) = true := by
    rw [granted]
    exact Bool.false_ne_true
  rw [early?, refusal_of_valid valid, started]
  exact (if_neg several).trans (if_neg given)

/-- A call that gets as far as its elements ends as its tasks do. -/
theorem sort_of_proceeds (proceeds : Proceeds rules.settings resources data.size)
    (started : resources.spawnFailure? = none) :
    sort rules resources schedule data = .ofStarted (sortStarted rules schedule data) := by
  rw [sort, proceeds.early started]

/-- A call that does not end early has something to sort. -/
theorem many_of_not_early {settings : Settings}
    (goesOn : early? settings resources data = none) : 2 ≤ data.size := by
  by_contra few
  unfold early? at goesOn
  split at goesOn
  · cases goesOn
  · exact Option.some_ne_none _ ((if_pos (by omega)).symm.trans goesOn)

/-- A call that ends early is not abandoned. -/
theorem early_ne_abandoned {settings : Settings} {outcome : Outcome α Stats}
    (early : early? settings resources data = some outcome) (fault : Fault) :
    outcome ≠ .abandoned fault := by
  unfold early? at early
  rintro rfl
  split at early
  · cases early
  · split at early
    · cases early
    · split at early
      · cases early
      · obtain ⟨text, -, same⟩ := Option.map_eq_some_iff.mp early
        cases same

/-- A call is abandoned only for a fault that it is excused from. -/
theorem excused_of_abandoned (excuses : Excuses rules data.size excused) {fault : Fault}
    (valid : rules.settings.Valid)
    (abandoned : sort rules resources schedule data = .abandoned fault) : excused fault := by
  unfold sort at abandoned
  split at abandoned
  · rename_i outcome early
    exact absurd abandoned (early_ne_abandoned early fault)
  · rename_i goesOn
    have started := sortStarted_ensures excuses schedule valid.1 (many_of_not_early goesOn)
    cases ran : sortStarted rules schedule data with
    | ok result =>
      rw [ran] at abandoned
      cases abandoned
    | error other =>
      rw [ran] at started abandoned
      cases abandoned
      exact started

/-- A call that is not refused, whose arrays and workers are granted, and whose rules
excuse no fault gives what the engine makes of its input. -/
theorem sort_exact (excuses : Excuses rules data.size fun _ => False)
    (schedule : Schedule) (valid : rules.settings.Valid) (granted : resources.grants .shadow = true)
    (started : resources.spawnFailure? = none) :
    ∃ sorted stats counts, sort rules resources schedule data = .sorted sorted stats ∧
      EngineSorts rules data.size data.toList 0 ⟨sorted.toList, counts⟩ ∧
        Tallied stats 0 counts := by
  by_cases few : data.size ≤ 1
  · refine ⟨data, {}, 0, ?_, .alone few, rfl, rfl, rfl⟩
    rw [sort, early?, refusal_of_valid valid]
    dsimp only
    rw [if_pos few]
  · have proceeds : Proceeds rules.settings resources data.size := ⟨valid, by omega, granted⟩
    obtain ⟨⟨sorted, stats⟩, ran, counts, sorts, tallied⟩ :=
      (sortStarted_ensures excuses schedule valid.1 proceeds.many).exists_ok fun _ => id
    refine ⟨sorted, stats, counts, ?_, sorts, tallied⟩
    rw [sort_of_proceeds proceeds started, ran]
    rfl

end Msd

end RadixSort
