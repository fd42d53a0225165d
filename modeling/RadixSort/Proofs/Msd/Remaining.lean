import RadixSort.Proofs.Msd.InFlight

/-!
# The number of unfinished elements is exact

On request a sort keeps the number of elements that are not in their final place. The
number is a machine word whose subtraction wraps, and every range that is finished is
subtracted from it at once, whether it was a single element or was finished by comparison.

Between two tasks the number is the length of all ranges in flight together. These ranges
and the finished ones share out the positions of the array, so no position has been
subtracted twice, and no subtraction has wrapped. A range that is handed over to be
dispatched is still unfinished, so it is no longer than the number at that moment, which
the threshold for long ranges relies on.
-/
namespace RadixSort

variable {α : Type} {radix : Nat}

/-- What is left of a length after some ranges have been subtracted, the latest of them
first, in the arithmetic of words. -/
def restAfter (total : Nat) : List Window → UInt64
  | [] => total.toUInt64
  | window :: earlier => restAfter total earlier - window.length.toUInt64

/-- Ranges that are together no longer than a length are subtracted from it without
wrapping.

Induct over the ranges. Those subtracted earlier leave room for the latest. -/
theorem toNat_restAfter {total : Nat} (fits : total < Word.bound) {finished : List Window}
    (within : (finished.map Window.length).sum ≤ total) :
    (restAfter total finished).toNat = total - (finished.map Window.length).sum := by
  rw [Word.bound, UInt64.size] at fits
  induction finished with
  | nil => exact UInt64.toNat_ofNat_of_lt' fits
  | cons window earlier ih =>
    rw [List.map_cons, List.sum_cons] at within
    have before := ih (by omega)
    have length : window.length.toUInt64.toNat = window.length :=
      UInt64.toNat_ofNat_of_lt' (by rw [UInt64.size]; omega)
    have room : window.length.toUInt64 ≤ restAfter total earlier := by
      rw [UInt64.le_iff_toNat_le, length, before]
      omega
    rw [restAfter, UInt64.toNat_sub_of_le _ _ room, length, before, List.map_cons, List.sum_cons]
    omega

/-- The latest of some ranges is no longer than what the earlier ones have left. -/
theorem length_le_restAfter {total : Nat} (fits : total < Word.bound) {window : Window}
    {earlier : List Window}
    (within : ((window :: earlier).map Window.length).sum ≤ total) :
    window.length ≤ (restAfter total earlier).toNat := by
  rw [List.map_cons, List.sum_cons] at within
  rw [toNat_restAfter fits (by omega)]
  omega

namespace Engine

/-- The ranges that the buckets of a partition are handed over as, in order, each with the
engine that it is handed to. A bucket of one element is not handed over, and nothing is
after a fault. -/
def bucketHandovers (rules : Rules α radix) (settled : Job → Nat) (window : Window)
    (depth : Nat) : List Bucket → Engine α radix → List (Engine α radix × Job)
  | [], _ => []
  | bucket :: rest, engine =>
    match window.flip bucket.start bucket.length with
    | .error _ => []
    | .ok part =>
      if bucket.length = 1 then
        let work := { engine.work with memory := engine.work.memory.copyBack part }
        bucketHandovers rules settled window depth rest
          { engine with work := work.settle rules.settings part.settled }
      else
        (engine, ⟨part, depth + 1⟩) ::
          match dispatch rules settled engine ⟨part, depth + 1⟩ with
          | .error _ => []
          | .ok (engine, _) => bucketHandovers rules settled window depth rest engine

/-- The ranges that a task hands over. Only a task that scatters the last chunk of a
partition hands any over. -/
def handovers (rules : Rules α radix) (settled : Job → Nat) (task : EngineTask)
    (engine : Engine α radix) : Except Fault (List (Engine α radix × Job)) :=
  match task with
  | .small _ => return []
  | .count _ _ => return []
  | .distribute number part => do
    let step ← engine.step number
    let (scattered, memory) ← step.distribute rules.digits engine.work.memory part
    if scattered.left = 0 then
      let buckets ← scattered.buckets
      return bucketHandovers rules settled step.window step.depth buckets
        (({ engine with work := { engine.work with memory } } : Engine α radix).removeStep number)
    else
      return []

/-- The tasks that a range handed over becomes. -/
def handoverTasks (rules : Rules α radix) (settled : Job → Nat)
    (handover : Engine α radix × Job) : List EngineTask :=
  match dispatch rules settled handover.1 handover.2 with
  | .ok (_, tasks) => tasks
  | .error _ => []

/-- The tasks that come of buckets are those of the ranges handed over, so no range is
dispatched that is not handed over. -/
theorem dispatchBuckets_tasks {rules : Rules α radix} {settled : Job → Nat} {window : Window}
    {depth : Nat} {buckets : List Bucket} {engine last : Engine α radix} {tasks : List EngineTask}
    (ran : dispatchBuckets rules settled window depth buckets engine = .ok (last, tasks)) :
    tasks = (bucketHandovers rules settled window depth buckets engine).flatMap
      (handoverTasks rules settled) := by
  induction buckets generalizing engine tasks with
  | nil =>
    cases ran
    rfl
  | cons bucket rest ih =>
    rw [dispatchBuckets, bind_eq_ok] at ran
    obtain ⟨part, narrowed, ran⟩ := ran
    rw [bucketHandovers, narrowed]
    by_cases single : bucket.length = 1
    · rw [if_pos single] at ran
      simp only [if_pos single]
      exact ih ran
    · rw [if_neg single, bind_eq_ok] at ran
      obtain ⟨⟨next, own⟩, dispatched, ran⟩ := ran
      obtain ⟨⟨_, later⟩, went, ran⟩ := bind_eq_ok.mp ran
      cases ran
      simp only [if_neg single, dispatched, List.flatMap_cons, handoverTasks]
      rw [ih went]

/-- The tasks that a scattering task makes are those of the ranges it hands over. -/
theorem performDistribute_tasks {rules : Rules α radix} {settled : Job → Nat} {number part : Nat}
    {engine last : Engine α radix} {tasks : List EngineTask}
    (ran : performDistribute rules settled number part engine = .ok (last, tasks)) :
    ∃ handed, handovers rules settled (.distribute number part) engine = .ok handed ∧
      tasks = handed.flatMap (handoverTasks rules settled) := by
  obtain ⟨step, found, ran⟩ := bind_eq_ok.mp ran
  obtain ⟨⟨scattered, memory⟩, distributed, ran⟩ := bind_eq_ok.mp ran
  by_cases none : scattered.left = 0
  · simp only [if_pos none] at ran
    obtain ⟨buckets, listed, ran⟩ := bind_eq_ok.mp ran
    refine ⟨_, ?_, dispatchBuckets_tasks ran⟩
    simp only [handovers, found, distributed, listed, bind, Except.bind, if_pos none]
    rfl
  · simp only [if_neg none] at ran
    cases ran
    refine ⟨[], ?_, rfl⟩
    simp only [handovers, found, distributed, bind, Except.bind, if_neg none]
    rfl

variable {rules : Rules α radix} {excused : Fault → Prop} {data : Array α} {owed jobs : List Job}
  {queue : List EngineTask} {engine : Engine α radix} {budget : Nat} {stages : List (Stage radix)}
  {counts : Recursion.Counts}

/-- A range that is handed over is no longer than the number of unfinished elements. -/
def Unfinished (handover : Engine α radix × Job) : Prop :=
  handover.2.window.length ≤ handover.1.work.rest.toNat

/-- Buckets are unfinished when they are handed over.

Induct over the buckets. Those that have not been handled are owed, and what is owed is
part of the number. -/
theorem bucketHandovers_unfinished (excuses : Excuses rules data.size excused)
    (tracked : rules.settings.trackRemaining = true) (fits : data.size < Word.bound)
    (settled : Job → Nat) {window : Window} {depth : Nat} (buckets : List Bucket)
    (sound : Sound rules data (bucketJobs window depth buckets) queue engine budget jobs stages
      counts) :
    ∀ handover ∈ bucketHandovers rules settled window depth buckets engine,
      Unfinished handover := by
  induction buckets generalizing queue engine jobs stages counts with
  | nil => simp [bucketHandovers]
  | cons bucket buckets ih =>
    have some : 0 < bucket.length := (sound.owing _ List.mem_cons_self).1
    rw [bucketHandovers]
    cases narrowed : window.flip bucket.start bucket.length with
    | error fault => simp
    | ok part =>
      obtain ⟨-, -, rfl⟩ := Window.flip_eq_ok_iff.mp narrowed
      by_cases single : bucket.length = 1
      · simp only [if_pos single]
        exact ih (sound.finishSingle single)
      · simp only [if_neg single, List.forall_mem_cons]
        refine ⟨sound.length_le_rest tracked fits List.mem_cons_self, ?_⟩
        have many : 2 ≤ bucket.length := by omega
        have dispatched := dispatch_ensures excuses settled sound many
        cases ran : dispatch rules settled engine ⟨window.exchanged.part bucket, depth + 1⟩ with
        | error fault =>
          have none : dispatch rules settled engine ⟨⟨window.offset + bucket.start, bucket.length,
            !window.flipped⟩, depth + 1⟩ = .error fault := ran
          simp [none]
        | ok next =>
          obtain ⟨_, _, _, sound⟩ := dispatched.of_ok ran
          have gone : dispatch rules settled engine ⟨⟨window.offset + bucket.start, bucket.length,
            !window.flipped⟩, depth + 1⟩ = .ok next := ran
          rw [gone]
          exact ih sound

/-- Whatever a task that waits hands over is unfinished at that moment. -/
theorem handovers_unfinished (excuses : Excuses rules data.size excused)
    (tracked : rules.settings.trackRemaining = true) (fits : data.size < Word.bound)
    (settled : Job → Nat)
    (sound : Sound rules data [] queue engine budget jobs stages counts) {task : EngineTask}
    (member : task ∈ queue) :
    Ensures excused (handovers rules settled task engine) fun handed =>
      ∀ handover ∈ handed, Unfinished handover := by
  have taken := List.perm_cons_erase member
  cases budget with
  | zero =>
    rw [sound.exhausted] at member
    cases member
  | succ budget =>
    cases task with
    | small job => simp [handovers]
    | count number part => simp [handovers]
    | distribute number part =>
      obtain ⟨before, ⟨own, step, phase, left⟩, after, rfl, mine, listed, same⟩ :=
        sound.stage_of_mem member (by simp)
      cases phase with
      | counting => cases same
      | scattering =>
        cases same
        refine sound.distribute_bind excuses rfl listed taken ?_ ?_
        · intro scattered memory stages some gone
          change Ensures excused (if scattered.left = 0 then _ else _) _
          rw [if_neg some]
          simp
        · intro scattered memory stages buckets none ready within inside owed
          change Ensures excused (if scattered.left = 0 then _ else _) _
          rw [if_pos none]
          refine (Ensures.of_eq_ok ready rfl).bind ?_
          rintro _ rfl
          exact bucketHandovers_unfinished excuses tracked fits settled buckets owed

end Engine

namespace Msd

open Engine

/-- The number of unfinished elements agrees with what is in flight and with what has been
finished. -/
structure Balanced (rules : Rules α radix) (data : Array α)
    (served : Pool.Served EngineTask (Engine α radix)) : Prop where
  total : served.state.work.rest.toNat = ((inFlight served).map Window.length).sum
  /-- Every position is in flight or has been finished, and that only once. -/
  once : (slotsOf (inFlight served) ++ slotsOf served.state.work.finished).Perm
    (List.range data.size)
  /-- The number has come about by subtracting the finished ranges one after the other. -/
  subtracted : served.state.work.rest = restAfter data.size served.state.work.finished
  /-- No subtraction has wrapped. -/
  room : ∀ window earlier, window :: earlier <:+ served.state.work.finished →
    window.length ≤ (restAfter data.size earlier).toNat
  /-- Whatever a task that waits hands over next is no longer than the number. -/
  unfinished : ∀ task ∈ served.pool.queue, ∀ settled handed,
    handovers rules settled task served.state = .ok handed →
      ∀ handover ∈ handed, Unfinished handover
  /-- The tasks that a scattering task makes when it is executed are those of the ranges it
  hands over. -/
  handed : ∀ number part news next tasks,
    perform rules news (.distribute number part) served.state = .ok (next, tasks) →
      ∃ handed, handovers rules news.settled (.distribute number part) served.state = .ok handed ∧
        tasks = handed.flatMap (handoverTasks rules news.settled)
  drained : served.pool.pending = 0 → served.state.work.rest = 0

/-- Between two tasks, the number of unfinished elements is exact. -/
theorem balanced {rules : Rules α radix} {excused : Fault → Prop} {data : Array α} {budget : Nat}
    {served : Pool.Served EngineTask (Engine α radix)}
    (excuses : Excuses rules data.size excused) (tracked : rules.settings.trackRemaining = true)
    (fits : data.size < Word.bound) (running : served.fault = none)
    (serving : Serving rules excused data budget served) : Balanced rules data served := by
  unfold Serving at serving
  rw [running] at serving
  obtain ⟨pending, jobs, stages, counts, sound⟩ := serving
  have rest := sound.rest_eq tracked fits
  have tiled := sound.ledger.total_length
  have whole : (Window.whole data.size).length = data.size := rfl
  have within : (served.state.work.finished.map Window.length).sum ≤ data.size := by omega
  constructor
  case total =>
    rw [rest]
    exact ((inFlight_perm sound).map Window.length).sum_eq.symm
  case once =>
    rw [List.range_eq_range']
    exact slots_perm sound
  case subtracted =>
    apply UInt64.toNat_inj.mp
    rw [toNat_restAfter fits within]
    omega
  case room =>
    intro window earlier history
    obtain ⟨later, split⟩ := history
    apply length_le_restAfter fits
    rw [← split, List.map_append, List.sum_append] at within
    omega
  case unfinished =>
    intro task member settled handed ran
    exact (handovers_unfinished excuses tracked fits settled sound member).of_ok ran
  case handed =>
    exact fun number part news next tasks ran => performDistribute_tasks ran
  case drained =>
    intro none
    have empty := List.length_eq_zero_iff.mp (pending.symm.trans none)
    rw [empty] at sound
    exact sound.rest_eq_zero tracked

/-- In every state between two tasks of a sort that tracks it, whichever tasks have been
executed, the number of unfinished elements is exact: it is the length of what is in flight,
no subtraction from it has wrapped, whatever is handed over is no longer, and nothing is
left when the pool has drained. So no sort ends because elements are left. If the count
table fits, there is such a state after any number of tasks. -/
theorem serveTasks_balanced {width : DigitWidth} {settings : Settings} (valid : settings.Valid)
    (tracked : settings.trackRemaining = true) (digit : α → Nat → Fin width.radix) (maxDepth : Nat)
    {fallback : List α → Except Fault (List α)}
    (finishes : ∀ elements, ∃ sorted, fallback elements = .ok sorted ∧
      sorted.length = elements.length)
    {data : Array α} (many : 2 ≤ data.size) (fits : data.size < Word.bound)
    (schedule : Schedule) :
    (∀ count served,
      serveTasks ⟨settings, .ofTotal digit, fallback, maxDepth⟩ schedule count data =
        .ok served → served.fault = none →
        Balanced ⟨settings, .ofTotal digit, fallback, maxDepth⟩ data served) ∧
    (Window.whole data.size).length ≤
      (Engine.fresh data : Engine α width.radix).work.rest.toNat ∧
    (∀ resources, sort ⟨settings, .ofTotal digit, fallback, maxDepth⟩ resources schedule data ≠
      .abandoned .elementsLeft) ∧
    (data.size * width.radix < Word.bound → ∀ count, ∃ served,
      serveTasks ⟨settings, .ofTotal digit, fallback, maxDepth⟩ schedule count data =
        .ok served ∧ served.fault = none) := by
  let rules : Rules α width.radix := ⟨settings, .ofTotal digit, fallback, maxDepth⟩
  have excuses : Excuses rules data.size (· = .arithmeticOverflow) :=
    .of_total (fun _ _ => rfl) finishes (.inr rfl)
  refine ⟨?_, ?_, ?_, ?_⟩
  · intro count served ran running
    have serving := (serveTasks_ensures excuses schedule count valid.1 many).of_ok ran
    exact balanced excuses tracked fits running serving
  · exact Nat.le_of_eq (UInt64.toNat_ofNat_of_lt' fits).symm
  · intro resources abandoned
    cases excused_of_abandoned excuses valid abandoned
  · intro sized count
    have strict : Excuses rules data.size fun _ => False :=
      .of_total (fun _ _ => rfl) finishes (.inl (.of_table width.two_le_radix sized))
    exact exists_served strict schedule count valid.1 many

/-- Four bytes by two workers, with a fallback that reverses what it is given. -/
theorem serveTasks_balanced_reversing :
    let rules : Rules (Fin 256) DigitWidth.oneByte.radix :=
      ⟨{ threads := 2, subsortThreshold := 2, minParallelChunk := 1, trackRemaining := true },
        .ofTotal fun x _ => x, fun elements => .ok elements.reverse, 1⟩
    (∀ count served, serveTasks rules .inOrder count #[5, 3, 250, 3] = .ok served →
        served.fault = none → Balanced rules #[5, 3, 250, 3] served) ∧
      (Window.whole 4).length ≤
        (Engine.fresh #[5, 3, 250, 3] : Engine (Fin 256) 256).work.rest.toNat ∧
      (∀ resources, sort rules resources .inOrder #[5, 3, 250, 3] ≠ .abandoned .elementsLeft) ∧
      ((#[5, 3, 250, 3] : Array (Fin 256)).size * 256 < Word.bound → ∀ count, ∃ served,
        serveTasks rules .inOrder count #[5, 3, 250, 3] = .ok served ∧ served.fault = none) := by
  have valid : Settings.Valid
      { threads := 2, subsortThreshold := 2, minParallelChunk := 1, trackRemaining := true } :=
    ⟨by decide, by decide, by decide⟩
  let digit : Fin 256 → Nat → Fin DigitWidth.oneByte.radix := fun x _ => x
  exact serveTasks_balanced valid rfl digit 1
    (fun elements => ⟨elements.reverse, rfl, List.length_reverse⟩)
    (by decide : 2 ≤ (#[5, 3, 250, 3] : Array (Fin 256)).size) (by decide) .inOrder

end Msd

end RadixSort
