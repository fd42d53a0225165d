import RadixSort.Proofs.Msd.Locality
import RadixSort.Proofs.Msd.Run

/-!
# A sort asks its fallback about no ranges but those it hands over

A job hands a range to the fallback because it is short or because no digit is left, and
the elements of the range have all digits before its depth in common. That is true of the
elements that stand in the range when it is handed over, so two fallbacks that agree on
such elements take a sort to the same end, whatever they make of others.
-/
namespace RadixSort

open Recursion

variable {α : Type} {radix : Nat}

/-- The rules with another fallback in the place of their own. -/
def Rules.finishing (rules : Rules α radix) (other : List α → Except Fault (List α)) :
    Rules α radix :=
  { rules with fallback := other }

/-- Two fallbacks that give the same for the elements of a range finish it alike. -/
theorem Work.finish_finishing {rules : Rules α radix} {other : List α → Except Fault (List α)}
    (work : Work α) {window : Window}
    (agree : rules.fallback (work.memory.held window) = other (work.memory.held window)) :
    work.finish rules window = work.finish (rules.finishing other) window :=
  congrArg (· >>= _) agree

section Agree

variable {rules : Rules α radix} {other : List α → Except Fault (List α)} {total : Nat}
  {excused : Fault → Prop}
  (agree : ∀ elements, rules.Hands elements → rules.fallback elements = other elements)

namespace SmallJob

variable {depth : Nat} {assignment : Assignment α} {job : Job} {found : Work α} {state : State α}

include agree

/-- A bucket is handled alike if its elements have the digits before its depth in common. -/
theorem handle_finishing {window : Window} {level : Nat} (many : 2 ≤ window.length)
    (spans : state.work.memory.Spans window)
    (uniform : Uniform rules.digits.digit level (state.work.memory.held window)) :
    handle rules state window level = handle (rules.finishing other) state window level := by
  have length := spans.length_held
  refine ite_congr rfl (fun ends => ?_) fun _ => rfl
  have hands : rules.Hands (state.work.memory.held window) :=
    ⟨length.symm ▸ many, level, length.symm ▸ ends, uniform⟩
  exact congrArg (· >>= fun work => .ok { state with work })
    (state.work.finish_finishing (agree _ hands))

/-- A step of a job comes to the same end. -/
theorem step_finishing (idle : Nat → Bool) (sound : Sound rules total depth assignment [] state)
    (contents : Contents rules job found state)
    (uniform : Uniform rules.digits.digit job.depth (found.memory.held job.window)) :
    step rules idle state = step (rules.finishing other) idle state := by
  unfold step
  split
  · rfl
  · rename_i top below stacked
    split
    · rfl
    · rename_i bucket remaining unsorted
      obtain ⟨taken, -⟩ := sound.take stacked unsorted
      obtain ⟨-, holds⟩ := contents.take stacked unsorted
      have well := sound.frames top (stacked ▸ List.mem_cons_self)
      obtain ⟨some, bound⟩ := well.buckets bucket (unsorted ▸ List.mem_cons_self)
      have part : Ensures (fun _ => True) (top.window.sub bucket.start bucket.length)
          (· = top.window.part bucket) := Window.sub_ensures (.inr trivial) bound
      cases ran : top.window.sub bucket.start bucket.length with
      | error fault => rfl
      | ok window =>
        obtain rfl := part.of_ok ran
        change (if _ then _ else _) = (if _ then _ else _)
        refine ite_congr rfl (fun _ => rfl) fun several => congrArg (· >>= _) ?_
        obtain ⟨settled, counts, underway⟩ := taken.underway
        have spans := underway.spans_of_mem List.mem_cons_self some
        have many : 2 ≤ (top.window.part bucket).length := by
          change 2 ≤ bucket.length
          omega
        exact handle_finishing agree many spans (holds.uniform uniform)

/-- A job that goes on until it has finished comes to the same end. -/
theorem resume_finishing (excuses : JobExcuses rules total excused) (idle : Nat → Bool)
    (sound : Sound rules total depth assignment [] state)
    (contents : Contents rules job found state)
    (uniform : Uniform rules.digits.digit job.depth (found.memory.held job.window)) :
    resume rules idle state = resume (rules.finishing other) idle state := by
  fun_induction resume rules idle state with
  | case1 state fault stepped =>
    have same := step_finishing agree idle sound contents uniform
    -- The induction has opened one side; `resume_eq` opens the other.
    rw [resume_eq (rules.finishing other), ← same, stepped]
    rfl
  | case2 state last stepped =>
    have same := step_finishing agree idle sound contents uniform
    rw [resume_eq (rules.finishing other), ← same, stepped]
    rfl
  | case3 state next stepped lighter ih =>
    have same := step_finishing agree idle sound contents uniform
    rw [resume_eq (rules.finishing other) idle state, ← same, stepped]
    exact ih ((step_ensures excuses idle sound).of_ok stepped)
      ((step_contents idle sound contents).of_ok stepped).1

/-- A job comes to the same end if the elements of its range have the digits before its depth
in common. -/
theorem run_finishing (excuses : JobExcuses rules total excused) (idle : Nat → Bool)
    (spans : found.memory.Spans job.window) (within : job.window.length ≤ total)
    (many : 2 ≤ job.window.length)
    (uniform : Uniform rules.digits.digit job.depth (found.memory.held job.window)) :
    run rules idle job found = run (rules.finishing other) idle job found := by
  let copied : Work α := { found with memory := found.memory.copyBack job.window }
  have held : copied.memory.held job.window.settled = found.memory.held job.window :=
    Memory.held_copyBack spans
  have length : (copied.memory.held job.window.settled).length = job.window.length := by
    rw [held, spans.length_held]
  refine ite_congr rfl (fun ends => ?_) fun goesOn => ?_
  · have hands : rules.Hands (copied.memory.held job.window.settled) :=
      ⟨length.symm ▸ many, job.depth, length.symm ▸ ends, held.symm ▸ uniform⟩
    exact congrArg (· >>= fun work => .ok (work, [])) (copied.finish_finishing (agree _ hands))
  · change (enter rules { work := copied, stack := [] } _ _ >>= _) =
      (enter rules { work := copied, stack := [] } _ _ >>= _)
    cases ran : enter rules { work := copied, stack := [] } job.window.settled job.depth with
    | error fault => rfl
    | ok entered =>
      have reached : Reached rules idle job found entered := .entered goesOn ran
      have resumed := resume_finishing agree excuses idle (reached.sound excuses spans within)
        (reached.contents excuses spans within) uniform
      exact congrArg (· >>= fun last => .ok (last.work, last.donated)) resumed

end SmallJob

namespace Engine

variable {data : Array α} {jobs : List Job} {queue rest : List EngineTask}
  {engine : Engine α radix} {budget : Nat} {stages : List (Stage radix)} {counts : Counts}
  {task : EngineTask}

include agree in
/-- A task is executed to the same end. Only a sequential job has anything to finish. -/
theorem perform_finishing (excuses : Excuses rules data.size excused) (news : News)
    (sound : Sound rules data [] queue engine budget jobs stages counts) (waits : task ∈ queue) :
    perform rules news task engine = perform (rules.finishing other) news task engine := by
  cases task with
  | small job =>
    have listed : job ∈ jobs := sound.job_of_mem waits
    have many := (sound.waiting job listed).1
    have present : job.obligation rules ∈ pending rules data.size [] jobs stages :=
      List.mem_append_right _ (List.mem_append_left _ (List.mem_map_of_mem listed))
    have some : 0 < job.window.length := by omega
    have spans := sound.ledger.spans_of_mem sound.spans present some
    have uniform := sound.uniform job (List.mem_append_right _ (List.mem_append_left _ listed))
    exact congrArg (· >>= _) (SmallJob.run_finishing agree excuses.job news.idle (by exact spans)
      (sound.within present some) many (by exact uniform))
  | count number part => rfl
  | distribute number part =>
    have same := dispatchBuckets_congr rules (rules.finishing other) rfl rfl news.settled
    simp only [perform, performDistribute, same]
    rfl

end Engine

namespace Msd

open Engine

variable {data : Array α}

include agree

/-- Any number of tasks is executed to the same end. -/
theorem serve_finishing (excuses : Excuses rules data.size excused) (schedule : Schedule)
    {jobs : List Job} {engine : Engine α radix} {stages : List (Stage radix)} {counts : Counts}
    (count turn budget : Nat) {pool : Pool EngineTask}
    (sound : Sound rules data [] pool.queue engine budget jobs stages counts) :
    Pool.serve (execute rules schedule) schedule.pick count turn pool engine =
      Pool.serve (execute (rules.finishing other) schedule) schedule.pick count turn pool
        engine := by
  induction count generalizing turn budget pool engine jobs stages counts with
  | zero => rfl
  | succ count ih =>
    rw [Pool.serve, Pool.serve]
    cases took : pool.take? (schedule.pick turn % pool.queue.length) with
    | none => rfl
    | some taken =>
      obtain ⟨task, left⟩ := taken
      have rest := (Pool.perm_of_take took).1
      have waits : task ∈ pool.queue := rest.mem_iff.mpr List.mem_cons_self
      obtain ⟨budget, rfl⟩ := sound.exists_succ waits
      have same := perform_finishing agree excuses (schedule.news turn) sound waits
      dsimp only [execute, carryOut]
      rw [← same]
      cases ran : perform rules (schedule.news turn) task engine with
      | error fault => rfl
      | ok next =>
        obtain ⟨engine, spawned⟩ := next
        obtain ⟨jobs, stages, counts, sound⟩ :=
          (perform_ensures excuses (schedule.news turn) sound rest).of_ok ran
        have queue := (Pool.absorb_exact left engine spawned).1
        exact ih (turn + 1) budget (queue.symm ▸ sound)

/-- The tasks of a sort are executed to the same end. -/
theorem serveTasks_finishing (excuses : Excuses rules data.size excused) (schedule : Schedule)
    (count : Nat) (many : 2 ≤ data.size) :
    serveTasks rules schedule count data =
      serveTasks (rules.finishing other) schedule count data := by
  have opened : Ensures (fun _ => True) (Pool.opened rules.settings.threads)
      fun pool : Pool EngineTask => pool.queue = [] := by
    unfold Pool.opened
    split
    · trivial
    · rfl
  have whole : 2 ≤ (Window.whole data.size).length := many
  have dispatched := dispatch_ensures excuses (fun _ => 0) (sound_fresh rules many) whole
  suffices same : Coincide (fun _ => True) (serveTasks rules schedule count data)
      (serveTasks (rules.finishing other) schedule count data) from same.1
  refine (Coincide.refl opened).bind fun pool empty => ?_
  refine (Coincide.refl dispatched.lenient).bind ?_
  rintro ⟨engine, tasks⟩ ⟨jobs, stages, counts, sound⟩
  have queue : (pool.enqueueAll tasks).queue = [] ++ tasks :=
    empty ▸ Pool.queue_enqueueAll pool tasks
  have served := serve_finishing agree excuses schedule count 0 _ (queue.symm ▸ sound)
  exact ⟨congrArg Except.ok served, trivial⟩

/-- A sort comes to the same end with a fallback that does the same with what it is handed,
which are elements that have all digits before some depth in common. -/
theorem sort_finishing (excuses : Excuses rules data.size excused) (resources : Resources)
    (schedule : Schedule) :
    sort rules resources schedule data =
      sort (rules.finishing other) resources schedule data := by
  have settings : (rules.finishing other).settings = rules.settings := rfl
  unfold sort
  rw [settings]
  cases goesOn : early? rules.settings resources data with
  | some outcome => rfl
  | none =>
    have served := serveTasks_finishing agree excuses schedule
      (allowance data.size rules.maxDepth) (many_of_not_early goesOn)
    have started : sortStarted rules schedule data =
        sortStarted (rules.finishing other) schedule data := congrArg (· >>= _) served
    exact congrArg Outcome.ofStarted started

end Msd

end Agree

end RadixSort
