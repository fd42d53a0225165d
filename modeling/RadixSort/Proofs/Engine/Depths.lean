import RadixSort.Engine.Dispatch
import RadixSort.Proofs.Msd.Locality

/-!
# Every task lies deeper than the range it comes from

A sequential job enters frames from its own depth on and only where a digit is left, and
what it gives away lies one digit deeper than the frame it is taken from. A partition by
several tasks hands its buckets on one digit deeper than its range. So the depths grow
along every line of descent, and none exceeds the largest.

A digit is asked for in two places, where a range is entered and in a task of a partition,
and both lie above the largest depth. Digits from there on can be anything.
-/
namespace RadixSort

variable {α : Type} {radix : Nat} {rules : Rules α radix}

namespace SmallJob

/-- The frames of a job lie at its own depth or deeper, where a digit is left, and what it
has given away lies deeper than itself. -/
structure Descending (maxDepth depth : Nat) (state : State α) : Prop where
  frames : ∀ frame ∈ state.stack, depth ≤ frame.depth ∧ frame.depth < maxDepth
  given : ∀ job ∈ state.donated, depth < job.depth ∧ job.depth ≤ maxDepth

/-- What is given away of a frame lies one digit deeper. -/
theorem giveAway_depth (settings : Settings) (frame : Frame) (buckets : List Bucket)
    (work : Work α) : Ensures (fun _ => True) (giveAway settings frame buckets work)
      fun given => ∀ job ∈ given.1, job.depth = frame.depth + 1 := by
  induction buckets generalizing work with
  | nil => simp [giveAway]
  | cons bucket rest ih =>
    refine Ensures.trivial.bind fun window _ => ?_
    split
    · exact ih _
    · refine (ih _).bind ?_
      rintro ⟨jobs, work⟩ deeper
      simpa using deeper

/-- Giving work away keeps a job to its depths. -/
theorem share_descending {maxDepth depth : Nat} (settings : Settings) (idle : Nat → Bool)
    {state : State α} (descending : Descending maxDepth depth state) :
    Ensures (fun _ => True) (share settings idle state) (Descending maxDepth depth) := by
  obtain ⟨frames, given⟩ := descending
  unfold share
  split
  · dsimp only
    split
    · unfold dissolve
      split
      · dsimp only
        split
        · rename_i frame found
          obtain ⟨low, high⟩ := frames frame (List.mem_of_getElem? found)
          refine (giveAway_depth settings frame frame.remaining state.work).bind ?_
          rintro ⟨jobs, work⟩ deeper
          constructor
          · intro other member
            rcases List.mem_or_eq_of_mem_set member with old | rfl
            · exact frames other old
            · exact ⟨low, high⟩
          · intro job member
            rcases List.mem_append.mp member with old | new
            · exact given job old
            · have := deeper job new
              omega
        · trivial
      · trivial
    · exact ⟨frames, given⟩
  · exact ⟨frames, given⟩

/-- Entering a range above the largest depth keeps a job to its depths. -/
theorem enter_descending {depth deeper : Nat} {state : State α}
    (descending : Descending rules.maxDepth depth state) (below : depth ≤ deeper)
    (shallow : deeper < rules.maxDepth) (window : Window) :
    Ensures (fun _ => True) (enter rules state window deeper)
      (Descending rules.maxDepth depth) := by
  refine Ensures.trivial.bind fun partitioned _ => ?_
  have framed : Ensures (fun _ => True) (partitioned.frame deeper)
      fun frame => frame.depth = deeper := Ensures.trivial.bind fun buckets _ => rfl
  refine framed.bind ?_
  rintro frame rfl
  constructor
  · intro other member
    rcases List.mem_cons.mp member with rfl | old
    · exact ⟨below, shallow⟩
    · exact descending.frames other old
  · exact descending.given

/-- Handling a bucket keeps a job to its depths. -/
theorem handle_descending {depth deeper : Nat} {state : State α}
    (descending : Descending rules.maxDepth depth state) (below : depth ≤ deeper)
    (window : Window) : Ensures (fun _ => True) (handle rules state window deeper)
      (Descending rules.maxDepth depth) := by
  unfold handle
  split
  · exact Ensures.trivial.bind fun work _ => ⟨descending.frames, descending.given⟩
  · exact enter_descending descending below (by omega) window

/-- What a job is after a step keeps to the depths of the job. -/
def Progress.Descending (maxDepth depth : Nat) : Progress α → Prop
  | .running state => SmallJob.Descending maxDepth depth state
  | .finished state => SmallJob.Descending maxDepth depth state

/-- A step keeps a job to its depths. -/
theorem step_descending {depth : Nat} (idle : Nat → Bool) {state : State α}
    (descending : Descending rules.maxDepth depth state) :
    Ensures (fun _ => True) (step rules idle state)
      (Progress.Descending rules.maxDepth depth) := by
  obtain ⟨frames, given⟩ := descending
  unfold step
  split
  · exact ⟨frames, given⟩
  · rename_i top below stacked
    obtain ⟨low, high⟩ := frames top (stacked ▸ List.mem_cons_self)
    have others : ∀ frame ∈ below, depth ≤ frame.depth ∧ frame.depth < rules.maxDepth :=
      fun frame member => frames frame (stacked ▸ List.mem_cons_of_mem top member)
    split
    · dsimp only
      split <;> exact ⟨others, given⟩
    · rename_i bucket remaining unsorted
      have taken : Descending rules.maxDepth depth
          { state with stack := { top with remaining } :: below } := by
        refine ⟨?_, given⟩
        intro frame member
        rcases List.mem_cons.mp member with rfl | old
        · exact ⟨low, high⟩
        · exact others frame old
      refine Ensures.trivial.bind fun window _ => ?_
      split
      · exact ⟨taken.frames, taken.given⟩
      · refine (handle_descending taken (by omega) window).bind fun handled kept => ?_
        exact (share_descending rules.settings idle kept).bind fun shared still => still

/-- A job keeps to its depths until it has finished. -/
theorem resume_descending {depth : Nat} (idle : Nat → Bool) {state : State α}
    (descending : Descending rules.maxDepth depth state) :
    Ensures (fun _ => True) (resume rules idle state) (Descending rules.maxDepth depth) := by
  fun_induction resume rules idle state with
  | case1 state fault stepped => trivial
  | case2 state last stepped => exact (step_descending idle descending).of_ok stepped
  | case3 state next stepped lighter ih =>
    exact ih ((step_descending idle descending).of_ok stepped)

/-- What a job gives away lies deeper than the job. -/
theorem run_deeper (rules : Rules α radix) (idle : Nat → Bool) (job : Job) (work : Work α) :
    Ensures (fun _ => True) (run rules idle job work)
      fun ended => ∀ given ∈ ended.2, job.depth < given.depth ∧ given.depth ≤ rules.maxDepth := by
  unfold run
  dsimp only
  split
  · exact Ensures.trivial.bind fun finished _ => by simp
  · refine (enter_descending ⟨by simp, by simp⟩ (Nat.le_refl _) (by omega) _).bind
      fun entered descending => ?_
    exact (resume_descending idle descending).bind fun last kept => kept.given

end SmallJob

namespace RadixStep

variable {step : RadixStep radix} {memory : Memory α}

/-- Storing a row does not change the depth of a partition. -/
theorem storeRow_depth (part : Nat) (row : Vector Nat radix) :
    Ensures (fun _ => True) (step.storeRow part row) fun stored => stored.depth = step.depth := by
  unfold storeRow
  split <;> trivial

/-- Counting does not change the depth of a partition. -/
theorem count_depth (rule : DigitRule α radix) (part : Nat) :
    Ensures (fun _ => True) (step.count rule memory part)
      fun counted => counted.depth = step.depth := by
  refine Ensures.trivial.bind fun elements _ => Ensures.trivial.bind fun _ _ =>
    Ensures.trivial.bind fun counts _ => ?_
  exact (storeRow_depth part counts).bind fun stored same => same

/-- Laying out the shares does not change the depth of a partition. -/
theorem layOut_depth : Ensures (fun _ => True) step.layOut
    fun laidOut => laidOut.depth = step.depth := by
  have summed : Ensures (fun _ => True) step.sumUp fun summed => summed.depth = step.depth := by
    refine Ensures.trivial.bind fun sums _ => ?_
    dsimp only
    split <;> trivial
  exact summed.bind fun next same => same

/-- Scattering does not change the depth of a partition. -/
theorem distribute_depth (rule : DigitRule α radix) (part : Nat) :
    Ensures (fun _ => True) (step.distribute rule memory part)
      fun scattered => scattered.1.depth = step.depth := by
  refine Ensures.trivial.bind fun elements _ => Ensures.trivial.bind fun _ _ => ?_
  split
  · trivial
  · refine Ensures.trivial.bind fun written _ => Ensures.trivial.bind fun memory _ => ?_
    split
    · exact (storeRow_depth 0 _).bind fun stored same => same
    · rfl

end RadixStep

namespace Engine

variable {depths later last : Nat → Nat} {engine next final : Engine α radix} {depth : Nat}

/-- The depth of the range that a task works on, if it is known. -/
def depthOf? (engine : Engine α radix) : EngineTask → Option Nat
  | .small job => some job.depth
  | .count number _ => (engine.steps.lookup number).map RadixStep.depth
  | .distribute number _ => (engine.steps.lookup number).map RadixStep.depth

/-- The partitions of an engine have the depths that are listed for their numbers, and a
digit is left for each. -/
def Listed (maxDepth : Nat) (depths : Nat → Nat) (engine : Engine α radix) : Prop :=
  ∀ entry ∈ engine.steps,
    entry.1 < engine.nextStep ∧ entry.2.depth = depths entry.1 ∧ entry.2.depth < maxDepth

/-- The engine goes on without forgetting a partition, and numbers that have been given
keep their depths. -/
structure Grown (depths later : Nat → Nat) (engine next : Engine α radix) : Prop where
  steps : engine.steps ⊆ next.steps
  nextStep : engine.nextStep ≤ next.nextStep
  same : ∀ number < engine.nextStep, later number = depths number

/-- A task of a range at this depth, which is a job or belongs to a partition that is
listed. -/
def Made (depths : Nat → Nat) (engine : Engine α radix) (depth : Nat) : EngineTask → Prop
  | .small job => job.depth = depth
  | .count number _ => depths number = depth ∧ ∃ step, (number, step) ∈ engine.steps
  | .distribute _ _ => False

/-- An engine that does not change has grown by nothing. -/
theorem Grown.refl (depths : Nat → Nat) (engine : Engine α radix) :
    Grown depths depths engine engine :=
  ⟨fun _ member => member, Nat.le_refl _, fun _ _ => rfl⟩

/-- Growing twice is growing. -/
theorem Grown.trans (first : Grown depths later engine next)
    (second : Grown later last next final) : Grown depths last engine final where
  steps := fun _ member => second.steps (first.steps member)
  nextStep := Nat.le_trans first.nextStep second.nextStep
  same number old := (second.same number (Nat.lt_of_lt_of_le old first.nextStep)).trans
    (first.same number old)

/-- A partition that is found under a number is listed under it. -/
theorem mem_of_step {number : Nat} {step : RadixStep radix}
    (found : engine.step number = .ok step) : (number, step) ∈ engine.steps := by
  unfold Engine.step at found
  split at found
  · rename_i other present
    cases found
    obtain ⟨before, after, split, -⟩ := List.lookup_eq_some_iff.mp present
    rw [split]
    exact List.mem_append_right _ List.mem_cons_self
  · cases found

/-- The depth of a partition is the one listed for its number. -/
theorem Listed.depthOf {maxDepth number : Nat} {step : RadixStep radix}
    (listed : Listed maxDepth depths engine) (member : (number, step) ∈ engine.steps) :
    (engine.steps.lookup number).map RadixStep.depth = some (depths number) := by
  have present : (engine.steps.lookup number).isSome = true :=
    List.lookup_isSome_iff.mpr ⟨_, member, beq_self_eq_true number⟩
  obtain ⟨other, found⟩ := Option.isSome_iff_exists.mp present
  have known : engine.step number = .ok other := by rw [Engine.step, found]
  obtain ⟨-, same, -⟩ := listed _ (mem_of_step known)
  rw [found, Option.map_some, same]

/-- A task that was made for a depth still has it when the engine has grown. -/
theorem Made.grown {maxDepth : Nat} {task : EngineTask} (listed : Listed maxDepth depths engine)
    (grown : Grown depths later engine next) (made : Made depths engine depth task) :
    Made later next depth task := by
  cases task with
  | small job => exact made
  | count number part =>
    obtain ⟨same, step, member⟩ := made
    exact ⟨(grown.same number (listed _ member).1).trans same, step, grown.steps member⟩
  | distribute number part => exact made.elim

/-- The depth of a task that was made for a depth is known. -/
theorem Made.depthOf {maxDepth : Nat} {task : EngineTask} (listed : Listed maxDepth depths engine)
    (made : Made depths engine depth task) : engine.depthOf? task = some depth := by
  cases task with
  | small job => exact congrArg some made
  | count number part =>
    obtain ⟨same, step, member⟩ := made
    exact (listed.depthOf member).trans (congrArg some same)
  | distribute number part => exact made.elim

/-- The tasks of a range have the depth of the range. -/
theorem dispatch_made (settled : Job → Nat) (listed : Listed rules.maxDepth depths engine)
    (job : Job) : Ensures (fun _ => True) (dispatch rules settled engine job) fun made => ∃ later,
      Grown depths later engine made.1 ∧ Listed rules.maxDepth later made.1 ∧
        ∀ task ∈ made.2, Made later made.1 job.depth task := by
  unfold dispatch
  split
  · rename_i long
    have shallow : job.depth < rules.maxDepth := by simp_all [isLong]
    have started : Ensures (fun _ => True) (RadixStep.start job.window job.depth
        ((engine.work.settledElsewhere job.window.length (settled job)).sequentialThreshold
          rules.settings engine.work.memory.primary.size))
        fun step : RadixStep radix => step.depth = job.depth :=
      Ensures.trivial.bind fun _ _ => rfl
    refine started.bind fun step depth => ?_
    refine ⟨fun number => if number = engine.nextStep then job.depth else depths number,
      ⟨?_, Nat.le_succ _, ?_⟩, ?_, ?_⟩
    · exact List.subset_append_left _ _
    · intro number old
      exact if_neg (Nat.ne_of_lt old)
    · intro entry member
      rcases List.mem_append.mp member with old | new
      · obtain ⟨numbered, same, above⟩ := listed entry old
        exact ⟨Nat.lt_succ_of_lt numbered, same.trans (if_neg (Nat.ne_of_lt numbered)).symm, above⟩
      · cases List.mem_singleton.mp new
        exact ⟨Nat.lt_succ_self _, depth.trans (if_pos rfl).symm, depth ▸ shallow⟩
    · intro task member
      obtain ⟨part, -, rfl⟩ := List.mem_map.mp member
      exact ⟨if_pos rfl, step, List.mem_append_right _ (List.mem_singleton.mpr rfl)⟩
  · refine ⟨depths, .refl depths engine, listed, ?_⟩
    intro task member
    cases List.mem_singleton.mp member
    rfl

/-- The tasks of the buckets of a range lie one digit deeper.

Induct over the buckets. What the first of them has made keeps its depth while the others
are dispatched. -/
theorem dispatchBuckets_made (settled : Job → Nat) (window : Window) (depth : Nat)
    (buckets : List Bucket) (listed : Listed rules.maxDepth depths engine) :
    Ensures (fun _ => True) (dispatchBuckets rules settled window depth buckets engine)
      fun made => ∃ later, Grown depths later engine made.1 ∧
        Listed rules.maxDepth later made.1 ∧
        ∀ task ∈ made.2, Made later made.1 (depth + 1) task := by
  induction buckets generalizing engine depths with
  | nil => exact ⟨depths, .refl depths engine, listed, by simp⟩
  | cons bucket rest ih =>
    refine Ensures.trivial.bind fun part _ => ?_
    split
    · refine (ih (by exact listed)).mono ?_
      rintro made ⟨later, grown, kept, deeper⟩
      exact ⟨later, ⟨grown.steps, grown.nextStep, grown.same⟩, kept, deeper⟩
    · refine (dispatch_made settled listed ⟨part, depth + 1⟩).bind ?_
      rintro ⟨first, tasks⟩ ⟨middle, grown, kept, deeper⟩
      refine (ih kept).bind ?_
      rintro ⟨last, others⟩ ⟨later, further, still, deeperToo⟩
      refine ⟨later, grown.trans further, still, ?_⟩
      intro task member
      rcases List.mem_append.mp member with own | other
      · exact (deeper task own).grown kept further
      · exact deeperToo task other

/-- What a task may leave behind. A job leaves jobs that lie deeper; the first phase of a
partition leaves its second phase, and that phase leaves tasks one digit deeper. -/
def Leaves (maxDepth : Nat) (depths later : Nat → Nat) (engine next : Engine α radix) :
    EngineTask → EngineTask → Prop
  | .small job, made => ∃ given : Job, made = .small given ∧ job.depth < given.depth ∧
      given.depth ≤ maxDepth
  | .count number _, made => ∃ part, made = .distribute number part
  | .distribute number _, made => (∃ step, (number, step) ∈ engine.steps) ∧
      Made later next (depths number + 1) made

/-- A partition that goes on under its number keeps its depth. -/
theorem Listed.update {maxDepth number : Nat} {step advanced : RadixStep radix}
    (listed : Listed maxDepth depths engine) (member : (number, step) ∈ engine.steps)
    (same : advanced.depth = step.depth) :
    Listed maxDepth depths (engine.updateStep number advanced) := by
  intro entry present
  obtain ⟨old, before, rfl⟩ := List.mem_map.mp present
  split
  · obtain ⟨numbered, depth, above⟩ := listed _ member
    exact ⟨numbered, same.trans depth, same.symm ▸ above⟩
  · exact listed old before

/-- Executing a task leaves behind what the task may leave, and the partitions keep their
depths. -/
theorem perform_leaves (listed : Listed rules.maxDepth depths engine) (news : News)
    (task : EngineTask) :
    Ensures (fun _ => True) (perform rules news task engine) fun made => ∃ later,
      engine.nextStep ≤ made.1.nextStep ∧
        (∀ number < engine.nextStep, later number = depths number) ∧
        Listed rules.maxDepth later made.1 ∧
        ∀ each ∈ made.2, Leaves rules.maxDepth depths later engine made.1 task each := by
  have found (number : Nat) : Ensures (fun _ => True) (engine.step number)
      fun step => (number, step) ∈ engine.steps := by
    cases known : engine.step number with
    | error fault => trivial
    | ok step => exact mem_of_step known
  cases task with
  | small job =>
    refine (SmallJob.run_deeper rules news.idle job _).bind ?_
    rintro ⟨work, donated⟩ deeper
    refine ⟨depths, Nat.le_refl _, fun _ _ => rfl, listed, ?_⟩
    intro each member
    obtain ⟨given, present, rfl⟩ := List.mem_map.mp member
    exact ⟨given, rfl, deeper given present⟩
  | count number part =>
    refine (found number).bind fun step member => ?_
    refine (RadixStep.count_depth rules.digits part).bind fun counted same => ?_
    split
    · refine RadixStep.layOut_depth.bind fun laidOut sameToo => ?_
      refine ⟨depths, Nat.le_refl _, fun _ _ => rfl, listed.update member (sameToo.trans same), ?_⟩
      intro each present
      obtain ⟨other, -, rfl⟩ := List.mem_map.mp present
      exact ⟨other, rfl⟩
    · exact ⟨depths, Nat.le_refl _, fun _ _ => rfl, listed.update member same, by simp⟩
  | distribute number part =>
    refine (found number).bind fun step member => ?_
    refine (RadixStep.distribute_depth rules.digits part).bind ?_
    rintro ⟨scattered, memory⟩ same
    dsimp only
    split
    · refine Ensures.trivial.bind fun buckets _ => ?_
      have others : Listed rules.maxDepth depths
          (({ engine with work := { engine.work with memory } } : Engine α radix).removeStep
            number) := fun entry present => listed entry (List.mem_filter.mp present).1
      refine (dispatchBuckets_made news.settled step.window step.depth buckets others).mono ?_
      rintro ⟨next, tasks⟩ ⟨later, grown, kept, deeper⟩
      obtain ⟨-, depth, -⟩ := listed _ member
      refine ⟨later, grown.nextStep, grown.same, kept, fun each present => ⟨⟨step, member⟩, ?_⟩⟩
      exact depth ▸ deeper each present
    · exact ⟨depths, Nat.le_refl _, fun _ _ => rfl, listed.update member same, by simp⟩

end Engine

/-- One digit rule above some depth, and another from there on. -/
def DigitRule.upTo (rule deeper : DigitRule α radix) (depth : Nat) : DigitRule α radix where
  digit x level := if level < depth then rule.digit x level else deeper.digit x level
  refusal? x level := if level < depth then rule.refusal? x level else deeper.refusal? x level

/-- The rules with other digits from the largest depth on. -/
def Rules.upTo (rules : Rules α radix) (deeper : DigitRule α radix) : Rules α radix :=
  { rules with digits := rules.digits.upTo deeper rules.maxDepth }

section Unasked

variable {deeper : DigitRule α radix}

/-- Above the largest depth the digits are the same. -/
theorem Rules.digit_upTo {depth : Nat} (shallow : depth < rules.maxDepth) :
    ((rules.upTo deeper).digits.digit · depth) = (rules.digits.digit · depth) :=
  funext fun _ => if_pos shallow

/-- Above the largest depth the same elements refuse to be read. -/
theorem Rules.readAll_upTo {depth : Nat} (shallow : depth < rules.maxDepth) (elements : List α) :
    (rules.upTo deeper).digits.readAll elements depth = rules.digits.readAll elements depth := by
  have same : ((rules.upTo deeper).digits.refusal? · depth) = (rules.digits.refusal? · depth) :=
    funext fun _ => if_pos shallow
  rw [DigitRule.readAll, same, DigitRule.readAll]

namespace SmallJob

/-- A range above the largest depth is entered in the same way. -/
theorem enter_upTo (deeper : DigitRule α radix) {depth : Nat} (shallow : depth < rules.maxDepth)
    (state : State α) (window : Window) :
    enter (rules.upTo deeper) state window depth = enter rules state window depth := by
  simp only [enter, Partitioned.ofRange, Rules.readAll_upTo shallow, Rules.digit_upTo shallow]
  rfl

/-- A bucket is handled in the same way, at whatever depth. -/
theorem handle_upTo (state : State α) (window : Window) (depth : Nat) :
    handle (rules.upTo deeper) state window depth = handle rules state window depth := by
  by_cases ends : window.length < rules.settings.subsortThreshold ∨ rules.maxDepth ≤ depth
  · rw [handle, handle, if_pos ends]
    exact if_pos ends
  · have shallow : depth < rules.maxDepth := by omega
    rw [handle, handle, if_neg ends, ← enter_upTo deeper shallow]
    exact if_neg ends

/-- A job makes the same steps. -/
theorem step_upTo (idle : Nat → Bool) (state : State α) :
    step (rules.upTo deeper) idle state = step rules idle state := by
  simp only [step, handle_upTo]
  rfl

/-- A job that goes on until it has finished goes the same way. -/
theorem resume_upTo (idle : Nat → Bool) (state : State α) :
    resume (rules.upTo deeper) idle state = resume rules idle state := by
  fun_induction resume rules idle state with
  | case1 state fault stepped => rw [resume_eq, step_upTo, stepped]; rfl
  | case2 state last stepped => rw [resume_eq, step_upTo, stepped]; rfl
  | case3 state next stepped lighter ih =>
    rw [resume_eq, step_upTo, stepped]
    exact ih

/-- A job goes the same way, at whatever depth. -/
theorem run_upTo (idle : Nat → Bool) (job : Job) (work : Work α) :
    run (rules.upTo deeper) idle job work = run rules idle job work := by
  by_cases ends : job.window.settled.length < rules.settings.subsortThreshold ∨
      rules.maxDepth ≤ job.depth
  · rw [run, run, if_pos ends]
    exact if_pos ends
  · have shallow : job.depth < rules.maxDepth := by omega
    rw [run, run, if_neg ends, ← enter_upTo deeper shallow]
    refine (if_neg ends).trans ?_
    simp only [resume_upTo]

end SmallJob

namespace Engine

/-- The buckets of a range are dispatched in the same way. -/
theorem dispatchBuckets_upTo (settled : Job → Nat) (window : Window) (depth : Nat)
    (buckets : List Bucket) (engine : Engine α radix) :
    dispatchBuckets (rules.upTo deeper) settled window depth buckets engine =
      dispatchBuckets rules settled window depth buckets engine := by
  induction buckets generalizing engine with
  | nil => rfl
  | cons bucket rest ih =>
    simp only [dispatchBuckets, ih]
    rfl

/-- A task is executed in the same way: a partition is asked for digits at its own depth,
for which a digit is left, and a job looks at its depth before it asks. -/
theorem perform_upTo {depths : Nat → Nat} {engine : Engine α radix}
    (listed : Listed rules.maxDepth depths engine) (news : News) (task : EngineTask) :
    perform (rules.upTo deeper) news task engine = perform rules news task engine := by
  cases task with
  | small job =>
    simp only [perform, performSmall, SmallJob.run_upTo]
  | count number part =>
    simp only [perform, performCount]
    cases known : engine.step number with
    | error fault => rfl
    | ok step =>
      have shallow := (listed _ (mem_of_step known)).2.2
      simp only [bind, Except.bind, RadixStep.count, Rules.readAll_upTo shallow,
        Rules.digit_upTo shallow]
  | distribute number part =>
    simp only [perform, performDistribute, dispatchBuckets_upTo]
    cases known : engine.step number with
    | error fault => rfl
    | ok step =>
      have shallow := (listed _ (mem_of_step known)).2.2
      simp only [bind, Except.bind, RadixStep.distribute, Rules.readAll_upTo shallow,
        Rules.digit_upTo shallow]

end Engine

end Unasked

end RadixSort
