import RadixSort.Proofs.Engine.Underway

/-!
# A sequential job does its work, whatever it gives away

Between two steps of a job, what is left of its work are the unsorted buckets of its
frames and the jobs it has given away. The frames it has dissolved have no bucket left,
so the frame to be dissolved next is always there when the job asks. When the job
finishes, all frames have been left or dissolved, and only the jobs given away are
still to be done.
-/
namespace RadixSort.SmallJob

open Recursion

variable {α : Type} {radix : Nat} {rules : Rules α radix} {total depth : Nat}
  {assignment : Assignment α} {excused : Fault → Prop}

/-- The obligations of a stack of frames, the frame entered last coming first. -/
def stackObligations (rules : Rules α radix) (stack : List Frame) : List (Obligation α) :=
  stack.flatMap (frameObligations rules)

/-- What a job still has to do, and what it has given away. -/
def obligations (rules : Rules α radix) (state : State α) : List (Obligation α) :=
  stackObligations rules state.stack ++ state.donated.map (Job.obligation rules)

/-- A job of the depth `depth` between two steps, with some obligations that are neither
on its stack nor given away. -/
structure Sound (rules : Rules α radix) (total depth : Nat) (assignment : Assignment α)
    (owed : List (Obligation α)) (state : State α) : Prop where
  underway : ∃ settled counts, Underway rules total assignment state.work
    (owed ++ obligations rules state) state.donated.length settled counts
  frames : ∀ frame ∈ state.stack, FrameSound rules total depth frame
  few : state.dissolved ≤ state.stack.length
  emptied : ∀ index frame, state.stack[index]? = some frame →
    state.stack.length ≤ index + state.dissolved → frame.remaining = []
  donated : ∀ job ∈ state.donated, Donated rules depth job

/-- A frame without unsorted buckets leaves nothing to do. -/
theorem frameObligations_of_empty (rules : Rules α radix) {frame : Frame}
    (empty : frame.remaining = []) : frameObligations rules frame = [] := by
  rw [frameObligations, bucketObligations, empty, List.map_nil]

@[simp] theorem stackObligations_cons (rules : Rules α radix) (frame : Frame)
    (stack : List Frame) : stackObligations rules (frame :: stack) =
      frameObligations rules frame ++ stackObligations rules stack := List.flatMap_cons

/-- Frames without unsorted buckets leave nothing to do. -/
theorem stackObligations_of_empty (rules : Rules α radix) {stack : List Frame}
    (empty : ∀ frame ∈ stack, frame.remaining = []) : stackObligations rules stack = [] :=
  List.flatMap_eq_nil_iff.mpr fun frame member =>
    frameObligations_of_empty rules (empty frame member)

/-- Emptying a frame takes its obligations off the stack and no others. -/
theorem stackObligations_set_perm {stack : List Frame} {position : Nat} {frame : Frame}
    (found : stack[position]? = some frame) :
    (stackObligations rules stack).Perm (frameObligations rules frame ++
      stackObligations rules (stack.set position { frame with remaining := [] })) := by
  induction stack generalizing position with
  | nil => simp at found
  | cons head rest ih =>
    cases position with
    | zero =>
      obtain rfl : head = frame := by simpa using found
      have none : frameObligations rules { head with remaining := [] } = [] :=
        frameObligations_of_empty rules rfl
      rw [List.set_cons_zero, stackObligations_cons, stackObligations_cons, none,
        List.nil_append]
    | succ position =>
      have moved := ih (by simpa using found)
      rw [List.set_cons_succ, stackObligations_cons, stackObligations_cons]
      exact (List.Perm.append_left _ moved).trans (List.perm_append_comm_assoc _ _ _)

/-- Dissolving the coarsest frame makes jobs of its buckets. -/
theorem dissolve_ensures (excuses : JobExcuses rules total excused) {state : State α}
    (sound : Sound rules total depth assignment [] state)
    (own : state.dissolved < state.stack.length) :
    Ensures excused (dissolve rules.settings state) (Sound rules total depth assignment []) := by
  obtain ⟨⟨settled, counts, underway⟩, frames, few, emptied, donated⟩ := sound
  obtain ⟨position, at_position⟩ : ∃ position,
      position = state.stack.length - 1 - state.dissolved := ⟨_, rfl⟩
  have inside : position < state.stack.length := by omega
  obtain ⟨frame, found⟩ : ∃ frame, state.stack[position]? = some frame :=
    ⟨_, List.getElem?_eq_getElem inside⟩
  unfold dissolve
  rw [if_pos own]
  simp only [← at_position, found]
  have well := frames frame (List.mem_of_getElem? found)
  have front : Underway rules total assignment state.work
      (frameObligations rules { frame with remaining := frame.remaining } ++
        (stackObligations rules (state.stack.set position { frame with remaining := [] }) ++
          state.donated.map (Job.obligation rules)))
      state.donated.length settled counts := by
    apply underway.perm
    rw [List.nil_append, ← List.append_assoc]
    exact (stackObligations_set_perm found).append_right _
  refine (giveAway_ensures excuses well.primary well.within well.deeper well.shallow
    frame.remaining well.buckets front).bind ?_
  rintro ⟨jobs, work⟩ ⟨given, settled, counts, after⟩
  constructor
  case underway =>
    refine ⟨settled, counts, ?_⟩
    rw [← List.length_append] at after
    apply after.perm
    rw [List.nil_append, obligations, List.map_append]
    exact (List.perm_append_comm_assoc _ _ _).trans
      (List.Perm.append_left _ List.perm_append_comm)
  case frames =>
    intro other member
    rcases List.mem_or_eq_of_mem_set member with old | rfl
    · exact frames other old
    · exact ⟨well.primary, well.within, well.deeper, well.shallow, by simp⟩
  case few =>
    simp only [List.length_set]
    omega
  case emptied =>
    intro index other here late
    simp only [List.length_set] at late
    by_cases same : position = index
    · subst same
      rw [List.getElem?_set_self inside] at here
      rw [← Option.some.inj here]
    · rw [List.getElem?_set_ne same] at here
      exact emptied index other here (by omega)
  case donated =>
    intro job member
    rcases List.mem_append.mp member with old | new
    · exact donated job old
    · exact given job new

/-- Asking for an idle worker keeps the job sound, whatever the answer. -/
theorem share_ensures (excuses : JobExcuses rules total excused) (idle : Nat → Bool)
    {state : State α} (sound : Sound rules total depth assignment [] state)
    (own : state.dissolved < state.stack.length) :
    Ensures excused (share rules.settings idle state) (Sound rules total depth assignment []) := by
  have answered : Sound rules total depth assignment [] { state with asked := state.asked + 1 } :=
    ⟨sound.underway, sound.frames, sound.few, sound.emptied, sound.donated⟩
  unfold share
  split
  · dsimp only
    split
    · exact dissolve_ensures excuses answered own
    · exact answered
  · exact sound

/-- Entering a range divides the obligation for it into those of its buckets. -/
theorem enter_ensures (excuses : JobExcuses rules total excused) {state : State α} {window : Window}
    {level : Nat} (primary : window.flipped = false) (within : window.length ≤ total)
    (spans : state.work.memory.Spans window) (deeper : depth ≤ level)
    (goesOn : ¬rules.Ends window.length level)
    (sound : Sound rules total depth assignment
      [⟨window, fun elements result => JobSorts rules elements level result⟩] state) :
    Ensures excused (enter rules state window level) fun entered =>
      Sound rules total depth assignment [] entered ∧
        entered.stack.length = state.stack.length + 1 ∧ entered.dissolved = state.dissolved := by
  obtain ⟨⟨settled, counts, underway⟩, frames, few, emptied, donated⟩ := sound
  have shallow : level < rules.maxDepth := by
    by_contra deep
    exact goesOn (.inr (by omega))
  have length := spans.length_held
  refine (Partitioned.ofRange_ensures rules.digits rules.settings.inPlace level spans primary
    (excuses.fits_length within) fun x fault => excuses.refused x level fault shallow).bind ?_
  rintro partitioned ⟨readable, groups⟩
  refine (Ensures.of_eq_ok (Partitioned.frame_exact groups level) rfl).bind ?_
  rintro frame rfl
  refine ⟨?_, rfl, rfl⟩
  have part : Ledger rules.Gave window (Ledger.aim ⟨window, fun elements result =>
      JobSorts rules elements level result⟩ state.work.memory) partitioned.memory
      (frameObligations rules ⟨window, level, Bucket.ofBlocks 0 (group (rules.digits.digit · level)
        (arrange rules.settings.inPlace (rules.digits.digit · level)
          (state.work.memory.held window)))⟩) [] 0 := by
    apply Ledger.of_blocks groups.held
    · rw [(flatten_group_perm _ _).length_eq, (arrange_perm _ _ _).length_eq, length]
    · exact .alone (Nat.zero_le _)
    · intro results kept
      obtain ⟨each, rfl, sorts⟩ := exists_results kept
      have split := JobSorts.divide (by rw [length]; exact goesOn) readable sorts
      rwa [join_eq, ← zero_add (List.sum _)] at split
  constructor
  case underway =>
    refine ⟨settled, counts, ?_⟩
    rw [List.nil_append, obligations, stackObligations_cons, List.append_assoc]
    exact underway.divide groups.elsewhere part
  case frames =>
    intro other member
    rcases List.mem_cons.mp member with rfl | old
    · refine ⟨primary, within, deeper, shallow, ?_⟩
      intro bucket listed
      obtain ⟨some, -, bound⟩ := Bucket.bounds_of_mem listed
      rw [Nat.zero_add, (flatten_group_perm _ _).length_eq, (arrange_perm _ _ _).length_eq,
        length] at bound
      exact ⟨some, bound⟩
    · exact frames other old
  case few =>
    exact Nat.le_succ_of_le few
  case emptied =>
    intro index other here late
    cases index with
    | zero =>
      simp only [List.length_cons] at late
      omega
    | succ index =>
      simp only [List.length_cons] at late
      exact emptied index other (by simpa using here) (by omega)
  case donated =>
    exact donated

/-- Handling a bucket of two or more elements discharges the obligation for it. -/
theorem handle_ensures (excuses : JobExcuses rules total excused) {state : State α}
    {window : Window} {level : Nat} (primary : window.flipped = false)
    (within : window.length ≤ total) (many : 2 ≤ window.length) (deeper : depth ≤ level)
    (sound : Sound rules total depth assignment
      [⟨window, fun elements result => JobSorts rules elements level result⟩] state) :
    Ensures excused (handle rules state window level) fun handled =>
      Sound rules total depth assignment [] handled ∧
        state.stack.length ≤ handled.stack.length ∧ handled.dissolved = state.dissolved := by
  unfold handle
  split
  · rename_i ends
    obtain ⟨⟨settled, counts, underway⟩, frames, few, emptied, donated⟩ := sound
    have some : 0 < window.length := by omega
    have length := (underway.spans_of_mem List.mem_cons_self some).length_held
    refine (Work.finish_ensures excuses state.work window).bind ?_
    rintro work ⟨sorted, ran, rfl⟩
    have same : sorted.length = window.length := (excuses.length _ _ ran).trans length
    have finished := underway.finish primary some same ⟨_, ran⟩
      (.final (length.symm ▸ many) (length.symm ▸ ends) ran)
    exact ⟨⟨⟨_, _, finished⟩, frames, few, emptied, donated⟩, Nat.le_refl _, rfl⟩
  · rename_i goesOn
    obtain ⟨settled, counts, underway⟩ := sound.underway
    have spans := underway.spans_of_mem List.mem_cons_self (by show 0 < window.length; omega)
    refine (enter_ensures excuses primary within spans deeper goesOn sound).mono ?_
    rintro entered ⟨sound, longer, same⟩
    exact ⟨sound, by omega, same⟩

/-- A job that has finished: only what it has given away is still to be done. -/
structure Finished (rules : Rules α radix) (total depth : Nat) (assignment : Assignment α)
    (work : Work α) (donated : List Job) : Prop where
  underway : ∃ settled counts, Underway rules total assignment work
    (donated.map (Job.obligation rules)) donated.length settled counts
  donated : ∀ job ∈ donated, Donated rules depth job

/-- What a step of a job leaves. -/
def StepSound (rules : Rules α radix) (total depth : Nat) (assignment : Assignment α) :
    Progress α → Prop
  | .running next => Sound rules total depth assignment [] next
  | .finished last => Finished rules total depth assignment last.work last.donated

/-- A job with nothing left on its stack has finished. -/
theorem Sound.finished {state : State α} (sound : Sound rules total depth assignment [] state)
    (nothing : stackObligations rules state.stack = []) :
    Finished rules total depth assignment state.work state.donated := by
  obtain ⟨settled, counts, underway⟩ := sound.underway
  rw [obligations, nothing, List.nil_append, List.nil_append] at underway
  exact ⟨⟨settled, counts, underway⟩, sound.donated⟩

/-- Leaving a frame without unsorted buckets leaves the job sound, or finished if all
frames below have been dissolved. -/
theorem Sound.leave {state : State α} {top : Frame} {below : List Frame}
    (sound : Sound rules total depth assignment [] state) (stacked : state.stack = top :: below)
    (empty : top.remaining = []) :
    StepSound rules total depth assignment
      (if state.dissolved < below.length then .running { state with stack := below }
        else .finished { state with stack := below }) := by
  have top_nothing := frameObligations_of_empty rules empty
  split
  · rename_i own
    obtain ⟨⟨settled, counts, underway⟩, frames, few, emptied, donated⟩ := sound
    rw [stacked] at frames emptied
    refine ⟨⟨settled, counts, ?_⟩, ?_, Nat.le_of_lt own, ?_, donated⟩
    · rw [obligations, stacked, stackObligations_cons, top_nothing, List.nil_append] at underway
      exact underway
    · exact fun frame member => frames frame (List.mem_cons_of_mem _ member)
    · intro index frame here late
      have reached : below.length ≤ index + state.dissolved := late
      refine emptied (index + 1) frame (by simpa using here) ?_
      rw [List.length_cons]
      omega
  · rename_i dissolved
    apply sound.finished
    rw [stacked, stackObligations_cons, top_nothing, List.nil_append]
    apply stackObligations_of_empty
    intro frame member
    obtain ⟨index, here⟩ := List.mem_iff_getElem?.mp member
    refine sound.emptied (index + 1) frame (by simpa [stacked] using here) ?_
    rw [stacked, List.length_cons]
    omega

/-- Taking the next bucket of the frame entered last leaves the obligation for it. -/
theorem Sound.take {state : State α} {top : Frame} {below : List Frame} {bucket : Bucket}
    {remaining : List Bucket} (sound : Sound rules total depth assignment [] state)
    (stacked : state.stack = top :: below) (unsorted : top.remaining = bucket :: remaining) :
    Sound rules total depth assignment
        [⟨top.window.part bucket,
          fun elements result => JobSorts rules elements (top.depth + 1) result⟩]
        { state with stack := { top with remaining } :: below } ∧
      state.dissolved < state.stack.length := by
  obtain ⟨⟨settled, counts, underway⟩, frames, few, emptied, donated⟩ := sound
  have own : state.dissolved < state.stack.length := by
    by_contra all
    have none := emptied 0 top (by rw [stacked]; rfl) (by omega)
    rw [unsorted] at none
    simp at none
  rw [stacked] at frames few emptied own
  refine ⟨⟨⟨settled, counts, ?_⟩, ?_, few, ?_, donated⟩, by rw [stacked]; exact own⟩
  · have head : frameObligations rules top =
        ⟨top.window.part bucket,
          fun elements result => JobSorts rules elements (top.depth + 1) result⟩ ::
          frameObligations rules { top with remaining } := by
      rw [frameObligations, frameObligations, unsorted]
      rfl
    rw [obligations, stacked, stackObligations_cons, head] at underway
    exact underway
  · intro frame member
    rcases List.mem_cons.mp member with rfl | old
    · have well := frames top List.mem_cons_self
      refine ⟨well.primary, well.within, well.deeper, well.shallow, ?_⟩
      intro other listed
      apply well.buckets
      rw [unsorted]
      exact List.mem_cons_of_mem _ listed
    · exact frames frame (List.mem_cons_of_mem _ old)
  · intro index frame here late
    cases index with
    | zero =>
      simp only [List.length_cons] at late own
      omega
    | succ index => exact emptied (index + 1) frame (by simpa using here) late

/-- Every step of a job leaves it sound or finished. -/
theorem step_ensures (excuses : JobExcuses rules total excused) (idle : Nat → Bool)
    {state : State α} (sound : Sound rules total depth assignment [] state) :
    Ensures excused (step rules idle state) (StepSound rules total depth assignment) := by
  unfold step
  split
  · rename_i stacked
    apply sound.finished
    rw [stacked]
    rfl
  · rename_i top below stacked
    split
    · rename_i empty
      exact sound.leave stacked empty
    · rename_i bucket remaining unsorted
      obtain ⟨taken, own⟩ := sound.take stacked unsorted
      have well := sound.frames top (by rw [stacked]; exact List.mem_cons_self)
      obtain ⟨some, bound⟩ := well.buckets bucket (by rw [unsorted]; exact List.mem_cons_self)
      refine (Window.sub_ensures (excuses.fits_length well.within) bound).bind ?_
      rintro window rfl
      by_cases single : bucket.length = 1
      · rw [if_pos single]
        obtain ⟨settled, counts, underway⟩ := taken.underway
        have length := (underway.spans_of_mem List.mem_cons_self some).length_held
        have settled := underway.settle well.primary single
          (.alone (Nat.le_of_eq (length.trans single)))
        exact ⟨⟨_, _, settled⟩, taken.frames, taken.few, taken.emptied, taken.donated⟩
      · rw [if_neg single]
        have primary : (top.window.part bucket).flipped = false := well.primary
        refine (handle_ensures excuses primary ?_ ?_ ?_ taken).bind ?_
        · exact Nat.le_trans (Nat.le_trans (Nat.le_add_left _ _) bound) well.within
        · change 2 ≤ bucket.length
          omega
        · exact Nat.le_succ_of_le well.deeper
        · rintro handled ⟨handledSound, longer, same⟩
          have stillOwn : handled.dissolved < handled.stack.length := by
            rw [same]
            rw [stacked] at own
            exact Nat.lt_of_lt_of_le own longer
          exact (share_ensures excuses idle handledSound stillOwn).bind fun shared kept => kept

/-- A job that goes on until it has finished has finished soundly. -/
theorem resume_ensures (excuses : JobExcuses rules total excused) (idle : Nat → Bool)
    {state : State α} (sound : Sound rules total depth assignment [] state) :
    Ensures excused (resume rules idle state) fun last =>
      Finished rules total depth assignment last.work last.donated := by
  fun_induction resume rules idle state with
  | case1 state fault stepped =>
    have stepped_sound := step_ensures excuses idle sound
    rw [stepped] at stepped_sound
    exact stepped_sound
  | case2 state last stepped =>
    exact (step_ensures excuses idle sound).of_ok stepped
  | case3 state next stepped lighter ih =>
    exact ih ((step_ensures excuses idle sound).of_ok stepped)

/-- The assignment of a job that is taken from the queue. -/
def assigned (rules : Rules α radix) (job : Job) (work : Work α) : Assignment α :=
  ⟨job.window, Ledger.aim (job.obligation rules) work.memory, work⟩

/-- Copying its range back is the first thing a job does, and leaves it with the range
to sort. -/
theorem underway_copyBack (rules : Rules α radix) (total : Nat) {job : Job} {work : Work α}
    (spans : work.memory.Spans job.window) :
    Underway rules total (assigned rules job work)
      { work with memory := work.memory.copyBack job.window }
      [⟨job.window.settled, fun elements result => JobSorts rules elements job.depth result⟩]
      0 [] 0 where
  ledger := by
    have opened := Ledger.opened rules.Gave
      (⟨job.window.settled, fun elements result => JobSorts rules elements job.depth result⟩ :
        Obligation α) (work.memory.copyBack job.window)
    refine ⟨opened.tiles, ?_, opened.given⟩
    intro final later kept met
    have reached := opened.settles final later kept met
    rw [Ledger.aim, Memory.held_copyBack spans] at reached
    exact reached
  spans := (Memory.elsewhere_copyBack _ _).spans spans
  elsewhere := Memory.elsewhere_copyBack _ _
  finished := rfl
  stats := rfl
  steps := rfl
  jobs := rfl
  accounted := id

/-- A job that does not hand its range to the fallback enters it. -/
theorem entered_ensures (excuses : JobExcuses rules total excused) {job : Job} {work : Work α}
    (spans : work.memory.Spans job.window) (within : job.window.length ≤ total)
    (goesOn : ¬rules.Ends job.window.settled.length job.depth) :
    Ensures excused (enter rules
        { work := { work with memory := work.memory.copyBack job.window }, stack := [] }
        job.window.settled job.depth)
      (Sound rules total job.depth (assigned rules job work) []) := by
  have underway := underway_copyBack rules total spans
  have begun : Sound rules total job.depth (assigned rules job work)
      [⟨job.window.settled, fun elements result => JobSorts rules elements job.depth result⟩]
      { work := { work with memory := work.memory.copyBack job.window }, stack := [] } :=
    ⟨⟨[], 0, underway⟩, by simp, Nat.le_refl _, by simp, by simp⟩
  have primary : job.window.settled.flipped = false := rfl
  refine (enter_ensures excuses primary within underway.spans (Nat.le_refl _) goesOn begun).mono ?_
  rintro entered ⟨sound, -, -⟩
  exact sound

/-- A job that is run does its work: in the end only the jobs it has given away are still
to be done, and an array that gets them done holds a result that was promised for the
range of the job. -/
theorem run_ensures (excuses : JobExcuses rules total excused) (idle : Nat → Bool) {job : Job}
    {work : Work α} (spans : work.memory.Spans job.window)
    (within : job.window.length ≤ total) (many : 2 ≤ job.window.length) :
    Ensures excused (run rules idle job work) fun result =>
      Finished rules total job.depth (assigned rules job work) result.1 result.2 := by
  have underway := underway_copyBack rules total spans
  have some : 0 < job.window.settled.length := by
    change 0 < job.window.length
    omega
  have length := (underway.spans_of_mem List.mem_cons_self some).length_held
  by_cases ends : rules.Ends job.window.settled.length job.depth
  · have ran : run rules idle job work = (do
        return (← Work.finish { work with memory := work.memory.copyBack job.window } rules
          job.window.settled, [])) := if_pos ends
    rw [ran]
    refine (Work.finish_ensures excuses _ _).bind ?_
    rintro finished ⟨sorted, ran, rfl⟩
    have done := underway.finish rfl some ((excuses.length _ _ ran).trans length) ⟨_, ran⟩
      (.final (length.symm ▸ many) (length.symm ▸ ends) ran)
    exact ⟨⟨_, _, done⟩, by simp⟩
  · have ran : run rules idle job work = (do
        let entered ← enter rules
          { work := { work with memory := work.memory.copyBack job.window }, stack := [] }
          job.window.settled job.depth
        let last ← resume rules idle entered
        return (last.work, last.donated)) := if_neg ends
    rw [ran]
    refine (entered_ensures excuses spans within ends).bind fun entered sound => ?_
    exact (resume_ensures excuses idle sound).bind fun last finished => finished

end RadixSort.SmallJob
