import RadixSort.Engine.Work
import RadixSort.Partition.Frame

/-!
# Sequential jobs

A sequential job sorts one range on its own. It keeps its recursion as a stack of
frames, one for each depth it has entered, so that it can give work away: after
every bucket it handles, it may ask whether a worker is idle, and if one is, the
coarsest frame that is still its own is dissolved into jobs, one for each of its
unsorted buckets. Frames are dissolved from the far end of the stack, and how many
of them have been is one number.

Whether a worker is idle is decided outside, so a job is given a sequence of
answers and takes the next one each time it asks. A job is a function of its
range, the shared work and these answers.

The stack is bounded by the depths, and a frame holds at most one entry for each
bucket. Giving a frame the weight of its unsorted buckets times a power of the
radix that grows towards the near depths makes every step lower the total.
-/
namespace RadixSort.SmallJob

variable {α : Type} {radix : Nat}

/-- A job in progress. -/
structure State (α : Type) where
  work : Work α
  /-- The frame entered last comes first. -/
  stack : List Frame
  /-- How many frames at the far end of the stack have been given away. -/
  dissolved : Nat := 0
  /-- Jobs made from frames that were given away, in order. -/
  donated : List Job := []
  /-- How often the job has asked for an idle worker. -/
  asked : Nat := 0

/-- A job after one step. -/
inductive Progress (α : Type) where
  | running (state : State α)
  | finished (state : State α)

/-- Make the unsorted buckets of a frame into jobs of their own. A bucket of one
element is already in its place. -/
def giveAway (settings : Settings) (frame : Frame) :
    List Bucket → Work α → Except Fault (List Job × Work α)
  | [], work => .ok ([], work)
  | bucket :: rest, work => do
    let window ← frame.window.sub bucket.start bucket.length
    if bucket.length = 1 then
      giveAway settings frame rest (work.settle settings window)
    else
      let stats := { work.stats with donatedJobs := work.stats.donatedJobs + 1 }
      let (jobs, work) ← giveAway settings frame rest { work with stats }
      return (⟨window, frame.depth + 1⟩ :: jobs, work)

/-- Give away the coarsest frame that is still the job's own. -/
def dissolve (settings : Settings) (state : State α) : Except Fault (State α) :=
  if state.dissolved < state.stack.length then
    let position := state.stack.length - 1 - state.dissolved
    match state.stack[position]? with
    | some frame => do
      let (jobs, work) ← giveAway settings frame frame.remaining state.work
      return { state with
        work
        stack := state.stack.set position { frame with remaining := [] }
        dissolved := state.dissolved + 1
        donated := state.donated ++ jobs }
    | none => .error (.indexOutOfBounds state.stack.length state.dissolved)
  else
    .error (.indexOutOfBounds state.stack.length state.dissolved)

/-- Partition a range and enter it. -/
def enter (rules : Rules α radix) (state : State α) (window : Window) (depth : Nat) :
    Except Fault (State α) := do
  let partitioned ←
    Partitioned.ofRange rules.digits rules.settings.inPlace state.work.memory window depth
  let frame ← partitioned.frame depth
  return { state with
    work := { state.work with memory := partitioned.memory }
    stack := frame :: state.stack }

/-- Sort one bucket of two or more elements, or enter it. -/
def handle (rules : Rules α radix) (state : State α) (window : Window) (depth : Nat) :
    Except Fault (State α) := do
  if window.length < rules.settings.subsortThreshold ∨ rules.maxDepth ≤ depth then
    return { state with work := ← state.work.finish rules window }
  else
    enter rules state window depth

/-- Ask for an idle worker, and give work away if there is one. -/
def share (settings : Settings) (idle : Nat → Bool) (state : State α) :
    Except Fault (State α) :=
  if settings.workSharing then
    let answered := { state with asked := state.asked + 1 }
    if idle state.asked then dissolve settings answered else .ok answered
  else
    .ok state

/-- Handle the next bucket of the nearest frame, or leave that frame. -/
def step (rules : Rules α radix) (idle : Nat → Bool) (state : State α) :
    Except Fault (Progress α) :=
  match state.stack with
  | [] => .ok (.finished state)
  | top :: below =>
    match top.remaining with
    | [] =>
      let left := { state with stack := below }
      .ok (if state.dissolved < below.length then .running left else .finished left)
    | bucket :: remaining => do
      let state := { state with stack := { top with remaining } :: below }
      let window ← top.window.sub bucket.start bucket.length
      if bucket.length = 1 then
        return .running { state with work := state.work.settle rules.settings window }
      else
        let handled ← handle rules state window (top.depth + 1)
        return .running (← share rules.settings idle handled)

/-- What a bucket is worth when so many levels can be entered below it: more than all
the buckets of a frame on the next level and the frame itself. -/
def bucketWeight (radix : Nat) : (levels : Nat) → Nat
  | 0 => 1
  | levels + 1 => (radix + 2) * bucketWeight radix levels

/-- How much a frame can still do: its unsorted buckets and the frame itself. -/
def frameWeight (radix maxDepth : Nat) (frame : Frame) : Nat :=
  (frame.remaining.length + 1) * bucketWeight radix (maxDepth - frame.depth)

/-- How much a job can still do. -/
def stackWeight (radix maxDepth : Nat) : List Frame → Nat
  | [] => 0
  | frame :: below => frameWeight radix maxDepth frame + stackWeight radix maxDepth below

theorem bucketWeight_pos (radix levels : Nat) : 0 < bucketWeight radix levels := by
  induction levels with
  | zero => exact Nat.one_pos
  | succ levels ih => exact Nat.mul_pos (Nat.succ_pos _) ih

theorem frameWeight_pos (radix maxDepth : Nat) (frame : Frame) :
    0 < frameWeight radix maxDepth frame :=
  Nat.mul_pos (Nat.succ_pos _) (bucketWeight_pos radix _)

@[simp] theorem stackWeight_cons (radix maxDepth : Nat) (frame : Frame) (stack : List Frame) :
    stackWeight radix maxDepth (frame :: stack) =
      frameWeight radix maxDepth frame + stackWeight radix maxDepth stack :=
  rfl

/-- Emptying a frame anywhere in the stack does not make it heavier. -/
theorem stackWeight_emptied_le (radix maxDepth : Nat) (stack : List Frame) (position : Nat)
    (frame : Frame) (found : stack[position]? = some frame) :
    stackWeight radix maxDepth (stack.set position { frame with remaining := [] }) ≤
      stackWeight radix maxDepth stack := by
  induction stack generalizing position with
  | nil => simp at found
  | cons head rest ih =>
    cases position with
    | zero =>
      obtain rfl : head = frame := by simpa using found
      simp only [List.set_cons_zero, stackWeight_cons, frameWeight, List.length_nil]
      exact Nat.add_le_add_right (Nat.mul_le_mul_right _ (by omega)) _
    | succ position =>
      have rest_le := ih position (by simpa using found)
      simp [rest_le]

theorem dissolve_stackWeight_le {settings : Settings} {state next : State α}
    (ok : dissolve settings state = .ok next) (radix maxDepth : Nat) :
    stackWeight radix maxDepth next.stack ≤ stackWeight radix maxDepth state.stack := by
  unfold dissolve at ok
  split at ok
  · dsimp only at ok
    split at ok
    · rename_i frame found
      obtain ⟨⟨jobs, work⟩, -, rest⟩ := bind_eq_ok.mp ok
      obtain rfl : _ = next := Except.ok.inj rest
      exact stackWeight_emptied_le radix maxDepth state.stack _ frame found
    · simp at ok
  · simp at ok

theorem share_stackWeight_le {settings : Settings} {idle : Nat → Bool} {state next : State α}
    (ok : share settings idle state = .ok next) (radix maxDepth : Nat) :
    stackWeight radix maxDepth next.stack ≤ stackWeight radix maxDepth state.stack := by
  unfold share at ok
  split at ok
  · dsimp only at ok
    split at ok
    · exact dissolve_stackWeight_le ok radix maxDepth
    · obtain rfl := Except.ok.inj ok
      exact Nat.le_refl _
  · obtain rfl := Except.ok.inj ok
    exact Nat.le_refl _

/-- A job that handles a bucket leaves its stack alone or enters one frame at the
depth of the bucket, with at most one unsorted entry for each digit. -/
theorem handle_stack {rules : Rules α radix} {state next : State α} {window : Window}
    {depth : Nat} (ok : handle rules state window depth = .ok next) :
    next.stack = state.stack ∨
      depth < rules.maxDepth ∧
        ∃ frame : Frame, frame.depth = depth ∧ frame.remaining.length ≤ radix ∧
          next.stack = frame :: state.stack := by
  unfold handle at ok
  split at ok
  · obtain ⟨work, -, rest⟩ := bind_eq_ok.mp ok
    obtain rfl := Except.ok.inj rest
    exact .inl rfl
  · rename_i large
    obtain ⟨partitioned, -, rest⟩ := bind_eq_ok.mp ok
    obtain ⟨frame, framed, rest⟩ := bind_eq_ok.mp rest
    obtain ⟨buckets, gathered, made⟩ := bind_eq_ok.mp framed
    obtain rfl := Except.ok.inj made
    obtain rfl := Except.ok.inj rest
    exact .inr ⟨by omega, _, rfl, Bucket.length_ofBoundaries_le gathered, rfl⟩

/-- Every step of a job that goes on lowers the weight of its stack. -/
theorem step_stackWeight_lt {rules : Rules α radix} {idle : Nat → Bool} {state next : State α}
    (ok : step rules idle state = .ok (.running next)) :
    stackWeight radix rules.maxDepth next.stack <
      stackWeight radix rules.maxDepth state.stack := by
  unfold step at ok
  split at ok
  · simp at ok
  · rename_i top below stacked
    rw [stacked]
    split at ok
    · have := frameWeight_pos radix rules.maxDepth top
      dsimp only at ok
      split at ok
      · obtain rfl := Progress.running.inj (Except.ok.inj ok)
        simp only [stackWeight_cons]
        omega
      · simp at ok
    · rename_i bucket remaining unsorted
      obtain ⟨window, -, rest⟩ := bind_eq_ok.mp ok
      have shorter : frameWeight radix rules.maxDepth { top with remaining } +
          bucketWeight radix (rules.maxDepth - top.depth) =
            frameWeight radix rules.maxDepth top := by
        simp only [frameWeight, unsorted, List.length_cons]
        rw [Nat.add_mul (remaining.length + 1) 1, Nat.one_mul]
      have positive := bucketWeight_pos radix (rules.maxDepth - top.depth)
      dsimp only at rest
      split at rest
      · obtain rfl := Progress.running.inj (Except.ok.inj rest)
        simp only [stackWeight_cons]
        omega
      · obtain ⟨handled, handledOk, rest⟩ := bind_eq_ok.mp rest
        obtain ⟨shared, sharedOk, rest⟩ := bind_eq_ok.mp rest
        obtain rfl := Progress.running.inj (Except.ok.inj rest)
        have lighter := share_stackWeight_le sharedOk radix rules.maxDepth
        rcases handle_stack handledOk with same | ⟨deep, frame, frameDepth, few, entered⟩
        · simp only [same, stackWeight_cons] at lighter
          simp only [stackWeight_cons]
          omega
        · simp only [entered, stackWeight_cons] at lighter
          simp only [stackWeight_cons]
          have level : rules.maxDepth - top.depth = rules.maxDepth - (top.depth + 1) + 1 := by
            omega
          have entry : frameWeight radix rules.maxDepth frame <
              bucketWeight radix (rules.maxDepth - top.depth) := by
            rw [frameWeight, frameDepth, level, bucketWeight]
            exact Nat.mul_lt_mul_of_pos_right (by omega) (bucketWeight_pos radix _)
          omega

/-- Step until the job is finished. -/
def resume (rules : Rules α radix) (idle : Nat → Bool) (state : State α) :
    Except Fault (State α) :=
  match stepped : step rules idle state with
  | .error fault => .error fault
  | .ok (.finished last) => .ok last
  | .ok (.running next) =>
    have := step_stackWeight_lt stepped
    resume rules idle next
termination_by stackWeight radix rules.maxDepth state.stack

/-- Sort a range from a depth on. The result is the work afterwards and the jobs
that were given away. -/
def run (rules : Rules α radix) (idle : Nat → Bool) (job : Job) (work : Work α) :
    Except Fault (Work α × List Job) := do
  let work := { work with memory := work.memory.copyBack job.window }
  let window := job.window.settled
  if window.length < rules.settings.subsortThreshold ∨ rules.maxDepth ≤ job.depth then
    return (← work.finish rules window, [])
  else
    let entered ← enter rules { work, stack := [] } window job.depth
    let last ← resume rules idle entered
    return (last.work, last.donated)

end RadixSort.SmallJob
