import RadixSort.Engine.SmallJob
import RadixSort.Proofs.Engine.Work

/-!
# A job underway

A sequential job is assigned a window and works on nothing else. At any moment its
ledger lists the buckets it still has to sort and the jobs it has given away; the
counters have changed by what it has given away and finished by comparison, and the
finished windows are those it found and its own.

Every operation of a job is a step of this ledger: finishing a range that is sorted
already, finishing one by comparison, dividing one into buckets, and counting a donation.
-/
namespace RadixSort

open Recursion

variable {α : Type} {radix : Nat}

/-- What a job is assigned: a window, what has to become of it, and the shared work as
the job finds it. -/
structure Assignment (α : Type) where
  window : Window
  goal : List α → Counts → Prop
  before : Work α

/-- The shared work while a job is underway. -/
structure Underway (rules : Rules α radix) (total : Nat) (assignment : Assignment α)
    (work : Work α) (pending : List (Obligation α)) (donations : Nat) (settled : List Window)
    (counts : Counts) : Prop where
  ledger : Ledger rules.Gave assignment.window assignment.goal work.memory pending settled counts
  spans : work.memory.Spans assignment.window
  elsewhere : Memory.Elsewhere assignment.window assignment.before.memory work.memory
  finished : work.finished = settled ++ assignment.before.finished
  stats : work.stats = { assignment.before.stats with
    donatedJobs := assignment.before.stats.donatedJobs + donations
    comparisonSorts := assignment.before.stats.comparisonSorts + counts.comparisonSorts }
  steps : counts.bigSteps = 0
  jobs : counts.ownJobs = 0
  accounted : assignment.before.Accounted rules.settings total →
    work.Accounted rules.settings total

namespace Underway

variable {rules : Rules α radix} {total : Nat} {assignment : Assignment α} {work : Work α}
  {pending rest children : List (Obligation α)} {obligation : Obligation α} {donations : Nat}
  {settled : List Window} {counts : Counts}

/-- The order of the obligations does not matter. -/
theorem perm {reordered : List (Obligation α)} (same : pending.Perm reordered)
    (underway : Underway rules total assignment work pending donations settled counts) :
    Underway rules total assignment work reordered donations settled counts :=
  { underway with ledger := underway.ledger.perm same }

/-- The window of an obligation, if not empty, reaches past the end of neither array. -/
theorem spans_of_mem
    (underway : Underway rules total assignment work pending donations settled counts)
    (member : obligation ∈ pending) (some : 0 < obligation.window.length) :
    work.memory.Spans obligation.window :=
  underway.ledger.spans_of_mem underway.spans member some

/-- A change within the window of an obligation is a change within the assignment. -/
theorem elsewhere_of_mem {after : Memory α}
    (underway : Underway rules total assignment work pending donations settled counts)
    (member : obligation ∈ pending)
    (change : Memory.Elsewhere obligation.window work.memory after) :
    Memory.Elsewhere assignment.window work.memory after :=
  change.widen (underway.ledger.part_of_mem member)

/-- A single element that is what was promised is recorded as finished. -/
theorem settle (underway : Underway rules total assignment work (obligation :: rest) donations
      settled counts) (primary : obligation.window.flipped = false)
    (single : obligation.window.length = 1)
    (met : obligation.promise (work.memory.held obligation.window)
      ⟨work.memory.held obligation.window, 0⟩) :
    Underway rules total assignment (work.settle rules.settings obligation.window) rest donations
      (obligation.window :: settled) counts where
  ledger := by
    have part : Ledger rules.Gave obligation.window (Ledger.aim obligation work.memory)
        work.memory [] [obligation.window] 0 := Ledger.of_settled primary (.inl single) met
    have refined := underway.ledger.refine (Memory.Elsewhere.refl _ _) part
    rwa [add_zero] at refined
  spans := underway.spans
  elsewhere := underway.elsewhere
  finished := by
    rw [List.cons_append, ← underway.finished]
    rfl
  stats := underway.stats
  steps := underway.steps
  jobs := underway.jobs
  accounted before := (underway.accounted before).settle _

/-- A range is finished by storing what the fallback gave for it. -/
theorem finish (underway : Underway rules total assignment work (obligation :: rest) donations
      settled counts) (primary : obligation.window.flipped = false)
    (some : 0 < obligation.window.length) {sorted : List α}
    (same : sorted.length = obligation.window.length) (gave : rules.Gave sorted)
    (met : obligation.promise (work.memory.held obligation.window)
      ⟨sorted, { comparisonSorts := 1 }⟩) :
    Underway rules total assignment
      (({ work with
        memory := work.memory.fillActive obligation.window sorted
        stats := { work.stats with comparisonSorts := work.stats.comparisonSorts + 1 } } :
          Work α).settle rules.settings obligation.window)
      rest donations (obligation.window :: settled) (counts + { comparisonSorts := 1 }) where
  ledger := by
    have spans := underway.spans_of_mem List.mem_cons_self some
    have part : Ledger rules.Gave obligation.window (Ledger.aim obligation work.memory)
        (work.memory.fillActive obligation.window sorted) [] [obligation.window]
        { comparisonSorts := 1 } := by
      have held := Memory.held_fillActive spans same
      exact Ledger.of_settled primary (.inr (held.symm ▸ gave)) (held.symm ▸ met)
    exact underway.ledger.refine (Memory.elsewhere_fillActive _ _ _) part
  spans := (underway.elsewhere_of_mem List.mem_cons_self
    (Memory.elsewhere_fillActive _ _ _)).spans underway.spans
  elsewhere := underway.elsewhere.trans (underway.elsewhere_of_mem List.mem_cons_self
    (Memory.elsewhere_fillActive _ _ _))
  finished := by
    rw [List.cons_append, ← underway.finished]
    rfl
  stats := by
    change { work.stats with comparisonSorts := work.stats.comparisonSorts + 1 } = _
    rw [underway.stats, Counts.comparisonSorts_add, Nat.add_assoc]
  steps := underway.steps
  jobs := underway.jobs
  accounted before := Work.Accounted.settle (underway.accounted before) _

/-- A range is divided by a change of the memory within it. -/
theorem divide (underway : Underway rules total assignment work (obligation :: rest) donations
      settled counts) {after : Memory α}
    (change : Memory.Elsewhere obligation.window work.memory after)
    (part : Ledger rules.Gave obligation.window (Ledger.aim obligation work.memory) after
      children [] 0) :
    Underway rules total assignment { work with memory := after } (children ++ rest) donations
      settled counts where
  ledger := by
    have refined := underway.ledger.refine change part
    rwa [List.nil_append, add_zero] at refined
  spans := (underway.elsewhere_of_mem List.mem_cons_self change).spans underway.spans
  elsewhere := underway.elsewhere.trans (underway.elsewhere_of_mem List.mem_cons_self change)
  finished := underway.finished
  stats := underway.stats
  steps := underway.steps
  jobs := underway.jobs
  accounted := underway.accounted

/-- A donation is counted. -/
theorem donate (underway : Underway rules total assignment work pending donations settled counts) :
    Underway rules total assignment
      { work with stats := { work.stats with donatedJobs := work.stats.donatedJobs + 1 } } pending
      (donations + 1) settled counts :=
  { underway with
    stats := by
      change { work.stats with donatedJobs := work.stats.donatedJobs + 1 } = _
      rw [underway.stats, Nat.add_assoc] }

end Underway

namespace SmallJob

/-- The obligations that are left of a frame: one for each bucket that is unsorted. -/
def frameObligations (rules : Rules α radix) (frame : Frame) : List (Obligation α) :=
  bucketObligations frame.window
    (fun elements result => JobSorts rules elements (frame.depth + 1) result) frame.remaining

/-- A frame that a job of the depth `depth` has entered. -/
structure FrameSound (rules : Rules α radix) (total depth : Nat) (frame : Frame) : Prop where
  primary : frame.window.flipped = false
  within : frame.window.length ≤ total
  deeper : depth ≤ frame.depth
  shallow : frame.depth < rules.maxDepth
  buckets : ∀ bucket ∈ frame.remaining,
    0 < bucket.length ∧ bucket.start + bucket.length ≤ frame.window.length

/-- A job given away by a job of the depth `depth`. -/
structure Donated (rules : Rules α radix) (depth : Nat) (job : Job) : Prop where
  primary : job.window.flipped = false
  many : 2 ≤ job.window.length
  deeper : depth < job.depth
  shallow : job.depth ≤ rules.maxDepth

variable {rules : Rules α radix} {total depth : Nat} {assignment : Assignment α}
  {excused : Fault → Prop}

/-- The unsorted buckets of a frame become jobs of their own, apart from those of one
element, which are recorded as finished.

Induct over the buckets. The obligation of a bucket that becomes a job is kept behind
those still to be handled. -/
theorem giveAway_ensures (excuses : JobExcuses rules total excused) {frame : Frame}
    (primary : frame.window.flipped = false) (within : frame.window.length ≤ total)
    (deeper : depth ≤ frame.depth) (shallow : frame.depth < rules.maxDepth)
    (buckets : List Bucket) (inside : ∀ bucket ∈ buckets,
      0 < bucket.length ∧ bucket.start + bucket.length ≤ frame.window.length)
    {work : Work α} {rest : List (Obligation α)} {donations : Nat} {settled : List Window}
    {counts : Counts}
    (underway : Underway rules total assignment work
      (frameObligations rules { frame with remaining := buckets } ++ rest) donations settled
      counts) :
    Ensures excused (giveAway rules.settings frame buckets work) fun given =>
      (∀ job ∈ given.1, Donated rules depth job) ∧ ∃ settled counts,
        Underway rules total assignment given.2 (given.1.map (Job.obligation rules) ++ rest)
          (donations + given.1.length) settled counts := by
  induction buckets generalizing work rest donations settled counts with
  | nil => exact ⟨by simp, settled, counts, underway⟩
  | cons bucket buckets ih =>
    obtain ⟨some, bound⟩ := inside bucket List.mem_cons_self
    have others := fun other member => inside other (List.mem_cons_of_mem bucket member)
    refine (Window.sub_ensures (excuses.fits_length within) bound).bind ?_
    rintro window rfl
    have head : Underway rules total assignment work
        ((⟨frame.window.part bucket,
            fun elements result => JobSorts rules elements (frame.depth + 1) result⟩ :
            Obligation α) ::
          (frameObligations rules { frame with remaining := buckets } ++ rest))
        donations settled counts := underway
    by_cases single : bucket.length = 1
    · rw [if_pos single]
      have spans := head.spans_of_mem List.mem_cons_self some
      have alone : (work.memory.held (frame.window.part bucket)).length ≤ 1 := by
        rw [spans.length_held]
        exact Nat.le_of_eq single
      exact ih others (head.settle primary single (.alone alone))
    · rw [if_neg single]
      have later := ih others ((head.perm List.perm_middle.symm).donate)
      refine later.bind ?_
      rintro ⟨jobs, work⟩ ⟨donated, settled, counts, underway⟩
      constructor
      · intro job member
        rcases List.mem_cons.mp member with rfl | listed
        · exact ⟨primary, by show 2 ≤ bucket.length; omega, Nat.lt_succ_of_le deeper, shallow⟩
        · exact donated job listed
      · refine ⟨settled, counts, ?_⟩
        have moved := underway.perm List.perm_middle
        have number : donations + 1 + jobs.length = donations + (jobs.length + 1) := by omega
        rw [number] at moved
        exact moved

end SmallJob

end RadixSort
