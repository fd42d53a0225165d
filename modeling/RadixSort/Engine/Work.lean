import RadixSort.Settings
import RadixSort.Memory
import RadixSort.Partition.Rule

/-!
# What all jobs of one sort share

A sort is given by rules that do not change while it runs: the settings, the
digit rule, the comparison sort that finishes short ranges, and the depth beyond
which no digit is asked for. What changes is the memory, the counters, the list of
ranges that are in their final place, and the number of elements that are not. That
number is kept only on request and in one machine word, whose subtraction wraps.
-/
namespace RadixSort

/-- What one sort is to do. -/
structure Rules (α : Type) (radix : Nat) where
  settings : Settings
  digits : DigitRule α radix
  /-- Sorts ranges that are not partitioned any further. -/
  fallback : List α → Except Fault (List α)
  /-- Digits at this depth and deeper are never asked for. -/
  maxDepth : Nat

/-- Counters that describe how a sort was carried out. -/
structure Stats where
  /-- Ranges partitioned by several tasks. -/
  bigSteps : Nat := 0
  /-- Sequential jobs, donated ones included. -/
  smallJobs : Nat := 0
  /-- Jobs made from the buckets a busy worker gave away. -/
  donatedJobs : Nat := 0
  /-- Ranges finished by comparison. -/
  comparisonSorts : Nat := 0
  deriving DecidableEq, Repr

/-- Sequential jobs that do not come from donations. -/
def Stats.ownJobs (stats : Stats) : Nat := stats.smallJobs - stats.donatedJobs

/-- The state that all jobs of one sort share. -/
structure Work (α : Type) where
  memory : Memory α
  stats : Stats
  /-- Elements not yet in their final place, if this is tracked. -/
  rest : UInt64
  /-- Ranges in their final place, the latest first. -/
  finished : List Window

/-- A range to be sorted from a depth on. -/
structure Job where
  window : Window
  depth : Nat
  deriving DecidableEq, Repr

namespace Work

variable {α : Type} {radix : Nat}

/-- The work of a sort that has not begun. -/
def fresh (data : Array α) : Work α := ⟨⟨data, data⟩, {}, data.size.toUInt64, []⟩

/-- Record that a range has reached its final place. -/
def settle (work : Work α) (settings : Settings) (window : Window) : Work α :=
  { work with
    rest := if settings.trackRemaining then work.rest - window.length.toUInt64 else work.rest
    finished := window :: work.finished }

/-- Ranges longer than this are partitioned by several tasks; `total` is the
length of the whole input. -/
def sequentialThreshold (work : Work α) (settings : Settings) (total : Nat) : Nat :=
  let base := if settings.trackRemaining then work.rest.toNat else total
  max settings.minParallelChunk (base / settings.threads)

/-- The work as it is when others have finished `settled` elements more. Elements of a range of
`length` that a task has in hand are not among them. -/
def settledElsewhere (work : Work α) (length settled : Nat) : Work α :=
  { work with rest := work.rest - (min settled (work.rest.toNat - length)).toUInt64 }

/-- Finish a range by comparison. -/
def finish (work : Work α) (rules : Rules α radix) (window : Window) :
    Except Fault (Work α) := do
  let sorted ← rules.fallback (work.memory.active window).toList
  let stats := { work.stats with comparisonSorts := work.stats.comparisonSorts + 1 }
  let memory := work.memory.fillActive window sorted
  return { work with memory, stats }.settle rules.settings window

end Work

end RadixSort
