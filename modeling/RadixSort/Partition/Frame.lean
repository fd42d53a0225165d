import RadixSort.Partition.Rule
import RadixSort.Partition.Scatter
import RadixSort.Partition.Cycle

/-!
# Partitioning a range by one digit

A range whose valid data is in the primary array is partitioned by the digit at
one depth, either by a scatter through the scratch array or in place; the result
is in the primary array in both cases. The frame that comes out remembers the
range, the depth, and the buckets that still have to be sorted, in order. Empty
buckets are left out from the start.
-/
namespace RadixSort

/-- A bucket that is not empty, by its place within the partitioned range. -/
structure Bucket where
  start : Nat
  length : Nat
  deriving DecidableEq, Repr

namespace Bucket

variable {radix : Nat}

/-- Put the non-empty buckets below `count` before those already listed. -/
def gather (boundaries : Vector Nat (radix + 1)) :
    (count : Nat) → count ≤ radix → List Bucket → Except Fault (List Bucket)
  | 0, _, listed => .ok listed
  | count + 1, inside, listed => do
    let start := boundaries[count]
    let length ← Word.checkedSub boundaries[count + 1] start
    gather boundaries count (Nat.le_of_succ_le inside)
      (if length = 0 then listed else ⟨start, length⟩ :: listed)

/-- The non-empty buckets between consecutive boundaries, in order. -/
def ofBoundaries (boundaries : Vector Nat (radix + 1)) : Except Fault (List Bucket) :=
  gather boundaries radix (Nat.le_refl radix) []

theorem length_gather_le {boundaries : Vector Nat (radix + 1)} {count : Nat}
    {inside : count ≤ radix} {listed buckets : List Bucket}
    (ok : gather boundaries count inside listed = .ok buckets) :
    buckets.length ≤ listed.length + count := by
  induction count generalizing listed with
  | zero =>
    obtain rfl := Except.ok.inj ok
    simp
  | succ count ih =>
    obtain ⟨length, -, rest⟩ := bind_eq_ok.mp ok
    have := ih rest
    split at this <;> simp_all <;> omega

/-- There are no more non-empty buckets than digits. -/
theorem length_ofBoundaries_le {boundaries : Vector Nat (radix + 1)} {buckets : List Bucket}
    (ok : ofBoundaries boundaries = .ok buckets) : buckets.length ≤ radix := by
  simpa using length_gather_le ok

end Bucket

/-- A range partitioned by one digit, and its buckets that are still unsorted. -/
structure Frame where
  window : Window
  depth : Nat
  remaining : List Bucket
  deriving DecidableEq, Repr

/-- A range after a partition, with the boundaries of its buckets. -/
structure Partitioned (α : Type) (radix : Nat) where
  memory : Memory α
  window : Window
  boundaries : Vector Nat (radix + 1)

namespace Partitioned

variable {α : Type} {radix : Nat}

/-- Move the elements of a range to their buckets, through the scratch array or
in place. The window that comes out has its valid data in the primary array if
the one that went in had. -/
def move (inPlace : Bool) (key : α → Fin radix) (sizes : Vector Nat radix)
    (memory : Memory α) (window : Window) : Except Fault (Memory α × Window) := do
  let elements := memory.active window
  if inPlace then
    let permuted ← Cycle.partition key sizes elements
    return (memory.fillActive window permuted.toList, window)
  else
    let layout ← Layout.checkedOfSizes sizes
    let writes ← Scatter.checkedRising key layout.starts elements.toList
    let written ← memory.writeShadow window writes
    let flipped ← window.flip 0 window.length
    return (written.copyBack flipped, flipped.settled)

/-- Partition a range by the digit at `depth`. -/
def ofRange (rule : DigitRule α radix) (inPlace : Bool) (memory : Memory α) (window : Window)
    (depth : Nat) : Except Fault (Partitioned α radix) := do
  let elements := (memory.active window).toList
  rule.readAll elements depth
  let key := (rule.digit · depth)
  let sizes ← checkedHistogram key elements
  let (memory, moved) ← move inPlace key sizes memory window
  let layout ← Layout.checkedOfSizes sizes
  if layout.total = window.length then
    return ⟨memory, moved, layout.boundaries window.length⟩
  else
    throw .bucketSizesMismatch

/-- The frame of a partitioned range, with all its buckets unsorted. -/
def frame (partitioned : Partitioned α radix) (depth : Nat) : Except Fault Frame := do
  return ⟨partitioned.window, depth, ← Bucket.ofBoundaries partitioned.boundaries⟩

end Partitioned

end RadixSort
