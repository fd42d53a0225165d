import RadixSort.Engine.Work
import RadixSort.Count.Snake
import RadixSort.Partition.Frame

/-!
# Partitioning a long range by several tasks

A long range is divided into chunks of one length, the last one being what is
left. In the first phase every chunk is counted by a task of its own, which
stores its counts as the chunk's row of a table. The task that finishes last
turns the counts into the ends of the chunks' shares, bucket by bucket. In the
second phase every chunk is scattered by a task of its own into the shadow side
of the range, each bucket's share from its end downwards. The first chunk comes
first in every bucket, so the cursors it ends with are the starts of the buckets;
they replace its row.

A task does nothing but its own chunk's part. How many tasks of a phase are still
to finish is the only thing they count together.
-/
namespace RadixSort

/-- A partition of one range in progress. -/
structure RadixStep (radix : Nat) where
  window : Window
  depth : Nat
  /-- The number of chunks. -/
  parts : Nat
  /-- The length of every chunk but the last. -/
  chunkLength : Nat
  /-- Tasks of the present phase that have not finished. -/
  left : Nat
  /-- The counts of the chunks, and from the second phase on the ends of their shares. -/
  table : CountTable radix
  deriving DecidableEq, Repr

namespace RadixStep

variable {α : Type} {radix : Nat}

/-- Divide a range into chunks that are no longer than `threshold`. The table has
one cell for each chunk and bucket, and their number has to fit a machine word. -/
def start (window : Window) (depth threshold : Nat) : Except Fault (RadixStep radix) := do
  let parts := max (Word.ceilDiv window.length threshold) 1
  let chunkLength := Word.ceilDiv window.length parts
  let _ ← Word.checked (parts * radix)
  return ⟨window, depth, parts, chunkLength, parts,
    Array.replicate parts (Vector.replicate radix 0)⟩

/-- Where a chunk begins and where it ends, within the range. -/
def chunk (step : RadixStep radix) (part : Nat) : Except Fault (Nat × Nat) := do
  let reached ← Word.checked ((part + 1) * step.chunkLength)
  let stop := min reached step.window.length
  return (min (part * step.chunkLength) stop, stop)

/-- The elements of a chunk. -/
def elements (step : RadixStep radix) (memory : Memory α) (part : Nat) :
    Except Fault (List α) := do
  let (begin, stop) ← step.chunk part
  let cells ← RadixSort.part (memory.active step.window) begin stop
  return cells.toList

/-- Replace the row of a chunk. -/
def storeRow (step : RadixStep radix) (part : Nat) (row : Vector Nat radix) :
    Except Fault (RadixStep radix) :=
  if part < step.table.size then
    .ok { step with table := step.table.setIfInBounds part row }
  else
    .error (.indexOutOfBounds step.table.size part)

/-- Count one chunk. -/
def count (rule : DigitRule α radix) (memory : Memory α) (step : RadixStep radix) (part : Nat) :
    Except Fault (RadixStep radix) := do
  let elements ← step.elements memory part
  rule.readAll elements step.depth
  let counts ← checkedHistogram (rule.digit · step.depth) elements
  let counted ← step.storeRow part counts
  return { counted with left := counted.left - 1 }

/-- Turn the counts into the ends of the shares. -/
def sumUp (step : RadixStep radix) : Except Fault (RadixStep radix) := do
  let (table, total) ← step.table.checkedAccumulate
  if total = step.window.length then
    return { step with table }
  else
    throw .bucketSizesMismatch

/-- Turn the counts into the ends of the shares, for the tasks of the second phase. -/
def layOut (step : RadixStep radix) : Except Fault (RadixStep radix) := do
  let summed ← step.sumUp
  return { summed with left := summed.parts }

/-- Scatter one chunk. -/
def distribute (rule : DigitRule α radix) (memory : Memory α) (step : RadixStep radix)
    (part : Nat) : Except Fault (RadixStep radix × Memory α) := do
  let elements ← step.elements memory part
  rule.readAll elements step.depth
  match step.table[part]? with
  | none => throw (.indexOutOfBounds step.table.size part)
  | some ends =>
    let (writes, starts) ← Scatter.falling (rule.digit · step.depth) ends elements
    let memory ← memory.writeShadow step.window writes
    let scattered ← if part = 0 then step.storeRow 0 starts else pure step
    return ({ scattered with left := scattered.left - 1 }, memory)

/-- Whether no boundary lies before its predecessor. -/
def nonDecreasing (boundaries : Vector Nat (radix + 1)) : Bool :=
  (List.finRange radix).all fun bucket => boundaries[bucket.val] ≤ boundaries[bucket.val + 1]

/-- The buckets of a range after both phases. -/
def buckets (step : RadixStep radix) : Except Fault (List Bucket) :=
  match step.table[0]? with
  | none => .error (.indexOutOfBounds step.table.size 0)
  | some starts =>
    let boundaries := starts.push step.window.length
    if boundaries[0] ≠ 0 then .error .firstBucketMisplaced
    else if nonDecreasing boundaries then Bucket.ofBoundaries boundaries
    else .error .boundariesDecreasing

end RadixStep

end RadixSort
