import RadixSort.Chunks
import RadixSort.Engine.Work
import RadixSort.Partition.Cycle

/-!
# The sort as a plain recursion

What the engine does with tasks, windows and a stack of frames is said here as a
recursion on lists, with no memory and no schedule. A long range is grouped by
its digits chunk by chunk, and each chunk's share of a bucket is reversed. Any
other range is one job, which groups it in its own order, or in the order that the
permutation in place leaves, and goes on with each bucket. Ranges that are short
or have no digits left go to the fallback, and a single element is left alone.

The recursion counts what the engine counts, apart from donated jobs, which are a
matter of the schedule.
-/
namespace RadixSort.Recursion

variable {α : Type} {radix : Nat}

/-- What the recursion is given: digits that nobody refuses, and a fallback that
cannot fail. -/
structure Problem (α : Type) (radix : Nat) where
  settings : Settings
  digit : α → Nat → Fin radix
  fallback : List α → List α
  maxDepth : Nat
  /-- The length of the whole input. -/
  total : Nat

/-- The same problem as rules for the engine. -/
def Problem.rules (problem : Problem α radix) : Rules α radix where
  settings := problem.settings
  digits := .ofTotal problem.digit
  fallback xs := .ok (problem.fallback xs)
  maxDepth := problem.maxDepth

/-- The counters that no schedule changes. -/
structure Counts where
  bigSteps : Nat := 0
  comparisonSorts : Nat := 0
  ownJobs : Nat := 0
  deriving DecidableEq, Repr

/-- The counters of two parts of a sort together. -/
def Counts.add (first second : Counts) : Counts :=
  ⟨first.bigSteps + second.bigSteps, first.comparisonSorts + second.comparisonSorts,
    first.ownJobs + second.ownJobs⟩

/-- A sorted range and what it took. -/
structure Result (α : Type) where
  elements : List α
  counts : Counts := {}
  deriving DecidableEq, Repr

/-- Put sorted buckets one after the other. -/
def join (buckets : List (Result α)) : Result α where
  elements := buckets.flatMap Result.elements
  counts := (buckets.map Result.counts).foldl Counts.add {}

/-- The elements of each bucket, in their own order. -/
def group (key : α → Fin radix) (elements : List α) : List (List α) :=
  (List.finRange radix).map fun bucket => elements.filter (key · = bucket)

/-- The elements of each bucket, chunk by chunk, each chunk's share reversed. -/
def groupChunks (key : α → Fin radix) (chunkLength : Nat) (elements : List α) :
    List (List α) :=
  (List.finRange radix).map fun bucket =>
    (chunksOf chunkLength elements).flatMap fun chunk => (chunk.filter (key · = bucket)).reverse

/-- The order in which a job finds the elements of its buckets. -/
def arrange (inPlace : Bool) (key : α → Fin radix) (elements : List α) : List α :=
  if inPlace then
    match Cycle.partition key (histogram key elements) elements.toArray with
    | .ok permuted => permuted.toList
    | .error _ => elements
  else
    elements

/-- Sort the elements of one range in one job. -/
def small (problem : Problem α radix) (elements : List α) (depth : Nat) : Result α :=
  if final : elements.length < problem.settings.subsortThreshold ∨ problem.maxDepth ≤ depth then
    { elements := problem.fallback elements, counts := { comparisonSorts := 1 } }
  else
    let key := (problem.digit · depth)
    join ((group key (arrange problem.settings.inPlace key elements)).map fun bucket =>
      if bucket.length ≤ 1 then { elements := bucket } else small problem bucket (depth + 1))
termination_by problem.maxDepth - depth

/-- Ranges longer than this are partitioned by several tasks. -/
def sequentialThreshold (problem : Problem α radix) : Nat :=
  max problem.settings.minParallelChunk (problem.total / problem.settings.threads)

/-- The length of the chunks of a long range. -/
def chunkLength (problem : Problem α radix) (length : Nat) : Nat :=
  Word.ceilDiv length (max (Word.ceilDiv length (sequentialThreshold problem)) 1)

/-- Sort the elements of one range by as many tasks as its length calls for. -/
def top (problem : Problem α radix) (elements : List α) (depth : Nat) : Result α :=
  if long : problem.settings.parallelStep ∧ depth < problem.maxDepth ∧
      sequentialThreshold problem < elements.length then
    let key := (problem.digit · depth)
    let sorted := join ((groupChunks key (chunkLength problem elements.length) elements).map
      fun bucket => if bucket.length ≤ 1 then { elements := bucket }
        else top problem bucket (depth + 1))
    { sorted with counts := sorted.counts.add { bigSteps := 1 } }
  else
    let sorted := small problem elements depth
    { sorted with counts := sorted.counts.add { ownJobs := 1 } }
termination_by problem.maxDepth - depth

end RadixSort.Recursion
