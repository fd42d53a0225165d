import RadixSort.Fault

/-!
# Settings of the most-significant-first engine

Three numbers and four switches. The numbers must not be zero; a call with a
zero is refused, and the first zero in the order of the fields is the one named.
-/
namespace RadixSort

/-- How a most-significant-first sort divides its work. -/
structure Settings where
  /-- Number of workers. -/
  threads : Nat
  /-- Ranges shorter than this go to the comparison sort. -/
  subsortThreshold : Nat := 32
  /-- A range is never divided into chunks shorter than this for the workers. -/
  minParallelChunk : Nat := 32
  /-- Long ranges are partitioned by several workers at once. -/
  parallelStep : Bool := true
  /-- A busy worker hands the coarsest part of its work to an idle one. -/
  workSharing : Bool := true
  /-- What counts as a long range follows the number of unfinished elements. -/
  trackRemaining : Bool := false
  /-- Short ranges are partitioned in place, without the scratch array. -/
  inPlace : Bool := false
  deriving DecidableEq, Repr

namespace Settings

/-- The first number that is zero, if any. -/
def zeroParameter? (settings : Settings) : Option Parameter :=
  if settings.threads = 0 then some .threads
  else if settings.subsortThreshold = 0 then some .subsortThreshold
  else if settings.minParallelChunk = 0 then some .minParallelChunk
  else none

/-- The refusal these settings call for, if any. -/
def refusal? (settings : Settings) : Option SortError :=
  settings.zeroParameter?.map .zero

/-- Settings under which a call is not refused. -/
def Valid (settings : Settings) : Prop :=
  0 < settings.threads ∧ 0 < settings.subsortThreshold ∧ 0 < settings.minParallelChunk

end Settings

end RadixSort
