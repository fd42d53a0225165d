/-!
# How a call can end without sorting

A call ends early in one of two ways. It is *refused*, before any element has
moved, for a reason the caller can mend; or it is *abandoned* at a fault, which
is either raised by a function the caller supplied or is a broken promise of the
machine itself. Every cause is a constructor, and its wording lives in one
function, so a law may speak of causes and never of texts.
-/
namespace RadixSort

/-- A fault abandons the call in which it arises. The last constructor carries
the text of a fault raised by a function or task of the caller; all others are
checks the machine makes on its own arithmetic, windows and partitions. -/
inductive Fault where
  | arithmeticOverflow
  | indexOutOfBounds (length index : Nat)
  | partReversed (start stop : Nat)
  | partOutOfBounds (length stop : Nat)
  | unequalRanges
  | subRangeOutOfBounds
  | flipRangeOutOfBounds
  | bucketSizesMismatch
  | firstBucketMisplaced
  | boundariesDecreasing
  | elementsLeft
  | noWorker
  | raised (text : String)
  deriving DecidableEq, Repr

/-- The text reported for a fault. -/
def Fault.message : Fault → String
  | .arithmeticOverflow => "arithmetic overflow"
  | .indexOutOfBounds length index =>
    "index out of bounds: the len is " ++ toString length ++ " but the index is " ++ toString index
  | .partReversed start stop =>
    "slice index starts at " ++ toString start ++ " but ends at " ++ toString stop
  | .partOutOfBounds length stop =>
    "range end index " ++ toString stop ++ " out of range for slice of length " ++ toString length
  | .unequalRanges => "shadow range must match the original range"
  | .subRangeOutOfBounds => "sub-range out of bounds"
  | .flipRangeOutOfBounds => "flip range out of bounds"
  | .bucketSizesMismatch => "bucket sizes do not add up to the range length"
  | .firstBucketMisplaced => "first bucket must start at the range start"
  | .boundariesDecreasing => "bucket boundaries must be non-decreasing"
  | .elementsLeft => "elements left unsorted"
  | .noWorker => "scheduler needs at least one worker"
  | .raised text => text

/-- The parameters whose value can make a call be refused. -/
inductive Parameter where
  | threads
  | subsortThreshold
  | minParallelChunk
  deriving DecidableEq, Repr

/-- The name under which a parameter is reported. -/
def Parameter.name : Parameter → String
  | .threads => "threads"
  | .subsortThreshold => "subsort_threshold"
  | .minParallelChunk => "min_parallel_chunk"

/-- The reasons for refusing a call. All of them are found before the first
element moves. An invalid parameter is one that is zero, and its reason is the
bound it breaks. -/
inductive SortError where
  | invalidConfig (parameter reason : String)
  | allocation (elements : Nat)
  | threadSpawn (text : String)
  deriving DecidableEq, Repr

/-- The bound that every checked parameter has to meet, as it is reported. -/
def SortError.lowerBound : String := "must be >= 1"

/-- The refusal of a parameter that is zero. -/
def SortError.zero (parameter : Parameter) : SortError :=
  .invalidConfig parameter.name lowerBound

/-- The text reported for a refusal. -/
def SortError.message : SortError → String
  | .invalidConfig parameter reason => "Invalid parameter '" ++ parameter ++ "': " ++ reason
  | .allocation elements =>
    "Failed to allocate a buffer for " ++ toString elements ++ " elements"
  | .threadSpawn text => "Failed to spawn worker thread: " ++ text

/-- A refusal that was passed on from a failing service of the machine names that
failure as its source; a refusal of a parameter is its own cause. -/
def SortError.hasSource : SortError → Bool
  | .invalidConfig _ _ => false
  | .allocation _ => true
  | .threadSpawn _ => true

/-- The end of a sorting call. A sorted end carries the caller's array and a
report, a refused end the array as the caller gets it back. An abandoned call
promises nothing about the array. -/
inductive Outcome (α ρ : Type) where
  | sorted (data : Array α) (report : ρ)
  | refused (error : SortError) (data : Array α)
  | abandoned (fault : Fault)
  deriving DecidableEq, Repr

/-- A call that has been started ends with a result or is abandoned. -/
def Outcome.ofStarted {α ρ : Type} : Except Fault (Array α × ρ) → Outcome α ρ
  | .ok (data, report) => .sorted data report
  | .error fault => .abandoned fault

/-- Two parts of a computation that may end early succeed together exactly if the
first succeeds and the second succeeds on its result. -/
theorem bind_eq_ok {ε α β : Type} {first : Except ε α} {second : α → Except ε β} {result : β} :
    (first >>= second) = .ok result ↔ ∃ value, first = .ok value ∧ second value = .ok result := by
  cases first <;> simp [bind, Except.bind]

end RadixSort
