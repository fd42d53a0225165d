import RadixSort.Fault

/-!
# The comparison sort

Ranges that are too short for counting, and ranges whose elements share all their
digits, are sorted by comparison. An element may refuse to be compared; a range of
two or more elements cannot be sorted without comparing each of them, so one such
element makes the sort of the whole range end in its fault.

The sort is stable. Nothing here relies on that: an engine takes any function on
lists in its place.
-/
namespace RadixSort

/-- A comparison, and the faults of elements that refuse to be compared. -/
structure Comparison (α : Type) where
  compare : α → α → Ordering
  refusal? : α → Option Fault := fun _ => none

namespace Comparison

variable {α : Type}

/-- Sort a range of two or more elements. -/
def sort (comparison : Comparison α) (elements : List α) : Except Fault (List α) :=
  match elements.findSome? comparison.refusal? with
  | some fault => .error fault
  | none => .ok (elements.mergeSort fun x y => (comparison.compare x y).isLE)

end Comparison

end RadixSort
