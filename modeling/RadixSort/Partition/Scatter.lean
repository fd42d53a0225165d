import RadixSort.Word
import RadixSort.Memory
import RadixSort.Count.Histogram

/-!
# Scattering elements to their buckets

A scatter goes through the elements of one chunk and sends each to the next slot
of its bucket. Every bucket has a cursor. Rising cursors start at the first slot
and keep the order of the elements in each bucket; falling cursors start one past
the last slot and reverse it.

The writes of a scatter depend on its elements and cursors alone, never on what
the destination holds. They are therefore a list of slots and values, and
scatters that run at the same time are interleavings of their lists.
-/
namespace RadixSort.Scatter

variable {α : Type} {radix : Nat}

/-- The writes of a scatter with rising cursors. -/
def rising (key : α → Fin radix) : Vector Nat radix → List α → List (SlotWrite α)
  | _, [] => []
  | next, x :: rest =>
    (next.get (key x), x) :: rising key (assign next (key x) (next.get (key x) + 1)) rest

/-- The writes of a scatter with rising cursors that are words. -/
def checkedRising (key : α → Fin radix) :
    Vector Nat radix → List α → Except Fault (List (SlotWrite α))
  | _, [] => .ok []
  | next, x :: rest => do
    let raised ← Word.checked (next.get (key x) + 1)
    let writes ← checkedRising key (assign next (key x) raised) rest
    return (next.get (key x), x) :: writes

/-- The writes of a scatter with falling cursors, and the cursors it leaves. A
cursor that is at zero cannot fall any further. -/
def falling (key : α → Fin radix) :
    Vector Nat radix → List α → Except Fault (List (SlotWrite α) × Vector Nat radix)
  | next, [] => .ok ([], next)
  | next, x :: rest => do
    let slot ← Word.checkedSub (next.get (key x)) 1
    let (writes, last) ← falling key (assign next (key x) slot) rest
    return ((slot, x) :: writes, last)

end RadixSort.Scatter
