/-!
# What a call needs from the machine

A call reserves buffers and starts workers before it moves the first element.
Whether the machine grants them is not decided here; a call is given the answers.
-/
namespace RadixSort

/-- The buffers that calls reserve. -/
inductive Reservation where
  /-- The scratch array of the most-significant-first engine. -/
  | shadow
  /-- The second array of the least-significant-first passes. -/
  | auxiliary
  /-- One byte per element, for passes that keep the digits they have read. -/
  | digitCache
  deriving DecidableEq, Repr

/-- The answers of the machine. -/
structure Resources where
  /-- Whether a reservation succeeds. -/
  grants : Reservation → Bool := fun _ => true
  /-- Why a worker could not be started, if one could not. -/
  spawnFailure? : Option String := none

end RadixSort
