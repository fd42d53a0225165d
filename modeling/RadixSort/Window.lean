import RadixSort.Word

/-!
# Windows

The engine keeps every range twice, once in the caller's array, the primary one,
and once in a scratch array of the same length. A window names such a range: where
it starts, how long it is, and which of the two arrays holds its valid data. The
start is one number for both arrays, so the two copies of a range cannot drift
apart.

Narrowing a window and narrowing it with the roles exchanged are the only ways
to make a new one, and both refuse a part that reaches past the end.
-/
namespace RadixSort

/-- The two arrays that hold every range. -/
inductive Side where
  | primary
  | scratch
  deriving DecidableEq, Repr

/-- The other array. -/
def Side.other : Side → Side
  | .primary => .scratch
  | .scratch => .primary

/-- A range of both arrays, and which of them is active. -/
structure Window where
  offset : Nat
  length : Nat
  /-- The valid data is in the scratch array. -/
  flipped : Bool
  deriving DecidableEq, Repr

namespace Window

/-- The whole of two arrays of length `length`, with the primary active. -/
def whole (length : Nat) : Window := ⟨0, length, false⟩

/-- The array that holds the valid data. -/
def activeSide (window : Window) : Side := if window.flipped then .scratch else .primary

/-- The array that is free to be written. -/
def shadowSide (window : Window) : Side := window.activeSide.other

/-- The window with the primary array active. -/
def settled (window : Window) : Window := { window with flipped := false }

/-- Narrow to the part that starts at `offset` and has length `length`. -/
def sub (window : Window) (offset length : Nat) : Except Fault Window := do
  let stop ← Word.checked (offset + length)
  if stop ≤ window.length then
    return { window with offset := window.offset + offset, length := length }
  else
    throw .subRangeOutOfBounds

/-- Narrow to a part whose data has just been written to the shadow side. -/
def flip (window : Window) (offset length : Nat) : Except Fault Window := do
  let stop ← Word.checked (offset + length)
  if stop ≤ window.length then
    return ⟨window.offset + offset, length, !window.flipped⟩
  else
    throw .flipRangeOutOfBounds

/-- Narrowing succeeds exactly for a part that lies within the window. -/
theorem sub_eq_ok_iff {window part : Window} {offset length : Nat} :
    window.sub offset length = .ok part ↔
      offset + length < Word.bound ∧ offset + length ≤ window.length ∧
        part = ⟨window.offset + offset, length, window.flipped⟩ := by
  simp only [sub, bind_eq_ok, Word.checked_eq_ok_iff]
  constructor
  · rintro ⟨stop, ⟨fits, rfl⟩, rest⟩
    split at rest
    · exact ⟨fits, ‹_›, (Except.ok.inj rest).symm⟩
    · simp [throw, throwThe, MonadExceptOf.throw] at rest
  · rintro ⟨fits, inside, rfl⟩
    exact ⟨_, ⟨fits, rfl⟩, by simp [inside, pure, Except.pure]⟩

/-- Exchanging the roles of a part succeeds exactly for one within the window. -/
theorem flip_eq_ok_iff {window part : Window} {offset length : Nat} :
    window.flip offset length = .ok part ↔
      offset + length < Word.bound ∧ offset + length ≤ window.length ∧
        part = ⟨window.offset + offset, length, !window.flipped⟩ := by
  simp only [flip, bind_eq_ok, Word.checked_eq_ok_iff]
  constructor
  · rintro ⟨stop, ⟨fits, rfl⟩, rest⟩
    split at rest
    · exact ⟨fits, ‹_›, (Except.ok.inj rest).symm⟩
    · simp [throw, throwThe, MonadExceptOf.throw] at rest
  · rintro ⟨fits, inside, rfl⟩
    exact ⟨_, ⟨fits, rfl⟩, by simp [inside, pure, Except.pure]⟩

end Window

end RadixSort
