import RadixSort.Fault

/-!
# Digit rules

A digit rule gives every element a digit at every depth. An element may refuse
to be read: the rule then names a fault, and whatever asked for the digit is
abandoned with it. The digit of an element that refuses is never used. An
algorithm therefore looks for refusals first, over all the elements it is going to
read, and is then stated over a function that has a digit for everything.
-/
namespace RadixSort

/-- The digits of the elements, and the faults of those that refuse to be read. -/
structure DigitRule (α : Type) (radix : Nat) where
  digit : α → Nat → Fin radix
  refusal? : α → Nat → Option Fault

namespace DigitRule

variable {α : Type} {radix : Nat}

/-- The rule of a function that never refuses. -/
def ofTotal (digit : α → Nat → Fin radix) : DigitRule α radix where
  digit := digit
  refusal? _ _ := none

/-- The rule of a function that may end in a fault. -/
def ofChecked [Inhabited (Fin radix)] (read : α → Nat → Except Fault (Fin radix)) :
    DigitRule α radix where
  digit x depth :=
    match read x depth with
    | .ok digit => digit
    | .error _ => default
  refusal? x depth :=
    match read x depth with
    | .ok _ => none
    | .error fault => some fault

/-- Read all elements at one depth, in order, up to the first that refuses. -/
def readAll (rule : DigitRule α radix) (elements : List α) (depth : Nat) : Except Fault Unit :=
  match elements.findSome? (rule.refusal? · depth) with
  | some fault => .error fault
  | none => .ok ()

/-- Reading succeeds exactly if no element refuses. -/
theorem readAll_eq_ok_iff (rule : DigitRule α radix) (elements : List α) (depth : Nat) :
    rule.readAll elements depth = .ok () ↔ ∀ x ∈ elements, rule.refusal? x depth = none := by
  rw [← List.findSome?_eq_none_iff, readAll]
  split <;> simp_all

@[simp] theorem readAll_ofTotal (digit : α → Nat → Fin radix) (elements : List α) (depth : Nat) :
    (ofTotal digit).readAll elements depth = .ok () :=
  (readAll_eq_ok_iff _ _ _).mpr fun _ _ => rfl

end DigitRule

end RadixSort
