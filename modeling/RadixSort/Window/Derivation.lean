import RadixSort.Memory

/-!
# Derivations of windows

A derivation leads from the window of two whole arrays to a part of them by
narrowing, narrowing with the roles exchanged, and copying back. Narrowing may be
refused, which leaves no window; copying back also changes the arrays.
-/
namespace RadixSort

variable {α : Type}

/-- One step of a derivation. -/
inductive Derive where
  | sub (offset length : Nat)
  | flip (offset length : Nat)
  | copyBack
  deriving DecidableEq, Repr

namespace Window

/-- The window after one step. -/
def derive (window : Window) : Derive → Except Fault Window
  | .sub offset length => window.sub offset length
  | .flip offset length => window.flip offset length
  | .copyBack => .ok window.settled

/-- The window after the steps of a derivation. -/
def deriveAll (window : Window) (steps : List Derive) : Except Fault Window :=
  steps.foldlM derive window

end Window

/-- How far a derivation moves the start of a window. -/
def Derive.shift : List Derive → Nat
  | [] => 0
  | .sub offset _ :: rest => offset + shift rest
  | .flip offset _ :: rest => offset + shift rest
  | .copyBack :: rest => shift rest

/-- Whether an odd number of exchanges follows the last copy. -/
def Derive.exchanged : List Derive → Bool → Bool
  | [], parity => parity
  | .sub _ _ :: rest, parity => exchanged rest parity
  | .flip _ _ :: rest, parity => exchanged rest (!parity)
  | .copyBack :: rest, _ => exchanged rest false

end RadixSort
