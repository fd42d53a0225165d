import RadixSort.Window.Derivation

/-!
# Descriptors

A descriptor is what is handed around in place of a window. It keeps two places, where
the valid data of a range starts and where the other copy of the range starts, the length
that both have, and a mark. Narrowing moves both places, exchanging the roles swaps them
and turns the mark over, and copying back goes by the mark and the two places alone. That
both places stay at one index, and that the mark tells which array the valid data is in,
is nothing that a descriptor could check.

A registry is what comes of calling these operations: the two arrays, and every
descriptor obtained so far with the steps of its derivation. Each call may name any of
them. A call that is refused leaves the registry as it is.
-/
namespace RadixSort

variable {α : Type}

/-- A cell of one of the two arrays. -/
structure Place where
  side : Side
  index : Nat
  deriving DecidableEq, Repr

/-- The place so many cells further on in the same array. -/
def Place.advance (place : Place) (distance : Nat) : Place :=
  { place with index := place.index + distance }

namespace Memory

/-- The values from a place on, `length` of them. -/
def read (memory : Memory α) (place : Place) (length : Nat) : List α :=
  ((memory.side place.side).extract place.index (place.index + length)).toList

/-- Store values from a place on. -/
def store (memory : Memory α) (place : Place) (values : List α) : Memory α :=
  memory.modifySide place.side fun array => overwrite array place.index values

end Memory

/-- A range that is kept twice. -/
structure Descriptor where
  /-- Where the valid data starts. -/
  active : Place
  /-- Where the copy starts that is free to be written. -/
  shadow : Place
  length : Nat
  /-- The roles have been exchanged an odd number of times since they were last settled. -/
  flipped : Bool
  deriving DecidableEq, Repr

namespace Descriptor

/-- The descriptor of two whole arrays of length `length`. -/
def whole (length : Nat) : Descriptor := ⟨⟨.primary, 0⟩, ⟨.scratch, 0⟩, length, false⟩

/-- The part that starts at `offset` and has length `length`. -/
def part (descriptor : Descriptor) (offset length : Nat) : Descriptor where
  active := descriptor.active.advance offset
  shadow := descriptor.shadow.advance offset
  length := length
  flipped := descriptor.flipped

/-- Narrow both copies to a part, unless it reaches past the end. -/
def narrow (descriptor : Descriptor) (offset length : Nat) (refusal : Fault) :
    Except Fault Descriptor := do
  let stop ← Word.checked (offset + length)
  if stop ≤ descriptor.length then return descriptor.part offset length else throw refusal

/-- The descriptor with the roles of its two copies exchanged. -/
def exchanged (descriptor : Descriptor) : Descriptor where
  active := descriptor.shadow
  shadow := descriptor.active
  length := descriptor.length
  flipped := !descriptor.flipped

/-- Narrow to a part. -/
def sub (descriptor : Descriptor) (offset length : Nat) : Except Fault Descriptor :=
  descriptor.narrow offset length .subRangeOutOfBounds

/-- Narrow to a part whose data has just been written to the other copy. -/
def flip (descriptor : Descriptor) (offset length : Nat) : Except Fault Descriptor := do
  return (← descriptor.narrow offset length .flipRangeOutOfBounds).exchanged

/-- The descriptor once its range has been copied back. -/
def settled (descriptor : Descriptor) : Descriptor :=
  if descriptor.flipped then descriptor.exchanged else descriptor

/-- Copy the valid data over the other copy if the roles have been exchanged. -/
def copyBack (descriptor : Descriptor) (memory : Memory α) : Memory α :=
  if descriptor.flipped then
    memory.store descriptor.shadow (memory.read descriptor.active descriptor.length)
  else
    memory

/-- The descriptor that one step makes of another. -/
def derive (descriptor : Descriptor) : Derive → Except Fault Descriptor
  | .sub offset length => descriptor.sub offset length
  | .flip offset length => descriptor.flip offset length
  | .copyBack => .ok descriptor.settled

/-- The descriptor that the steps of a derivation lead to. -/
def deriveAll (descriptor : Descriptor) (steps : List Derive) : Except Fault Descriptor :=
  steps.foldlM derive descriptor

/-- The arrays after one step. Only copying back touches them. -/
def effect (descriptor : Descriptor) (memory : Memory α) : Derive → Memory α
  | .sub _ _ => memory
  | .flip _ _ => memory
  | .copyBack => descriptor.copyBack memory

/-- Copy back the parts that start and are long as listed, one after the other. -/
def copyBackParts (descriptor : Descriptor) : List (Nat × Nat) → Memory α → Except Fault (Memory α)
  | [], memory => .ok memory
  | (offset, length) :: rest, memory => do
    let part ← descriptor.sub offset length
    descriptor.copyBackParts rest (part.copyBack memory)

end Descriptor

/-- A descriptor, and the steps that led to it from that of the whole arrays. -/
structure Derived where
  descriptor : Descriptor
  steps : List Derive
  deriving DecidableEq, Repr

/-- Two arrays, and the descriptors obtained so far, in order. -/
structure Registry (α : Type) where
  memory : Memory α
  derived : List Derived

/-- An operation, and which of the descriptors obtained so far it is called on. -/
structure Call where
  source : Nat
  step : Derive
  deriving DecidableEq, Repr

namespace Registry

/-- Pair two arrays of equal length. -/
def opened (primary scratch : Array α) : Except Fault (Registry α) := do
  let (memory, _) ← Memory.pair primary scratch
  return ⟨memory, [⟨.whole primary.size, []⟩]⟩

/-- Call an operation on a descriptor. The fault is that of a call that is refused. -/
def invoke (registry : Registry α) (entry : Derived) (step : Derive) :
    Registry α × Option Fault :=
  match entry.descriptor.derive step with
  | .error fault => (registry, some fault)
  | .ok descriptor =>
    ({ memory := entry.descriptor.effect registry.memory step
       derived := registry.derived ++ [⟨descriptor, entry.steps ++ [step]⟩] }, none)

/-- Carry out a call. There is nothing to call if no descriptor has its number. -/
def call (registry : Registry α) (call : Call) : Registry α :=
  match registry.derived[call.source]? with
  | none => registry
  | some entry => (registry.invoke entry call.step).1

/-- Carry out calls one after the other. -/
def callAll (registry : Registry α) (calls : List Call) : Registry α :=
  calls.foldl Registry.call registry

end Registry

end RadixSort
