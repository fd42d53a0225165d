import RadixSort.Resources
import RadixSort.Lsd.Pass
import RadixSort.Key.Format

/-!
# Sorting from the least significant byte

One stable pass for every byte of the keys, from the least significant byte on,
sorts by the whole keys. The passes go back and forth between the caller's array
and an auxiliary one of the same length, and after an odd number of them the
result is copied back.

A call is refused without a change of the data if it asks for no threads or if a
buffer cannot be reserved. The number of threads fixes the chunks of all passes
and nothing else.
-/
namespace RadixSort.Lsd

variable {α V : Type}

/-- The two arrays the passes go between. -/
structure Buffers (α : Type) where
  data : Array α
  auxiliary : Array α
  deriving DecidableEq, Repr

/-- The bytes of the keys of elements, from the least significant end. An element
may refuse to give its key. -/
def keyBytes (format : KeyFormat V) (key : α → Except Fault V) : DigitRule α 256 :=
  .ofChecked fun x number => do format.lsdByte (← key x) number

/-- Run the passes from number `number` on, `count` of them. Even passes read the
caller's array, odd ones the auxiliary array. -/
def passes (variant : Variant) (rule : DigitRule α 256) (chunkLength : Nat) :
    (count number : Nat) → Buffers α → Except Fault (Buffers α)
  | 0, _, buffers => .ok buffers
  | count + 1, number, ⟨data, auxiliary⟩ => do
    if number % 2 = 0 then
      let auxiliary ← pass variant rule chunkLength number data auxiliary
      passes variant rule chunkLength count (number + 1) ⟨data, auxiliary⟩
    else
      let data ← pass variant rule chunkLength number auxiliary data
      passes variant rule chunkLength count (number + 1) ⟨data, auxiliary⟩

/-- The reservation that fails first, if one does. -/
def missing? (variant : Variant) (resources : Resources) : Option Reservation :=
  if !resources.grants .auxiliary then some .auxiliary
  else if variant = .cached ∧ !resources.grants .digitCache then some .digitCache
  else none

/-- Sort by keys from the least significant byte. -/
def sort (variant : Variant) (threads : Nat) (resources : Resources) (format : KeyFormat V)
    (key : α → Except Fault V) (data : Array α) : Outcome α Unit :=
  if threads = 0 then
    .refused (.zero .threads) data
  else if data.size ≤ 1 then
    .sorted data ()
  else if (missing? variant resources).isSome then
    .refused (.allocation data.size) data
  else
    let chunkLength := Word.ceilDiv data.size threads
    match passes variant (keyBytes format key) chunkLength format.bytes 0 ⟨data, data⟩ with
    | .ok ⟨data, auxiliary⟩ => .sorted (if format.bytes % 2 = 1 then auxiliary else data) ()
    | .error fault => .abandoned fault

end RadixSort.Lsd
