import RadixSort.Key.Format

/-!
# Keys as endless digit sequences

The key of a value is its bits reduced to the width of the format. Written as bytes
from the most significant one on, and followed by zero bytes for ever, a key is an
endless sequence, and digits of two bytes pair its members up.
-/
namespace RadixSort.KeyFormat

variable {V : Type}

/-- The key of a value as a number below `256 ^ bytes`. -/
def number (format : KeyFormat V) (value : V) : Nat :=
  ((format.bits value).setWidth (8 * format.bytes)).toNat

/-- The bytes of a key from the most significant one on, padded with zeros. -/
def paddedByte (format : KeyFormat V) (value : V) (position : Nat) : Nat :=
  if position < format.bytes then
    format.number value >>> (8 * (format.bytes - 1 - position)) % 256
  else
    0

/-- The digits of a key from the most significant one on, padded with zeros. -/
def paddedDigit (format : KeyFormat V) (width : DigitWidth) (value : V) (depth : Nat) : Nat :=
  match width with
  | .oneByte => format.paddedByte value depth
  | .twoBytes =>
    format.paddedByte value (2 * depth) * 256 + format.paddedByte value (2 * depth + 1)

end RadixSort.KeyFormat
