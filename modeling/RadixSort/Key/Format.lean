import RadixSort.Key.Digit

/-!
# Keys

A key format tells how a value is turned into bits that sort like the value: a
width in bytes and up to 128 right-aligned bits. Digits are taken from either
end of those bytes. From the most significant end a digit beyond the last byte
is zero, so a short key behaves as if it were padded with zeros; from the least
significant end the pass number selects a byte.

Bits above the width are not part of the key, and a format need not keep them
clear. Both readings use shifts on 128 bits, and a shift or product that the
machine cannot represent is a fault.
-/
namespace RadixSort

/-- How the values of a type are read as keys. -/
structure KeyFormat (V : Type) where
  /-- The width of a key in bytes. -/
  bytes : Nat
  /-- The key of a value, right-aligned. -/
  bits : V → BitVec 128

namespace KeyFormat

variable {V : Type}

/-- The number of digits that cover a whole key. -/
def msdDepth (format : KeyFormat V) (width : DigitWidth) : Nat :=
  Word.ceilDiv format.bytes width.bytes

/-- The digit at `depth`, counted from the most significant end. -/
def msdDigit (format : KeyFormat V) (width : DigitWidth) (value : V) (depth : Nat) :
    Except Fault (Fin width.radix) := do
  let keyBits ← Word.checked (format.bytes * 8)
  let consumedBytes ← Word.checked (depth * width.bytes)
  let consumed ← Word.checked (consumedBytes * 8)
  if keyBits ≤ consumed then
    return width.leading 0
  else
    let alignment ← Word.checkedSub 128 keyBits
    return width.leading ((format.bits value <<< alignment) <<< consumed)

/-- The byte read by `pass`, counted from the least significant end. -/
def lsdByte (format : KeyFormat V) (value : V) (pass : Nat) : Except Fault (Fin 256) := do
  let shift ← Word.checked (pass * 8)
  if shift < 128 then
    return ⟨(format.bits value >>> shift).toNat % 256, Nat.mod_lt _ byte_pos⟩
  else
    throw .arithmeticOverflow

end KeyFormat

end RadixSort
