import RadixSort.Word

/-!
# Digits

A digit is one or two bytes of a key, and a partition by digits has one bucket
for each value a digit can take. Digits are read off a key whose bits have been
shifted to the left end of 128 bits, so the digit in front is the top byte or
the top two bytes of that word.
-/
namespace RadixSort

theorem byte_pos : 0 < 256 := by
  decide

instance inhabitedByte : Inhabited (Fin 256) := ⟨0, byte_pos⟩

/-- The two widths a digit can have. -/
inductive DigitWidth where
  | oneByte
  | twoBytes
  deriving DecidableEq, Repr

namespace DigitWidth

/-- The width of a digit in bytes. -/
def bytes : DigitWidth → Nat
  | .oneByte => 1
  | .twoBytes => 2

/-- The number of values of a digit, which is the number of buckets. -/
def radix : DigitWidth → Nat
  | .oneByte => 256
  | .twoBytes => 65536

theorem radix_pos (width : DigitWidth) : 0 < width.radix := by
  cases width <;> decide

instance inhabitedDigit (width : DigitWidth) : Inhabited (Fin width.radix) :=
  ⟨0, width.radix_pos⟩

-- The zero is named, so that the instance is the same one in every context.
instance neZero_radix (width : DigitWidth) : @NeZero Nat Zero.ofOfNat0 width.radix :=
  ⟨Nat.ne_of_gt width.radix_pos⟩

/-- The digit in front of 128 left-aligned bits. -/
def leading (width : DigitWidth) (bits : BitVec 128) : Fin width.radix :=
  ⟨(bits >>> (128 - 8 * width.bytes)).toNat % width.radix, Nat.mod_lt _ width.radix_pos⟩

end DigitWidth

end RadixSort
