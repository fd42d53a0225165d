import RadixSort.Proofs.Key.Order

/-!
# Short keys read as if padded with zeros

Where the count of bits before a digit fits a word, the digit read from the most significant
end is that of the key followed by zero bytes for ever: before the end of the key it is made
up of bytes of the left-aligned number, and past the end it is zero on both sides. The count
is computed before it is compared with the width of the key. At a depth so large that no
word holds it, reading fails, although the digit there would be zero as well.
-/
namespace RadixSort.KeyFormat

variable {V : Type} {format : KeyFormat V} {width : DigitWidth}

/-- Inside 128 bits, a byte of the padded key is that byte of the left-aligned number. -/
theorem paddedByte_eq (narrow : format.bytes ≤ 16) (value : V) {position : Nat}
    (place : position < 16) :
    format.paddedByte value position = format.leftAligned value / 256 ^ (15 - position) % 256 := by
  by_cases inside : position < format.bytes
  · have power : 2 ^ (8 * (format.bytes - 1 - position)) = 256 ^ (format.bytes - 1 - position) :=
      Nat.pow_mul 2 8 _
    have split : 15 - position = format.bytes - 1 - position + (16 - format.bytes) := by omega
    rw [paddedByte, if_pos inside, Nat.shiftRight_eq_div_pow, power, leftAligned_eq narrow, split,
      Nat.pow_add, Nat.mul_div_mul_right _ _ (Nat.pow_pos (by decide))]
  · rw [paddedByte, if_neg inside, leftAligned_past narrow value (Nat.le_of_not_lt inside) place]

/-- A digit that begins behind the last byte of the padded key is zero. -/
theorem paddedDigit_past (value : V) {depth : Nat} (past : format.msdDepth width ≤ depth) :
    format.paddedDigit width value depth = 0 := by
  cases width with
  | oneByte =>
    change (format.bytes + 1 - 1) / 1 ≤ depth at past
    exact if_neg (by omega)
  | twoBytes =>
    change (format.bytes + 2 - 1) / 2 ≤ depth at past
    rw [paddedDigit, paddedByte, paddedByte, if_neg (by omega), if_neg (by omega)]

/-- Before the end of the key, the digit read is that of the padded key. -/
theorem msdDigit_inside (narrow : format.bytes ≤ 16) (value : V) {depth : Nat}
    (inside : depth < format.msdDepth width) :
    ∃ digit, format.msdDigit width value depth = .ok digit ∧
      digit.val = format.paddedDigit width value depth := by
  have place := Nat.lt_of_lt_of_le inside (msdDepth_le narrow)
  cases width with
  | oneByte =>
    exact ⟨_, msdDigit_oneByte narrow value place, (paddedByte_eq narrow value place).symm⟩
  | twoBytes =>
    have place : depth < 8 := place
    obtain ⟨digit, high, low, read, first, second, made⟩ := msdDigit_twoBytes narrow value inside
    rw [msdDigit_oneByte narrow value (by omega)] at first second
    refine ⟨digit, read, ?_⟩
    rw [made, ← Except.ok.inj first, ← Except.ok.inj second, paddedDigit,
      paddedByte_eq narrow value (by omega), paddedByte_eq narrow value (by omega)]
    rfl

/-- Past the end of the key the digit read is zero, if the bits before it can be counted. -/
theorem msdDigit_past (narrow : format.bytes ≤ 16) (value : V) {depth : Nat}
    (past : format.msdDepth width ≤ depth) (fits : depth * width.bytes * 8 < Word.bound) :
    format.msdDigit width value depth = .ok 0 := by
  have behind : format.bytes ≤ depth * width.bytes :=
    Nat.le_trans (msdDepth_covers width narrow).1 (Nat.mul_le_mul_right _ past)
  have checked {number : Nat} (small : number < Word.bound) :
      Word.checked number = .ok number :=
    Word.checked_eq_ok_iff.mpr ⟨small, rfl⟩
  rw [msdDigit, checked (by omega : format.bytes * 8 < Word.bound),
    checked (by omega : depth * width.bytes < Word.bound)]
  refine bind_eq_ok.mpr ⟨_, rfl, bind_eq_ok.mpr ⟨_, rfl, bind_eq_ok.mpr ⟨_, checked fits, ?_⟩⟩⟩
  rw [if_pos (by omega)]
  refine congrArg Except.ok (Fin.ext ?_)
  change (0#128 >>> (128 - 8 * width.bytes)).toNat % width.radix = 0 % width.radix
  rw [BitVec.zero_ushiftRight]
  rfl

/-- At a depth where the bits before the digit cannot be counted, reading fails. -/
theorem msdDigit_overflow (narrow : format.bytes ≤ 16) (value : V) {depth : Nat}
    (large : Word.bound ≤ depth * width.bytes * 8) :
    format.msdDigit width value depth = .error .arithmeticOverflow := by
  have overflows {number : Nat} (outside : Word.bound ≤ number) :
      Word.checked number = .error .arithmeticOverflow :=
    if_neg (Nat.not_lt_of_le outside)
  have keyBits : Word.checked (format.bytes * 8) = .ok (format.bytes * 8) :=
    Word.checked_eq_ok_iff.mpr ⟨Nat.lt_of_le_of_lt (by omega : _ ≤ 128) (by decide), rfl⟩
  by_cases bytes : depth * width.bytes < Word.bound
  · simp only [msdDigit, keyBits, Word.checked_eq_ok_iff.mpr ⟨bytes, rfl⟩, overflows large, bind,
      Except.bind]
  · simp only [msdDigit, keyBits, overflows (Nat.le_of_not_lt bytes), bind, Except.bind]

/-- For keys of up to 16 bytes, with any bits above their width, reading a digit from the most
significant end gives that of the key padded with zeros exactly at the depths where a word
counts the bits before the digit, and fails at all others; and the padded key has zero digits
from the end of the key on. -/
theorem msdDigit_padded (format : KeyFormat V) (narrow : format.bytes ≤ 16) (width : DigitWidth)
    (value : V) (depth : Nat) :
    ((∃ digit, format.msdDigit width value depth = .ok digit ∧
        digit.val = format.paddedDigit width value depth) ↔
      depth * width.bytes * 8 < Word.bound) ∧
    (Word.bound ≤ depth * width.bytes * 8 →
      format.msdDigit width value depth = .error .arithmeticOverflow) ∧
    (format.msdDepth width ≤ depth → format.paddedDigit width value depth = 0) := by
  refine ⟨⟨?_, ?_⟩, msdDigit_overflow narrow value, paddedDigit_past value⟩
  · rintro ⟨digit, read, -⟩
    by_contra large
    rw [msdDigit_overflow narrow value (Nat.le_of_not_lt large)] at read
    cases read
  · intro fits
    by_cases inside : depth < format.msdDepth width
    · exact msdDigit_inside narrow value inside
    · have past := Nat.le_of_not_lt inside
      exact ⟨0, msdDigit_past narrow value past fits, (paddedDigit_past value past).symm⟩

/-- The last byte of a key of three is followed by a zero in its second digit of two bytes. -/
theorem msdDigit_padded_masked : masked.bytes ≤ 16 ∧
    ∃ digit, masked.msdDigit .twoBytes 0x7000001 1 = .ok digit ∧ digit.val = 256 := by
  refine ⟨by decide, ?_⟩
  obtain ⟨digit, read, padded⟩ :=
    (msdDigit_padded masked (by decide) .twoBytes 0x7000001 1).1.mpr (by decide)
  exact ⟨digit, read, padded.trans (by decide)⟩

/-- No digit of one byte is read at a depth of `2 ^ 61`, which a word holds. -/
theorem msdDigit_not_padded : 2 ^ 61 < Word.bound ∧
    ¬∃ digit, (IntType.format ⟨.bits8, false⟩).msdDigit .oneByte 1 (2 ^ 61) = .ok digit ∧
      digit.val = (IntType.format ⟨.bits8, false⟩).paddedDigit .oneByte 1 (2 ^ 61) := by
  refine ⟨by decide, ?_⟩
  rintro ⟨digit, read, -⟩
  rw [msdDigit_overflow (by decide) 1 (by decide)] at read
  cases read

end RadixSort.KeyFormat
