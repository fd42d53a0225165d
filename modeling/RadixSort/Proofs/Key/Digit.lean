import RadixSort.Proofs.Key.Byte

/-!
# The digits of a key

From the most significant end, a digit is read off the number of a key after it has been
moved to the left end of 128 bits. There the number is made up of a fixed count of digits,
the last of which are zero where the key has fewer bytes, and a digit that reaches past the
last byte is filled up with zero bits. Of two numbers, the one with the smaller digit at the
first depth where they differ is the smaller one.
-/
namespace RadixSort

/-- Numbers of some digits that agree at all depths before some depth agree when cut off
there.

Induct over the depth. Each digit lengthens what is left by one digit. -/
theorem cut_eq_of_alike {radix places x y depth : Nat} (xFits : x < radix ^ places)
    (yFits : y < radix ^ places) (inside : depth ≤ places)
    (alike : ∀ earlier < depth, x / radix ^ (places - 1 - earlier) % radix =
      y / radix ^ (places - 1 - earlier) % radix) :
    x / radix ^ (places - depth) = y / radix ^ (places - depth) := by
  induction depth with
  | zero => rw [Nat.sub_zero, Nat.div_eq_of_lt xFits, Nat.div_eq_of_lt yFits]
  | succ depth ih =>
    have shorter := ih (by omega) fun earlier before => alike earlier (by omega)
    have digit := alike depth (Nat.lt_succ_self depth)
    have place : places - depth = places - (depth + 1) + 1 := by omega
    have same : places - 1 - depth = places - (depth + 1) := by omega
    rw [same] at digit
    rw [place, Nat.pow_succ, ← Nat.div_div_eq_div_mul, ← Nat.div_div_eq_div_mul] at shorter
    rw [← Nat.div_add_mod (x / radix ^ (places - (depth + 1))) radix, shorter, digit,
      Nat.div_add_mod]

/-- The number with the smaller digit at the first depth where two numbers differ is the
smaller one. -/
theorem lt_of_digit_lt {radix places x y depth : Nat} (xFits : x < radix ^ places)
    (yFits : y < radix ^ places) (inside : depth < places)
    (alike : ∀ earlier < depth, x / radix ^ (places - 1 - earlier) % radix =
      y / radix ^ (places - 1 - earlier) % radix)
    (less : x / radix ^ (places - 1 - depth) % radix <
      y / radix ^ (places - 1 - depth) % radix) : x < y := by
  have shorter := cut_eq_of_alike xFits yFits (Nat.le_of_lt inside) alike
  have place : places - depth = places - 1 - depth + 1 := by omega
  rw [place, Nat.pow_succ, ← Nat.div_div_eq_div_mul, ← Nat.div_div_eq_div_mul] at shorter
  apply Nat.lt_of_div_lt_div (c := radix ^ (places - 1 - depth))
  rw [← Nat.div_add_mod (x / radix ^ (places - 1 - depth)) radix,
    ← Nat.div_add_mod (y / radix ^ (places - 1 - depth)) radix, shorter]
  omega

namespace DigitWidth

/-- The number of digits that 128 bits are made up of. -/
def places : DigitWidth → Nat
  | .oneByte => 16
  | .twoBytes => 8

theorem radix_eq (width : DigitWidth) : width.radix = 2 ^ (8 * width.bytes) := by
  cases width <;> rfl

theorem places_mul_bytes (width : DigitWidth) : width.places * width.bytes = 16 := by
  cases width <;> rfl

/-- A power of the radix is a power of two. -/
theorem radix_pow (width : DigitWidth) (count : Nat) :
    width.radix ^ count = 2 ^ (8 * (count * width.bytes)) := by
  rw [radix_eq, ← Nat.pow_mul]
  congr 1
  rw [Nat.mul_assoc, Nat.mul_comm width.bytes]

/-- The digit in front of bits that have been shifted is the digit that far behind the
front. -/
theorem leading_shiftLeft (width : DigitWidth) (bits : BitVec 128) {consumed : Nat}
    (inside : consumed + 8 * width.bytes ≤ 128) :
    width.leading (bits <<< consumed) =
      Fin.ofNat width.radix (bits.toNat / 2 ^ (128 - 8 * width.bytes - consumed)) := by
  have shifted : 2 ^ 128 = 2 ^ (128 - consumed) * 2 ^ consumed := by
    rw [← Nat.pow_add]
    congr 1
    omega
  have behind : 2 ^ (128 - 8 * width.bytes) =
      2 ^ (128 - 8 * width.bytes - consumed) * 2 ^ consumed := by
    rw [← Nat.pow_add]
    congr 1
    omega
  have digit : 2 ^ (128 - consumed) =
      2 ^ (128 - 8 * width.bytes - consumed) * 2 ^ (8 * width.bytes) := by
    rw [← Nat.pow_add]
    congr 1
    omega
  apply Fin.ext
  change (bits <<< consumed >>> (128 - 8 * width.bytes)).toNat % width.radix =
    bits.toNat / 2 ^ (128 - 8 * width.bytes - consumed) % width.radix
  rw [BitVec.toNat_ushiftRight, Nat.shiftRight_eq_div_pow, BitVec.toNat_shiftLeft,
    Nat.shiftLeft_eq, shifted, Nat.mul_mod_mul_right, behind,
    Nat.mul_div_mul_right _ _ (Nat.two_pow_pos _), digit, Nat.mod_mul_right_div_self, radix_eq,
    Nat.mod_mod]

end DigitWidth

namespace KeyFormat

variable {V : Type} {format : KeyFormat V} {width : DigitWidth}

/-- The number of a key, moved to the left end of 128 bits. -/
def leftAligned (format : KeyFormat V) (value : V) : Nat :=
  format.number value * 2 ^ (128 - format.bytes * 8)

/-- A key that is moved to the left end fits all places. -/
theorem leftAligned_lt (narrow : format.bytes ≤ 16) (value : V) :
    format.leftAligned value < width.radix ^ width.places := by
  have number := format.number_lt value
  have power : 256 ^ format.bytes = 2 ^ (format.bytes * 8) := by
    rw [Nat.mul_comm]
    exact (Nat.pow_mul 2 8 format.bytes).symm
  have whole : 2 ^ (format.bytes * 8) * 2 ^ (128 - format.bytes * 8) = 2 ^ 128 := by
    rw [← Nat.pow_add]
    congr 1
    omega
  rw [width.radix_pow, width.places_mul_bytes, leftAligned]
  change _ < 2 ^ 128
  rw [← whole, ← power]
  exact Nat.mul_lt_mul_of_pos_right number (Nat.two_pow_pos _)

/-- Moving keys to the left end keeps their order. -/
theorem leftAligned_lt_iff {x y : V} :
    format.leftAligned x < format.leftAligned y ↔ format.number x < format.number y :=
  Nat.mul_lt_mul_right (Nat.two_pow_pos _)

/-- There are no more digits in a key than places. -/
theorem msdDepth_le (narrow : format.bytes ≤ 16) : format.msdDepth width ≤ width.places := by
  cases width with
  | oneByte =>
    change (format.bytes + 1 - 1) / 1 ≤ 16
    omega
  | twoBytes =>
    change (format.bytes + 2 - 1) / 2 ≤ 8
    omega

/-- Left-aligned bits hold the key, without the bits above its width. -/
theorem toNat_alignment (narrow : format.bytes ≤ 16) (value : V) :
    (format.bits value <<< (128 - format.bytes * 8)).toNat = format.leftAligned value := by
  have whole : 2 ^ 128 = 2 ^ (8 * format.bytes) * 2 ^ (128 - format.bytes * 8) := by
    rw [← Nat.pow_add]
    congr 1
    omega
  rw [BitVec.toNat_shiftLeft, Nat.shiftLeft_eq, whole, Nat.mul_mod_mul_right, leftAligned, number,
    BitVec.toNat_setWidth]

/-- A depth at which the key has a digit lies before its end. -/
theorem consumed_lt {depth : Nat} (inside : depth < format.msdDepth width) :
    depth * width.bytes < format.bytes := by
  cases width with
  | oneByte =>
    change depth < (format.bytes + 1 - 1) / 1 at inside
    change depth * 1 < format.bytes
    omega
  | twoBytes =>
    change depth < (format.bytes + 2 - 1) / 2 at inside
    change depth * 2 < format.bytes
    omega

/-- A digit of the key is the digit of its left-aligned number at that depth. -/
theorem msdDigit_eq_ok (narrow : format.bytes ≤ 16) (value : V) {depth : Nat}
    (inside : depth < format.msdDepth width) :
    format.msdDigit width value depth = .ok (Fin.ofNat width.radix
      (format.leftAligned value / width.radix ^ (width.places - 1 - depth))) := by
  have before := consumed_lt inside
  have place : depth < width.places := Nat.lt_of_lt_of_le inside (msdDepth_le narrow)
  have checked (number : Nat) (small : number ≤ 128) : Word.checked number = .ok number :=
    Word.checked_eq_ok_iff.mpr ⟨Nat.lt_of_le_of_lt small (by decide), rfl⟩
  have aligned : Word.checkedSub 128 (format.bytes * 8) = .ok (128 - format.bytes * 8) :=
    Word.checkedSub_eq_ok_iff.mpr ⟨by omega, rfl⟩
  have fits : (depth + 1) * width.bytes ≤ 16 := by
    rw [← width.places_mul_bytes]
    exact Nat.mul_le_mul_right _ place
  rw [Nat.add_mul, Nat.one_mul] at fits
  have behind : 8 * ((width.places - 1 - depth) * width.bytes) =
      128 - 8 * width.bytes - depth * width.bytes * 8 := by
    have whole := width.places_mul_bytes
    rw [Nat.sub_sub, Nat.sub_mul, whole, Nat.add_mul, Nat.one_mul]
    omega
  rw [msdDigit, checked _ (by omega), checked _ (by omega)]
  refine bind_eq_ok.mpr ⟨_, rfl, bind_eq_ok.mpr ⟨_, rfl, bind_eq_ok.mpr
    ⟨_, checked _ (by omega), ?_⟩⟩⟩
  rw [if_neg (by omega), aligned]
  refine bind_eq_ok.mpr ⟨_, rfl, congrArg Except.ok ?_⟩
  rw [width.leading_shiftLeft _ (by omega), toNat_alignment narrow, width.radix_pow, behind]

end KeyFormat

end RadixSort
