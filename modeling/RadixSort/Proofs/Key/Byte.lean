import RadixSort.Key.Padding
import Mathlib.Algebra.GroupWithZero.Nat

/-!
# The bytes of a key

From the least significant end, a pass reads one byte of the number that a key stands
for. The bytes read so far make up that number modulo a power of 256.
-/
namespace RadixSort.KeyFormat

variable {V : Type}

/-- The number of a key fits its width. -/
theorem number_lt (format : KeyFormat V) (value : V) :
    format.number value < 256 ^ format.bytes := by
  have width : 2 ^ (8 * format.bytes) = 256 ^ format.bytes := Nat.pow_mul 2 8 format.bytes
  rw [← width]
  exact BitVec.isLt _

/-- A pass within the width reads that byte of the number, and bits above the width
of the key have no part in it. -/
theorem lsdByte_eq_ok {format : KeyFormat V} {pass : Nat} (value : V)
    (narrow : format.bytes ≤ 16) (within : pass < format.bytes) :
    format.lsdByte value pass =
      .ok (Fin.ofNat 256 (format.number value / 256 ^ pass)) := by
  have shift : pass * 8 < 128 := by omega
  have fits : Word.checked (pass * 8) = .ok (pass * 8) :=
    Word.checked_eq_ok_iff.mpr ⟨Nat.lt_trans shift (by decide), rfl⟩
  have split : 256 ^ format.bytes = 256 ^ pass * 256 ^ (format.bytes - pass) := by
    rw [← Nat.pow_add, Nat.add_sub_cancel' (Nat.le_of_lt within)]
  have bytes : 256 ∣ 256 ^ (format.bytes - pass) := by
    simpa using Nat.pow_dvd_pow 256 (by omega : 1 ≤ format.bytes - pass)
  have power (count : Nat) : 2 ^ (8 * count) = 256 ^ count := Nat.pow_mul 2 8 count
  refine bind_eq_ok.mpr ⟨_, fits, ?_⟩
  rw [if_pos shift]
  congr 1
  apply Fin.ext
  change (format.bits value >>> (pass * 8)).toNat % 256 = format.number value / 256 ^ pass % 256
  rw [BitVec.toNat_ushiftRight, Nat.shiftRight_eq_div_pow, Nat.mul_comm, power, number,
    BitVec.toNat_setWidth, power, split, Nat.mod_mul_right_div_self, Nat.mod_mod_of_dvd _ bytes]

end RadixSort.KeyFormat
