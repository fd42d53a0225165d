import RadixSort.Key.Integer
import Mathlib.Algebra.GroupWithZero.Nat

/-!
# The keys of primitive integers

An unsigned integer is its own key. Flipping the sign bit of a signed one moves it up by half
of the range, so its key is the number itself plus that half. Keys are ordered as the
integers are, and fit their bytes.
-/
namespace RadixSort

/-- Flipping the top bit of a number moves it by half of the range, up from the lower half
and down from the upper one. -/
theorem xor_top {number top : Nat} (fits : number < 2 * 2 ^ top) :
    number ^^^ 2 ^ top = if number < 2 ^ top then number + 2 ^ top else number - 2 ^ top := by
  have half := Nat.two_pow_pos top
  have flipped := Nat.div_add_mod (number ^^^ 2 ^ top) (2 ^ top)
  have former := Nat.div_add_mod number (2 ^ top)
  rw [Nat.xor_div_two_pow, Nat.xor_mod_two_pow, Nat.div_self half, Nat.mod_self, Nat.xor_zero]
    at flipped
  by_cases lower : number < 2 ^ top
  · rw [if_pos lower]
    rw [Nat.div_eq_of_lt lower, Nat.mod_eq_of_lt lower, Nat.zero_xor, Nat.mul_one] at flipped
    omega
  · have one : number / 2 ^ top = 1 := Nat.div_eq_of_lt_le (by omega) (by omega)
    rw [if_neg lower]
    rw [one, Nat.xor_self, Nat.mul_zero, Nat.zero_add] at flipped
    rw [one, Nat.mul_one] at former
    omega

namespace IntType

variable {type : IntType} {x y : type.Value}

/-- Flipping the sign bit of a stored value moves its number up by half of the range. -/
theorem toNat_flipSign {width : Nat} (some : 0 < width) (value : BitVec width) :
    ((value ^^^ BitVec.intMin width).toNat : Int) =
      value.toInt + ((2 ^ (width - 1) : Nat) : Int) := by
  obtain ⟨top, rfl⟩ := Nat.exists_eq_succ_of_ne_zero (Nat.ne_of_gt some)
  have fits := value.isLt
  rw [Nat.pow_succ, Nat.mul_comm] at fits
  rw [BitVec.toNat_xor, BitVec.toNat_intMin_of_pos some, BitVec.toInt_eq_toNat_cond]
  change ((value.toNat ^^^ 2 ^ top : Nat) : Int) = _ + ((2 ^ top : Nat) : Int)
  rw [xor_top fits, Nat.pow_succ, Nat.mul_comm (2 ^ top) 2]
  split <;> split <;> omega

/-- How far the least number of a type lies below zero. -/
def offset (type : IntType) : Int :=
  if type.signed then ((2 ^ (8 * type.width.bytes - 1) : Nat) : Int) else 0

/-- A primitive integer has at least one bit, and at most 128. -/
theorem bits_bounds (width : IntWidth) : 0 < 8 * width.bytes ∧ 8 * width.bytes ≤ 128 := by
  cases width <;> decide

/-- The bits of a key are those of the stored value, the sign bit flipped if there is
one. -/
theorem toNat_bits (type : IntType) (value : type.Value) : (type.format.bits value).toNat =
    if type.signed then (value ^^^ BitVec.intMin _).toNat else value.toNat := by
  have wide := Nat.pow_le_pow_right Nat.two_pos (bits_bounds type.width).2
  have widened (stored : type.Value) : (stored.setWidth 128).toNat = stored.toNat := by
    rw [BitVec.toNat_setWidth, Nat.mod_eq_of_lt (Nat.lt_of_lt_of_le stored.isLt wide)]
  change (if type.signed then (value ^^^ BitVec.intMin _).setWidth 128
    else value.setWidth 128).toNat = _
  split
  · exact widened _
  · exact widened value

/-- The key of an integer is its distance from the least number of its type. -/
theorem bits_eq (type : IntType) (value : type.Value) :
    ((type.format.bits value).toNat : Int) = type.toInt value + type.offset := by
  rw [toNat_bits, toInt, offset]
  split
  · exact toNat_flipSign (bits_bounds type.width).1 value
  · exact (Int.add_zero _).symm

/-- Integers are ordered as their keys are. -/
theorem toInt_lt_iff : type.toInt x < type.toInt y ↔
    (type.format.bits x).toNat < (type.format.bits y).toNat := by
  have first := bits_eq type x
  have second := bits_eq type y
  omega

/-- The key of an integer fits its bytes. -/
theorem bits_lt (type : IntType) (value : type.Value) :
    (type.format.bits value).toNat < 256 ^ type.format.bytes := by
  have power : 2 ^ (8 * type.width.bytes) = 256 ^ type.format.bytes := Nat.pow_mul 2 8 _
  rw [toNat_bits, ← power]
  split
  · exact BitVec.isLt _
  · exact value.isLt

/-- Different stored values stand for different numbers. -/
theorem toInt_inj (same : type.toInt x = type.toInt y) : x = y := by
  rw [toInt, toInt] at same
  split at same
  · exact BitVec.eq_of_toInt_eq same
  · exact BitVec.eq_of_toNat_eq (Int.ofNat_inj.mp same)

end IntType

end RadixSort
