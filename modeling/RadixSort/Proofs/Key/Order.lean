import RadixSort.Proofs.Key.Digit
import RadixSort.Proofs.Key.Integer
import RadixSort.Proofs.Ensures
import Mathlib.Order.Compare

/-!
# Digits represent the order of keys

All digits of a key, from the most significant one on, compare as its number does. The last
of them may reach past the last byte; the zero bits it is filled up with are the same for
all keys and decide nothing. The two ends and the two widths read the same bytes.
-/
namespace RadixSort

/-- The last `count` digits of a number, the most significant one first. -/
def numerals (radix : Nat) [NeZero radix] (count number : Nat) : List (Fin radix) :=
  (List.range count).map fun depth => Fin.ofNat radix (number / radix ^ (count - 1 - depth))

/-- Behind the first of some digits of a number stand the others. -/
theorem numerals_succ (radix : Nat) [NeZero radix] (count number : Nat) :
    numerals radix (count + 1) number =
      Fin.ofNat radix (number / radix ^ count) :: numerals radix count number := by
  have behind : ((fun depth => Fin.ofNat radix (number / radix ^ (count + 1 - 1 - depth))) ∘
      Nat.succ) = fun depth => Fin.ofNat radix (number / radix ^ (count - 1 - depth)) := by
    funext depth
    have place : count + 1 - 1 - (depth + 1) = count - 1 - depth := by omega
    simp only [Function.comp_apply, Nat.succ_eq_add_one, place]
  rw [numerals, List.range_succ_eq_map, List.map_cons, List.map_map, behind]
  rfl

/-- Of two numbers the digit in front decides, and what is behind it decides where that is
the same. -/
theorem compare_positional {weight x y p q : Nat} (xFits : p < weight) (yFits : q < weight) :
    compare (p + weight * x) (q + weight * y) = (compare x y).then (compare p q) := by
  rcases Nat.lt_trichotomy x y with less | rfl | more
  · have room : weight * (x + 1) ≤ weight * y := Nat.mul_le_mul_left weight less
    rw [Nat.mul_succ] at room
    rw [Nat.compare_eq_lt.mpr less, Nat.compare_eq_lt.mpr (by omega)]
    rfl
  · rw [Nat.compare_eq_eq.mpr (rfl : x = x), Nat.compare_eq_ite_lt, Nat.compare_eq_ite_lt]
    simp only [Nat.add_lt_add_iff_right]
    rfl
  · have room : weight * (y + 1) ≤ weight * x := Nat.mul_le_mul_left weight more
    rw [Nat.mul_succ] at room
    rw [Nat.compare_eq_gt.mpr more, Nat.compare_eq_gt.mpr (by omega)]
    rfl

/-- Some digits of two numbers compare as what these digits stand for.

Induct over the count of digits. The first one has the weight of all others together. -/
theorem compare_numerals (radix : Nat) [NeZero radix] (count x y : Nat) :
    compare (numerals radix count x) (numerals radix count y) =
      compare (x % radix ^ count) (y % radix ^ count) := by
  induction count with
  | zero => simp only [numerals, List.range_zero, List.map_nil, Nat.pow_zero, Nat.mod_one]; rfl
  | succ count ih =>
    have weight : 0 < radix ^ count := Nat.pow_pos (Nat.pos_of_neZero radix)
    rw [numerals_succ, numerals_succ, List.compare_cons_cons, ih, Nat.mod_pow_succ,
      Nat.mod_pow_succ, compare_positional (Nat.mod_lt _ weight) (Nat.mod_lt _ weight)]
    rfl

/-- Numbers compare as they do after both were multiplied. -/
theorem compare_mul_right {x y factor : Nat} (positive : 0 < factor) :
    compare (x * factor) (y * factor) = compare x y := by
  simp only [Nat.compare_eq_ite_lt, Nat.mul_lt_mul_right positive]

namespace KeyFormat

variable {V : Type} {format : KeyFormat V} {width : DigitWidth}

/-- All digits of a key from the most significant one on. -/
def readDigits (format : KeyFormat V) (width : DigitWidth) (value : V) :
    Except Fault (List (Fin width.radix)) :=
  (List.range (format.msdDepth width)).mapM (format.msdDigit width value)

/-- The digits of a key reach to its end or past it, and stay inside 128 bits. -/
theorem msdDepth_covers (width : DigitWidth) (narrow : format.bytes ≤ 16) :
    format.bytes ≤ format.msdDepth width * width.bytes ∧
      format.msdDepth width * width.bytes ≤ 16 := by
  cases width with
  | oneByte =>
    change _ ≤ (format.bytes + 1 - 1) / 1 * 1 ∧ (format.bytes + 1 - 1) / 1 * 1 ≤ 16
    omega
  | twoBytes =>
    change _ ≤ (format.bytes + 2 - 1) / 2 * 2 ∧ (format.bytes + 2 - 1) / 2 * 2 ≤ 16
    omega

/-- The number that all digits of a key make up is the number of the key, moved up by the
bytes with which the last digit is filled up. -/
theorem leftAligned_div (narrow : format.bytes ≤ 16) (value : V) :
    format.leftAligned value / width.radix ^ (width.places - format.msdDepth width) =
      format.number value * 256 ^ (format.msdDepth width * width.bytes - format.bytes) := by
  obtain ⟨covers, inside⟩ := msdDepth_covers width narrow
  have behind : (width.places - format.msdDepth width) * width.bytes =
      16 - format.msdDepth width * width.bytes := by
    rw [Nat.sub_mul, width.places_mul_bytes]
  have moved : 2 ^ (128 - format.bytes * 8) =
      256 ^ (format.msdDepth width * width.bytes - format.bytes) *
        width.radix ^ (width.places - format.msdDepth width) := by
    rw [width.radix_pow, behind]
    change _ = (2 ^ 8) ^ _ * _
    rw [← Nat.pow_mul, ← Nat.pow_add]
    congr 1
    omega
  rw [leftAligned, moved, ← Nat.mul_assoc,
    Nat.mul_div_cancel _ (Nat.pow_pos width.radix_pos)]

/-- Reading all digits of a key gives the digits of its number, filled up with zeros. -/
theorem readDigits_eq_ok (narrow : format.bytes ≤ 16) (value : V) :
    format.readDigits width value = .ok (numerals width.radix (format.msdDepth width)
      (format.number value * 256 ^ (format.msdDepth width * width.bytes - format.bytes))) := by
  apply mapM_eq_map
  intro depth member
  have inside := List.mem_range.mp member
  have places : format.msdDepth width ≤ width.places := msdDepth_le narrow
  have split : width.places - 1 - depth =
      width.places - format.msdDepth width + (format.msdDepth width - 1 - depth) := by omega
  rw [msdDigit_eq_ok narrow value inside, split, Nat.pow_add, ← Nat.div_div_eq_div_mul,
    leftAligned_div narrow]

/-- The number that all digits of a key make up fits these digits. -/
theorem filledUp_lt (narrow : format.bytes ≤ 16) (value : V) :
    format.number value * 256 ^ (format.msdDepth width * width.bytes - format.bytes) <
      width.radix ^ format.msdDepth width := by
  have covers := (msdDepth_covers width narrow).1
  have whole : width.radix ^ format.msdDepth width =
      256 ^ format.bytes * 256 ^ (format.msdDepth width * width.bytes - format.bytes) := by
    rw [← Nat.pow_add, Nat.add_sub_cancel' covers, width.radix_pow]
    exact Nat.pow_mul 2 8 _
  rw [whole]
  exact Nat.mul_lt_mul_of_pos_right (format.number_lt value) (Nat.pow_pos (by decide))

/-- The number of a key is its bits, without those above its width. -/
theorem number_eq_mod (format : KeyFormat V) (value : V) :
    format.number value = (format.bits value).toNat % 256 ^ format.bytes := by
  rw [number, BitVec.toNat_setWidth, Nat.pow_mul]

/-- All digits of two keys compare as their numbers do. -/
theorem compare_readDigits (width : DigitWidth) (narrow : format.bytes ≤ 16) (x y : V) :
    ∃ first second, format.readDigits width x = .ok first ∧
      format.readDigits width y = .ok second ∧
      compare first second = compare (format.number x) (format.number y) := by
  refine ⟨_, _, readDigits_eq_ok narrow x, readDigits_eq_ok narrow y, ?_⟩
  rw [compare_numerals, Nat.mod_eq_of_lt (filledUp_lt narrow x),
    Nat.mod_eq_of_lt (filledUp_lt narrow y), compare_mul_right (Nat.pow_pos (by decide))]

/-- The left-aligned number of a key is made up of bytes. -/
theorem leftAligned_eq (narrow : format.bytes ≤ 16) (value : V) :
    format.leftAligned value = format.number value * 256 ^ (16 - format.bytes) := by
  have power : 2 ^ (8 * (16 - format.bytes)) = 256 ^ (16 - format.bytes) := Nat.pow_mul 2 8 _
  rw [leftAligned, ← power]
  congr 2
  omega

/-- Behind the last byte of a key its left-aligned number has zero bytes. -/
theorem leftAligned_past (narrow : format.bytes ≤ 16) (value : V) {position : Nat}
    (past : format.bytes ≤ position) (place : position < 16) :
    format.leftAligned value / 256 ^ (15 - position) % 256 = 0 := by
  have split : 16 - format.bytes = 15 - position + (position - format.bytes) + 1 := by omega
  rw [leftAligned_eq narrow, split, Nat.pow_succ, Nat.pow_add, Nat.mul_assoc, Nat.mul_left_comm,
    Nat.mul_div_cancel_left _ (Nat.pow_pos (by decide)), ← Nat.mul_assoc, Nat.mul_mod_left]

/-- At any depth inside 128 bits, whether before or past the end of the key, the byte read
there is that byte of the left-aligned number. -/
theorem msdDigit_oneByte (narrow : format.bytes ≤ 16) (value : V) {depth : Nat}
    (place : depth < 16) : format.msdDigit .oneByte value depth =
      .ok (Fin.ofNat 256 (format.leftAligned value / 256 ^ (15 - depth))) := by
  by_cases inside : depth < format.bytes
  · apply msdDigit_eq_ok narrow value
    change depth < (format.bytes + 1 - 1) / 1
    omega
  · have checked (number : Nat) (small : number ≤ 128) : Word.checked number = .ok number :=
      Word.checked_eq_ok_iff.mpr ⟨Nat.lt_of_le_of_lt small (by decide), rfl⟩
    have zero : Fin.ofNat 256 (format.leftAligned value / 256 ^ (15 - depth)) = 0 :=
      Fin.ext (leftAligned_past narrow value (Nat.le_of_not_lt inside) place)
    have behind : depth * DigitWidth.oneByte.bytes = depth := Nat.mul_one depth
    rw [zero, msdDigit, behind, checked (format.bytes * 8) (by omega), checked depth (by omega)]
    refine bind_eq_ok.mpr ⟨_, rfl, bind_eq_ok.mpr ⟨_, rfl, bind_eq_ok.mpr
      ⟨_, checked _ (by omega), ?_⟩⟩⟩
    rw [if_pos (by omega)]
    rfl

/-- A pass from the least significant end reads the byte as far from the most significant
one. -/
theorem msdDigit_eq_lsdByte (narrow : format.bytes ≤ 16) (value : V) {pass : Nat}
    (within : pass < format.bytes) :
    format.msdDigit .oneByte value (format.bytes - 1 - pass) = format.lsdByte value pass := by
  have place : 15 - (format.bytes - 1 - pass) = pass + (16 - format.bytes) := by omega
  rw [lsdByte_eq_ok value narrow within, msdDigit_oneByte narrow value (by omega),
    leftAligned_eq narrow, place, Nat.pow_add,
    Nat.mul_div_mul_right _ _ (Nat.pow_pos (by decide))]
  rfl

/-- A digit of two bytes is made up of the two bytes at its place, the second of which may
lie past the end of the key. -/
theorem msdDigit_twoBytes (narrow : format.bytes ≤ 16) (value : V) {depth : Nat}
    (inside : depth < format.msdDepth .twoBytes) :
    ∃ digit high low, format.msdDigit .twoBytes value depth = .ok digit ∧
      format.msdDigit .oneByte value (2 * depth) = .ok high ∧
      format.msdDigit .oneByte value (2 * depth + 1) = .ok low ∧
      digit.val = high.val * 256 + low.val := by
  have place : depth < 8 := Nat.lt_of_lt_of_le inside (msdDepth_le narrow)
  refine ⟨_, _, _, msdDigit_eq_ok narrow value inside, msdDigit_oneByte narrow value (by omega),
    msdDigit_oneByte narrow value (by omega), ?_⟩
  have pairs : 65536 ^ (8 - 1 - depth) = 256 ^ (15 - (2 * depth + 1)) := by
    change (256 ^ 2) ^ (8 - 1 - depth) = _
    rw [← Nat.pow_mul]
    congr 1
    omega
  have above : 15 - 2 * depth = 15 - (2 * depth + 1) + 1 := by omega
  change format.leftAligned value / 65536 ^ (8 - 1 - depth) % 65536 =
    format.leftAligned value / 256 ^ (15 - 2 * depth) % 256 * 256 +
      format.leftAligned value / 256 ^ (15 - (2 * depth + 1)) % 256
  rw [pairs, above, Nat.pow_succ, ← Nat.div_div_eq_div_mul]
  omega

/-- For keys of up to 16 bytes, with any bits above their width, all digits of either width
compare as the keys do; the byte of a pass is the one read from the other end; a digit of two
bytes is made up of those at its place; and primitive integers are ordered as their keys,
which fit their bytes. -/
theorem digits_represent (format : KeyFormat V) (narrow : format.bytes ≤ 16) (x y : V) :
    (∀ width : DigitWidth, ∃ first second, format.readDigits width x = .ok first ∧
      format.readDigits width y = .ok second ∧
      compare first second = compare ((format.bits x).toNat % 256 ^ format.bytes)
        ((format.bits y).toNat % 256 ^ format.bytes)) ∧
    (∀ pass < format.bytes, ∃ byte, format.lsdByte x pass = .ok byte ∧
      format.msdDigit .oneByte x (format.bytes - 1 - pass) = .ok byte) ∧
    (∀ depth < format.msdDepth .twoBytes, ∃ digit high low,
      format.msdDigit .twoBytes x depth = .ok digit ∧
      format.msdDigit .oneByte x (2 * depth) = .ok high ∧
      format.msdDigit .oneByte x (2 * depth + 1) = .ok low ∧
      digit.val = high.val * 256 + low.val) ∧
    ∀ (type : IntType) (m n : type.Value),
      (type.toInt m < type.toInt n ↔
        (type.format.bits m).toNat < (type.format.bits n).toNat) ∧
      (type.format.bits m).toNat < 256 ^ type.format.bytes := by
  constructor
  · intro width
    simpa only [number_eq_mod] using compare_readDigits width narrow x y
  constructor
  · intro pass within
    have read := lsdByte_eq_ok x narrow within
    exact ⟨_, read, (msdDigit_eq_lsdByte narrow x within).trans read⟩
  constructor
  · intro depth inside
    exact msdDigit_twoBytes narrow x inside
  · intro type m n
    exact ⟨IntType.toInt_lt_iff, IntType.bits_lt type m⟩

/-- A key of three bytes whose bits exceed its width. -/
def masked : KeyFormat Nat := ⟨3, BitVec.ofNat 128⟩

/-- With digits of two bytes the last byte of a key of three is read as if a zero followed,
and a higher bit of the first key is not read at all. -/
theorem digits_represent_masked : masked.bytes ≤ 16 ∧
    ∃ first second, masked.readDigits .twoBytes 0x7000001 = .ok first ∧
      masked.readDigits .twoBytes 0x000100 = .ok second ∧ compare first second = .lt := by
  refine ⟨by decide, ?_⟩
  obtain ⟨first, second, read, compared, order⟩ :=
    (digits_represent masked (by decide) 0x7000001 0x000100).1 .twoBytes
  refine ⟨first, second, read, compared, ?_⟩
  rw [order]
  decide

end KeyFormat

end RadixSort
