import RadixSort.Fault

/-!
# Arithmetic on machine words

Lengths, offsets and depths are natural numbers here, and the machine holds them
in words of 64 bits. The program is described as it is when it has been built with
overflow checks: where a sum, product or difference could leave that range, it is
computed through one of the two functions below, so leaving it is a fault and never a
wrapped value. Built without them, it would wrap where it is at fault here. The number
of unfinished elements, which tasks lower at the same time, wraps in either build and is
a machine word.
-/
namespace RadixSort.Word

/-- One more than the largest number a word holds. -/
def bound : Nat := UInt64.size

/-- The value itself if a word holds it. -/
def checked (value : Nat) : Except Fault Nat :=
  if value < bound then .ok value else .error .arithmeticOverflow

/-- The difference of two words, if it is not negative. -/
def checkedSub (whole part : Nat) : Except Fault Nat :=
  if part ≤ whole then .ok (whole - part) else .error .arithmeticOverflow

/-- The least number of groups of `size` items that hold `count` items. -/
def ceilDiv (count size : Nat) : Nat := (count + size - 1) / size

/-- A value is what a checked computation gives exactly if a word holds it. -/
theorem checked_eq_ok_iff {value result : Nat} :
    checked value = .ok result ↔ value < bound ∧ result = value := by
  unfold checked
  split
  · simp_all [eq_comm]
  · simp only [reduceCtorEq, false_iff, not_and]
    omega

/-- A difference is what a checked subtraction gives exactly if it is not negative. -/
theorem checkedSub_eq_ok_iff {whole part result : Nat} :
    checkedSub whole part = .ok result ↔ part ≤ whole ∧ result = whole - part := by
  unfold checkedSub
  split
  · simp_all [eq_comm]
  · simp only [reduceCtorEq, false_iff, not_and]
    omega

end RadixSort.Word
