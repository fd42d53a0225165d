import RadixSort.Chunks
import RadixSort.Word
import Mathlib.Tactic.Ring

/-!
# Dividing a range into chunks

A range is divided into as few chunks as a threshold allows, and these are made as
equal as possible. Rounding up twice could leave the last chunk empty; it does not, since
the chunks are no longer than the threshold and all of them but the last do not reach
the end of the range even at the threshold's length.
-/
namespace RadixSort

variable {α : Type}

namespace Word

/-- Groups of one size that are just enough hold everything. -/
theorem le_ceilDiv_mul (count : Nat) {size : Nat} (positive : 0 < size) :
    count ≤ ceilDiv count size * size := by
  have parts := Nat.div_add_mod (count + size - 1) size
  have rest := Nat.mod_lt (count + size - 1) positive
  rw [Nat.mul_comm] at parts
  unfold ceilDiv
  omega

/-- Groups of one size that are just enough do not hold a whole group more. -/
theorem ceilDiv_mul_lt (count : Nat) {size : Nat} (positive : 0 < size) :
    ceilDiv count size * size < count + size := by
  have parts := Nat.div_mul_le_self (count + size - 1) size
  unfold ceilDiv
  omega

/-- No more groups are needed than some number that is enough. -/
theorem ceilDiv_le_of_le_mul {count size groups : Nat} (positive : 0 < size)
    (enough : count ≤ groups * size) : ceilDiv count size ≤ groups := by
  have less := ceilDiv_mul_lt count positive
  have bound : ceilDiv count size * size < (groups + 1) * size := by
    rw [Nat.add_mul, Nat.one_mul]
    omega
  exact Nat.le_of_lt_succ (Nat.lt_of_mul_lt_mul_right bound)

/-- Something takes at least one group. -/
theorem ceilDiv_pos {count size : Nat} (some : 0 < count) (positive : 0 < size) :
    0 < ceilDiv count size :=
  Nat.div_pos (by omega) positive

/-- Something longer than a group takes several groups. -/
theorem two_le_ceilDiv {count size : Nat} (positive : 0 < size) (long : size < count) :
    2 ≤ ceilDiv count size := by
  have enough := le_ceilDiv_mul count positive
  by_contra few
  have single : ceilDiv count size * size ≤ 1 * size := Nat.mul_le_mul_right _ (by omega)
  omega

/-- When the groups are evened out, none grows beyond the size that gave their number. -/
theorem ceilDiv_ceilDiv_le {count size : Nat} (some : 0 < count) (positive : 0 < size) :
    ceilDiv count (ceilDiv count size) ≤ size := by
  apply ceilDiv_le_of_le_mul (ceilDiv_pos some positive)
  rw [Nat.mul_comm]
  exact le_ceilDiv_mul count positive

end Word

/-- A range of this length is divided into this many chunks of this length, and the last
of them is not empty. -/
structure Chunking (length parts chunkLength : Nat) : Prop where
  parts_pos : 0 < parts
  chunk_pos : 0 < chunkLength
  last : (parts - 1) * chunkLength < length
  covers : length ≤ parts * chunkLength
  bounded : parts * chunkLength < length + parts

/-- Dividing by a threshold and evening out the chunks leaves no chunk empty. -/
theorem chunking_of_threshold {length threshold : Nat} (some : 0 < length)
    (positive : 0 < threshold) : Chunking length (Word.ceilDiv length threshold)
      (Word.ceilDiv length (Word.ceilDiv length threshold)) := by
  have parts := Word.ceilDiv_pos some positive
  have short := Word.ceilDiv_ceilDiv_le some positive
  refine ⟨parts, Word.ceilDiv_pos some parts, ?_, ?_, ?_⟩
  · have less := Word.ceilDiv_mul_lt length positive
    have fewer : (Word.ceilDiv length threshold - 1) *
        Word.ceilDiv length (Word.ceilDiv length threshold) ≤
          (Word.ceilDiv length threshold - 1) * threshold := Nat.mul_le_mul_left _ short
    rw [Nat.sub_mul _ _ threshold, Nat.one_mul] at fewer
    omega
  · rw [Nat.mul_comm]
    exact Word.le_ceilDiv_mul length parts
  · rw [Nat.mul_comm]
    exact Word.ceilDiv_mul_lt length parts

/-- Chunk number `index` begins at the multiple of the chunk length. -/
theorem getElem?_chunksOf {size : Nat} (positive : 0 < size) (elements : List α) (index : Nat) :
    (chunksOf size elements)[index]? =
      if index * size < elements.length then some ((elements.drop (index * size)).take size)
      else none := by
  fun_induction chunksOf size elements generalizing index with
  | case1 elements ended =>
    rcases ended with zero | rfl
    · omega
    · simp
  | case2 elements more shorter =>
    rename_i ih
    have length : 0 < elements.length :=
      List.length_pos_iff.mpr fun none => more (.inr none)
    cases index with
    | zero => simp [length]
    | succ index =>
      have behind : (index + 1) * size = size + index * size := by ring
      rw [List.getElem?_cons_succ, ih index, List.length_drop, List.drop_drop, ← behind]
      by_cases inside : (index + 1) * size < elements.length
      · rw [if_pos inside, if_pos (by omega)]
      · rw [if_neg inside, if_neg (by omega)]

/-- There are as many chunks as the range is divided into. -/
theorem Chunking.length_chunksOf {parts chunkLength : Nat} {elements : List α}
    (chunking : Chunking elements.length parts chunkLength) :
    (chunksOf chunkLength elements).length = parts := by
  obtain ⟨some, positive, last, covers, -⟩ := chunking
  apply Nat.le_antisymm
  · apply List.getElem?_eq_none_iff.mp
    rw [getElem?_chunksOf positive, if_neg (Nat.not_lt_of_le covers)]
  · have inside : (chunksOf chunkLength elements)[parts - 1]? ≠ none := by
      rw [getElem?_chunksOf positive, if_pos last]
      simp
    have valid : parts - 1 < (chunksOf chunkLength elements).length := by
      by_contra outside
      exact inside (List.getElem?_eq_none_iff.mpr (by omega))
    omega

/-- Every chunk begins within the range. -/
theorem Chunking.begin_lt {length parts chunkLength part : Nat}
    (chunking : Chunking length parts chunkLength) (inside : part < parts) :
    part * chunkLength < length :=
  Nat.lt_of_le_of_lt (Nat.mul_le_mul_right _ (by omega)) chunking.last

end RadixSort
