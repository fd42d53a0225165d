/-!
# Chunks of a list

A list is divided among several tasks by cutting it into chunks of one length, of
which the last is what is left. No chunk is empty, and the chunks in order make up
the list.
-/
namespace RadixSort

variable {α : Type}

/-- What is left after a chunk has been taken is shorter. -/
theorem length_drop_lt {length : Nat} {elements : List α}
    (some : ¬(length = 0 ∨ elements = [])) :
    (elements.drop length).length < elements.length := by
  have := List.length_pos_iff.mpr fun none => some (.inr none)
  have : length ≠ 0 := fun zero => some (.inl zero)
  simp only [List.length_drop]
  omega

/-- Divide a list into chunks of one length; the last one is what is left. -/
def chunksOf (length : Nat) (elements : List α) : List (List α) :=
  if ended : length = 0 ∨ elements = [] then
    []
  else
    have := length_drop_lt ended
    elements.take length :: chunksOf length (elements.drop length)
termination_by elements.length

/-- The chunks in order make up the list. -/
theorem flatten_chunksOf {length : Nat} (positive : 0 < length) (elements : List α) :
    (chunksOf length elements).flatten = elements := by
  fun_induction chunksOf length elements with
  | case1 elements ended =>
    rcases ended with zero | rfl
    · omega
    · rfl
  | case2 elements ended _ ih => simp [ih]

end RadixSort
