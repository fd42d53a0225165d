import Mathlib.Data.List.Basic

/-!
# Blocks put one after the other

A partition leaves its buckets one after the other, and each bucket is made up of
the shares of the chunks in turn. Both are a list of blocks that is flattened. The
offset of a block is the length of everything before it; the laws here say which
element stands at a slot, and that every slot belongs to one block.
-/
namespace RadixSort.Blocks

variable {α : Type}

/-- The number of elements before block number `index`. -/
def offset (blocks : List (List α)) (index : Nat) : Nat := (blocks.take index).flatten.length

@[simp] theorem offset_zero (blocks : List (List α)) : offset blocks 0 = 0 := by
  simp [offset]

/-- A block begins where its predecessor ends. -/
theorem offset_succ {blocks : List (List α)} {index : Nat} {block : List α}
    (here : blocks[index]? = some block) :
    offset blocks (index + 1) = offset blocks index + block.length := by
  simp only [offset, List.take_add_one, here, Option.toList_some, List.flatten_append,
    List.flatten_cons, List.flatten_nil, List.append_nil, List.length_append]

/-- Behind the last block lies the end. -/
theorem offset_of_length_le {blocks : List (List α)} {index : Nat}
    (behind : blocks.length ≤ index) : offset blocks index = blocks.flatten.length := by
  rw [offset, List.take_of_length_le behind]

/-- Blocks are in order. -/
theorem offset_mono (blocks : List (List α)) {first second : Nat} (ordered : first ≤ second) :
    offset blocks first ≤ offset blocks second := by
  induction second with
  | zero =>
    obtain rfl : first = 0 := by omega
    exact Nat.le_refl _
  | succ second ih =>
    rcases Nat.lt_or_ge second first with last | before
    · obtain rfl : first = second + 1 := by omega
      exact Nat.le_refl _
    · have reached := ih before
      cases here : blocks[second]? with
      | none =>
        have short : blocks.length ≤ second := List.getElem?_eq_none_iff.mp here
        rw [offset_of_length_le (Nat.le_succ_of_le short), ← offset_of_length_le short]
        exact reached
      | some block =>
        rw [offset_succ here]
        omega

/-- No block reaches past the end. -/
theorem offset_le_length (blocks : List (List α)) (index : Nat) :
    offset blocks index ≤ blocks.flatten.length := by
  rw [← offset_of_length_le (Nat.le_max_left blocks.length index)]
  exact offset_mono blocks (Nat.le_max_right _ _)

/-- The blocks before, the block itself and the blocks behind it make up the list. -/
theorem flatten_eq_split {blocks : List (List α)} {index : Nat} {block : List α}
    (here : blocks[index]? = some block) :
    blocks.flatten =
      (blocks.take index).flatten ++ (block ++ (blocks.drop (index + 1)).flatten) := by
  obtain ⟨inside, rfl⟩ := List.getElem?_eq_some_iff.mp here
  calc blocks.flatten
      = (blocks.take index ++ blocks.drop index).flatten := by rw [List.take_append_drop]
    _ = (blocks.take index).flatten ++ (blocks[index] ++ (blocks.drop (index + 1)).flatten) := by
      rw [List.drop_eq_getElem_cons inside, List.flatten_append, List.flatten_cons]

/-- Within a block, the list has the elements of the block. -/
theorem getElem?_flatten {blocks : List (List α)} {index : Nat} {block : List α}
    (here : blocks[index]? = some block) {place : Nat} (inside : place < block.length) :
    blocks.flatten[offset blocks index + place]? = block[place]? := by
  rw [flatten_eq_split here, offset, List.getElem?_append_right (Nat.le_add_right _ _),
    Nat.add_sub_cancel_left, List.getElem?_append_left inside]

/-- Blocks of one length are at the multiples of that length. -/
theorem offset_uniform {blocks : List (List α)} {size : Nat}
    (uniform : ∀ block ∈ blocks, block.length = size) {index : Nat}
    (inside : index ≤ blocks.length) : offset blocks index = index * size := by
  induction index with
  | zero => simp
  | succ index ih =>
    have here : blocks[index]? = some blocks[index] := List.getElem?_eq_getElem _
    rw [offset_succ here, ih (Nat.le_of_succ_le inside), uniform _ (List.getElem_mem _),
      Nat.succ_mul]

/-- In blocks of one length, the row and the column of an element say where it is. -/
theorem getElem?_uniform {blocks : List (List α)} {size : Nat}
    (uniform : ∀ block ∈ blocks, block.length = size) {index place : Nat} {block : List α}
    (here : blocks[index]? = some block) (inside : place < size) :
    blocks.flatten[index * size + place]? = block[place]? := by
  obtain ⟨valid, member⟩ := List.getElem?_eq_some_iff.mp here
  have length : block.length = size := uniform block (member ▸ List.getElem_mem valid)
  rw [← offset_uniform uniform (Nat.le_of_lt valid), getElem?_flatten here (length ▸ inside)]

/-- Before a place in a block lie all earlier blocks, and what comes first in its own. -/
theorem take_uniform {blocks : List (List α)} {size : Nat}
    (uniform : ∀ block ∈ blocks, block.length = size) {index place : Nat} {block : List α}
    (here : blocks[index]? = some block) (inside : place ≤ size) :
    blocks.flatten.take (index * size + place) =
      (blocks.take index).flatten ++ block.take place := by
  obtain ⟨valid, member⟩ := List.getElem?_eq_some_iff.mp here
  have length : block.length = size := uniform block (member ▸ List.getElem_mem valid)
  rw [← offset_uniform uniform (Nat.le_of_lt valid), flatten_eq_split here, offset,
    List.take_length_add_append, List.take_append_of_le_length (length ▸ inside)]

/-- Every slot lies in some block. -/
theorem exists_block {blocks : List (List α)} {slot : Nat} (inside : slot < blocks.flatten.length) :
    ∃ index block, blocks[index]? = some block ∧ offset blocks index ≤ slot ∧
      slot < offset blocks index + block.length := by
  have reach (count : Nat) (below : slot < offset blocks count) :
      ∃ index block, blocks[index]? = some block ∧ offset blocks index ≤ slot ∧
        slot < offset blocks index + block.length := by
    induction count with
    | zero => simp at below
    | succ count ih =>
      rcases Nat.lt_or_ge slot (offset blocks count) with earlier | here
      · exact ih earlier
      · cases found : blocks[count]? with
        | none =>
          have short : blocks.length ≤ count := List.getElem?_eq_none_iff.mp found
          rw [offset_of_length_le short] at here
          omega
        | some block =>
          exact ⟨count, block, found, here, by rwa [offset_succ found] at below⟩
  exact reach blocks.length (by rwa [offset_of_length_le (Nat.le_refl _)])

end RadixSort.Blocks
