import RadixSort.Count.Histogram
import RadixSort.Proofs.Blocks
import RadixSort.Proofs.Classes

/-!
# Where the buckets of a range lie

The running totals of a histogram are the offsets of the buckets when these are put
one after the other as blocks, and their total is the length of the range.
-/
namespace RadixSort

variable {α : Type} {radix : Nat}

/-- The buckets of a list together hold its elements. -/
theorem Recursion.flatten_group_perm (key : α → Fin radix) (elements : List α) :
    (group key elements).flatten.Perm elements := by
  rw [group, ← List.flatMap_def]
  exact Classes.flatMap_filter_perm elements

namespace Layout

/-- The sizes that a layout is made for are the lengths of these blocks. -/
structure Measures (sizes : Vector Nat radix) (blocks : List (List α)) : Prop where
  count : blocks.length = radix
  length : ∀ (bucket : Nat) (inside : bucket < radix) (block : List α),
    blocks[bucket]? = some block → block.length = sizes[bucket]

/-- There is a block for every bucket. -/
theorem Measures.exists_block {sizes : Vector Nat radix} {blocks : List (List α)}
    (measured : Measures sizes blocks) {bucket : Nat} (inside : bucket < radix) :
    ∃ block, blocks[bucket]? = some block ∧ block.length = sizes[bucket] := by
  have valid : bucket < blocks.length := measured.count.symm ▸ inside
  have here := List.getElem?_eq_getElem valid
  exact ⟨_, here, measured.length bucket inside _ here⟩

/-- A layout that is complete below a bucket is completed with the offsets. -/
theorem extend_exact {sizes : Vector Nat radix} {blocks : List (List α)}
    (measured : Measures sizes blocks) (bucket sum : Nat) (starts : Vector Nat radix)
    (reached : sum = Blocks.offset blocks bucket) (bounded : bucket ≤ radix)
    (filled : ∀ earlier (inside : earlier < radix), earlier < bucket →
      starts[earlier] = Blocks.offset blocks earlier) :
    (∀ any (inside : any < radix),
        (extend sizes bucket sum starts).starts[any] = Blocks.offset blocks any) ∧
      (extend sizes bucket sum starts).total = blocks.flatten.length := by
  fun_induction extend sizes bucket sum starts with
  | case1 bucket sum starts inside ih =>
    obtain ⟨block, here, length⟩ := measured.exists_block inside
    apply ih
    · rw [Blocks.offset_succ here, length, reached]
    · exact inside
    · intro earlier valid before
      rw [Vector.getElem_set]
      split
      · rename_i same
        rw [reached, same]
      · exact filled earlier valid (by omega)
  | case2 bucket sum starts outside =>
    refine ⟨fun any inside => filled any inside (by omega), ?_⟩
    rw [reached, Blocks.offset_of_length_le (by rw [measured.count]; omega)]

/-- The buckets of a layout start at the offsets of the blocks it measures. -/
theorem starts_ofSizes {sizes : Vector Nat radix} {blocks : List (List α)}
    (measured : Measures sizes blocks) (bucket : Nat) (inside : bucket < radix) :
    (ofSizes sizes).starts[bucket] = Blocks.offset blocks bucket :=
  (extend_exact measured 0 0 _ (Blocks.offset_zero _).symm (Nat.zero_le _)
    fun _ _ impossible => absurd impossible (Nat.not_lt_zero _)).1 bucket inside

/-- The total of a layout is the length of all the blocks it measures. -/
theorem total_ofSizes {sizes : Vector Nat radix} {blocks : List (List α)}
    (measured : Measures sizes blocks) : (ofSizes sizes).total = blocks.flatten.length :=
  (extend_exact measured 0 0 _ (Blocks.offset_zero _).symm (Nat.zero_le _)
    fun _ _ impossible => absurd impossible (Nat.not_lt_zero _)).2

/-- The boundaries of a layout are the offsets of the blocks, the end included. -/
theorem boundaries_ofSizes {sizes : Vector Nat radix} {blocks : List (List α)}
    (measured : Measures sizes blocks) (bucket : Nat) (inside : bucket < radix + 1) :
    ((ofSizes sizes).boundaries blocks.flatten.length)[bucket] = Blocks.offset blocks bucket := by
  rw [boundaries, Vector.getElem_push]
  split
  · exact starts_ofSizes measured bucket _
  · rw [Blocks.offset_of_length_le (by rw [measured.count]; omega)]

/-- The buckets of a layout end where the next block starts. -/
theorem ends_ofSizes {sizes : Vector Nat radix} {blocks : List (List α)}
    (measured : Measures sizes blocks) (bucket : Nat) (inside : bucket < radix) :
    ((ofSizes sizes).ends sizes)[bucket] = Blocks.offset blocks (bucket + 1) := by
  obtain ⟨block, here, length⟩ := measured.exists_block inside
  rw [ends, Vector.getElem_zipWith, starts_ofSizes measured, Blocks.offset_succ here, length]

open Recursion in
/-- A histogram measures the buckets of the list that it counts. -/
theorem measures_group (key : α → Fin radix) (elements : List α) :
    Measures (histogram key elements) (group key elements) where
  count := by simp [group]
  length bucket inside block here := by
    have counted : (histogram key elements)[bucket] = _ :=
      get_histogram key elements ⟨bucket, inside⟩
    obtain ⟨digit, listed, rfl⟩ : ∃ digit, (List.finRange radix)[bucket]? = some digit ∧
        elements.filter (key · = digit) = block := by
      simpa [group] using here
    obtain rfl : digit = ⟨bucket, inside⟩ := by simpa [inside, eq_comm] using listed
    rw [counted, List.countP_eq_length_filter]

open Recursion in
/-- The buckets of a list fill it. -/
theorem total_histogram (key : α → Fin radix) (elements : List α) :
    (ofSizes (histogram key elements)).total = elements.length := by
  rw [total_ofSizes (measures_group key elements), (flatten_group_perm key elements).length_eq]

open Recursion in
/-- No bucket of a list ends behind the list. -/
theorem stop_le (key : α → Fin radix) (elements : List α) (bucket : Fin radix) :
    (ofSizes (histogram key elements)).starts.get bucket +
      (histogram key elements).get bucket ≤ elements.length := by
  have measured := measures_group key elements
  obtain ⟨block, here, length⟩ := measured.exists_block bucket.isLt
  have start : (ofSizes (histogram key elements)).starts.get bucket =
      Blocks.offset (group key elements) bucket :=
    starts_ofSizes measured bucket bucket.isLt
  have size : (histogram key elements).get bucket = block.length := length.symm
  rw [start, size, ← Blocks.offset_succ here, ← (flatten_group_perm key elements).length_eq]
  exact Blocks.offset_le_length _ _

end Layout

end RadixSort
