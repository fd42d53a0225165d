import RadixSort.Proofs.Window.Derivation

/-!
# Copying back, at once or in parts

What copying a window back leaves in each cell is said by one law: a cell of the primary
array takes the value of the same cell of the scratch array if the window covers it and
its valid data is there, and keeps its own otherwise. The scratch array is never written,
so what a cell takes does not depend on what has been copied before. Copying twice is
therefore copying once, and copying parts comes to copying the whole, in any order, as long
as the parts cover what the whole covers.
-/
namespace RadixSort

variable {α : Type}

/-- Memories that hold the same in both arrays are equal. -/
theorem Memory.ext_cells {first second : Memory α}
    (primary : ∀ cell : Nat, first.primary[cell]? = second.primary[cell]?)
    (scratch : first.scratch = second.scratch) : first = second := by
  obtain ⟨firstPrimary, firstScratch⟩ := first
  obtain ⟨secondPrimary, secondScratch⟩ := second
  obtain rfl : firstPrimary = secondPrimary := Array.ext_getElem? primary
  obtain rfl : firstScratch = secondScratch := scratch
  rfl

namespace Memory

/-- What copying a window back leaves in a cell of the primary array. -/
theorem getElem?_copyBack {memory : Memory α} {window : Window} (spans : memory.Spans window)
    (cell : Nat) : (memory.copyBack window).primary[cell]? =
      if window.flipped = true ∧ cell ∈ window.slots then memory.scratch[cell]?
      else memory.primary[cell]? := by
  unfold copyBack
  cases window.flipped with
  | false => rfl
  | true =>
    have inPrimary : window.offset + window.length ≤ memory.primary.size := spans .primary
    have held : (slice memory.scratch window.offset window.length).length = window.length :=
      length_slice (spans .scratch)
    change (overwrite memory.primary window.offset
      ((slice memory.scratch window.offset window.length).take window.length))[cell]? = _
    rw [List.take_of_length_le (Nat.le_of_eq held)]
    by_cases covered : cell ∈ window.slots
    · obtain ⟨low, high⟩ := Window.mem_slots.mp covered
      rw [if_pos ⟨rfl, covered⟩, getElem?_overwrite _ _ _ _ (by omega), held, if_pos ⟨low, high⟩,
        getElem?_slice, if_pos (by omega), Nat.add_sub_cancel' low]
    · rw [if_neg fun both => covered both.2]
      apply getElem?_overwrite_of_outside
      rw [held]
      exact fun inside => covered (Window.mem_slots.mpr inside)

/-- Copying a window back once more changes nothing. -/
theorem copyBack_copyBack {memory : Memory α} {window : Window} (spans : memory.Spans window) :
    (memory.copyBack window).copyBack window = memory.copyBack window := by
  have still := (elsewhere_copyBack memory window).spans spans
  apply ext_cells
  · intro cell
    rw [getElem?_copyBack still, copyBack_scratch, getElem?_copyBack spans]
    split <;> rfl
  · rw [copyBack_scratch]

end Memory

namespace Window

/-- Copying back by a descriptor copies its window back. -/
theorem descriptor_copyBack (window : Window) (memory : Memory α) :
    window.descriptor.copyBack memory = memory.copyBack window := by
  obtain ⟨offset, length, flipped⟩ := window
  cases flipped with
  | false => rfl
  | true =>
    have short : (slice memory.scratch offset length).length ≤ length := by
      rw [slice, Array.length_toList, Array.size_extract]
      omega
    change memory.modifySide .primary (overwrite · offset (slice memory.scratch offset length)) =
      memory.modifySide .primary
        (overwrite · offset ((slice memory.scratch offset length).take length))
    rw [List.take_of_length_le short]

/-- The cells of parts of a window. -/
def slotsOfParts (window : Window) (parts : List (Nat × Nat)) : List Nat :=
  parts.flatMap fun part => List.range' (window.offset + part.1) part.2

/-- Copying parts of a window back, one after the other, covers the cells of the parts.

Induct over the parts. The scratch array stays as it is, so a cell that an earlier part has
covered takes the same value again. -/
theorem copyBackParts_exact {memory : Memory α} {window : Window} (spans : memory.Spans window)
    (fits : window.length < Word.bound) (parts : List (Nat × Nat))
    (inside : ∀ part ∈ parts, part.1 + part.2 ≤ window.length) :
    ∃ after, window.descriptor.copyBackParts parts memory = .ok after ∧
      after.scratch = memory.scratch ∧
      ∀ cell, after.primary[cell]? =
        if window.flipped = true ∧ cell ∈ window.slotsOfParts parts then memory.scratch[cell]?
        else memory.primary[cell]? := by
  induction parts generalizing memory with
  | nil =>
    refine ⟨memory, rfl, rfl, fun cell => ?_⟩
    rw [if_neg fun both => List.not_mem_nil both.2]
  | cons part rest ih =>
    obtain ⟨offset, length⟩ := part
    have within : offset + length ≤ window.length := inside _ List.mem_cons_self
    let first : Window := ⟨window.offset + offset, length, window.flipped⟩
    have narrowed : window.descriptor.sub offset length = .ok first.descriptor := by
      rw [descriptor_sub, sub_eq_ok_iff.mpr ⟨Nat.lt_of_le_of_lt within fits, within, rfl⟩]
      rfl
    have own : memory.Spans first := by
      intro side
      have bound := spans side
      dsimp only [first]
      omega
    obtain ⟨after, ran, scratch, cells⟩ := ih ((Memory.elsewhere_copyBack memory first).spans spans)
      fun part member => inside part (List.mem_cons_of_mem _ member)
    refine ⟨after, ?_, scratch.trans (Memory.copyBack_scratch _ _), fun cell => ?_⟩
    · refine bind_eq_ok.mpr ⟨first.descriptor, narrowed, ?_⟩
      rw [descriptor_copyBack]
      exact ran
    · have either : cell ∈ window.slotsOfParts ((offset, length) :: rest) ↔
          cell ∈ first.slots ∨ cell ∈ window.slotsOfParts rest := by
        rw [slotsOfParts, List.flatMap_cons, List.mem_append]
        rfl
      rw [cells, Memory.copyBack_scratch, Memory.getElem?_copyBack own]
      by_cases later : window.flipped = true ∧ cell ∈ window.slotsOfParts rest
      · rw [if_pos later, if_pos ⟨later.1, either.mpr (.inr later.2)⟩]
      · rw [if_neg later]
        by_cases now : first.flipped = true ∧ cell ∈ first.slots
        · rw [if_pos now, if_pos ⟨now.1, either.mpr (.inl now.2)⟩]
        · rw [if_neg now, if_neg]
          rintro ⟨flipped, covered⟩
          rcases either.mp covered with here | there
          · exact now ⟨flipped, here⟩
          · exact later ⟨flipped, there⟩

end Window

/-- Parts that start and are long as listed lie within a length and cover every position
below it, each of them once. Nothing is said of their order. -/
structure Tiles (length : Nat) (parts : List (Nat × Nat)) : Prop where
  inside : ∀ part ∈ parts, part.1 + part.2 ≤ length
  covers : (parts.flatMap fun part => List.range' part.1 part.2).Perm (List.range length)

/-- Parts that tile a window have the cells of the window. -/
theorem Tiles.mem_slotsOfParts {window : Window} {parts : List (Nat × Nat)}
    (tiles : Tiles window.length parts) (cell : Nat) :
    cell ∈ window.slotsOfParts parts ↔ cell ∈ window.slots := by
  have same (position : Nat) : (∃ part ∈ parts, position ∈ List.range' part.1 part.2) ↔
      position < window.length := by
    rw [← List.mem_range, ← tiles.covers.mem_iff, List.mem_flatMap]
  rw [Window.slotsOfParts, List.mem_flatMap, Window.mem_slots]
  constructor
  · rintro ⟨part, member, here⟩
    obtain ⟨low, high⟩ := List.mem_range'_1.mp here
    have bound := tiles.inside part member
    omega
  · rintro ⟨low, high⟩
    obtain ⟨part, member, here⟩ := (same (cell - window.offset)).mpr (by omega)
    obtain ⟨start, stop⟩ := List.mem_range'_1.mp here
    exact ⟨part, member, List.mem_range'_1.mpr (by omega)⟩

/-- Copying back all parts that tile a window leaves what copying it back leaves. -/
theorem Tiles.copyBackParts_eq {memory : Memory α} {window : Window} {parts : List (Nat × Nat)}
    (tiles : Tiles window.length parts) (spans : memory.Spans window)
    (fits : window.length < Word.bound) :
    window.descriptor.copyBackParts parts memory = .ok (memory.copyBack window) := by
  obtain ⟨after, ran, scratch, cells⟩ := window.copyBackParts_exact spans fits parts tiles.inside
  rw [ran]
  refine congrArg Except.ok (Memory.ext_cells (fun cell => ?_) ?_)
  · rw [cells, Memory.getElem?_copyBack spans]
    simp only [tiles.mem_slotsOfParts]
  · rw [scratch, Memory.copyBack_scratch]

namespace Descriptor

/-- What copying a descriptor back does whose range starts at `start`: the primary array
holds in the range what the valid data was, no other cell of either array has changed, and
the descriptor that comes of it is that of the same range with the primary array active.
Copying back again, by either descriptor, changes nothing, and copying back parts that tile
the range leaves the same. -/
structure CopiesBack (descriptor : Descriptor) (start : Nat) (memory : Memory α) : Prop where
  within : start + descriptor.length ≤ memory.primary.size
  inside : slice (descriptor.copyBack memory).primary start descriptor.length =
    memory.read descriptor.active descriptor.length
  outside : ∀ cell, ¬(start ≤ cell ∧ cell < start + descriptor.length) →
    (descriptor.copyBack memory).primary[cell]? = memory.primary[cell]?
  scratch : (descriptor.copyBack memory).scratch = memory.scratch
  settled : descriptor.settled =
    ⟨⟨.primary, start⟩, ⟨.scratch, start⟩, descriptor.length, false⟩
  again : descriptor.copyBack (descriptor.copyBack memory) = descriptor.copyBack memory
  once : descriptor.settled.copyBack (descriptor.copyBack memory) = descriptor.copyBack memory
  parts : ∀ parts, Tiles descriptor.length parts →
    descriptor.copyBackParts parts memory = .ok (descriptor.copyBack memory)

/-- A descriptor that has been derived from two arrays of equal length copies its range back,
whatever the arrays hold. -/
theorem copyBack_exact {memory : Memory α} (same : memory.primary.size = memory.scratch.size)
    (fits : memory.primary.size < Word.bound) {steps : List Derive} {descriptor : Descriptor}
    (derived : (whole memory.primary.size).deriveAll steps = .ok descriptor) :
    descriptor.CopiesBack (Derive.shift steps) memory := by
  obtain ⟨window, rfl, offset, -, within⟩ := exists_window derived
  have spans : memory.Spans window := by
    intro side
    cases side
    · exact within
    · exact Nat.le_trans within (Nat.le_of_eq same)
  have short : window.length < Word.bound := by omega
  have settled : window.descriptor.settled =
      ⟨⟨.primary, window.offset⟩, ⟨.scratch, window.offset⟩, window.length, false⟩ :=
    window.descriptor_settled
  have copied := window.descriptor_copyBack memory
  rw [← offset]
  constructor
  case within => exact within
  case inside =>
    rw [copied]
    exact Memory.held_copyBack spans
  case outside =>
    intro cell outside
    rw [copied]
    exact (Memory.elsewhere_copyBack memory window).cell .primary cell
      fun inside => outside (Window.mem_slots.mp inside)
  case scratch =>
    rw [copied]
    exact Memory.copyBack_scratch memory window
  case settled => exact settled
  case again =>
    rw [copied, window.descriptor_copyBack]
    exact Memory.copyBack_copyBack spans
  case once =>
    rw [settled]
    rfl
  case parts =>
    intro parts tiles
    rw [copied]
    exact tiles.copyBackParts_eq spans short

/-- Three cells of five whose valid data is in the scratch array, copied back at once or
the last one first. -/
theorem copyBack_exact_last :
    let memory : Memory Nat := ⟨#[1, 2, 3, 4, 5], #[10, 20, 30, 40, 50]⟩
    let descriptor : Descriptor := ⟨⟨.scratch, 2⟩, ⟨.primary, 2⟩, 3, true⟩
    memory.primary.size = memory.scratch.size ∧ memory.primary.size < Word.bound ∧
      (whole 5).deriveAll [.flip 1 4, .sub 1 3] = .ok descriptor ∧
      descriptor.CopiesBack 2 memory ∧ Tiles 3 [(2, 1), (0, 2)] ∧
      descriptor.copyBackParts [(2, 1), (0, 2)] memory =
        .ok ⟨#[1, 2, 30, 40, 50], #[10, 20, 30, 40, 50]⟩ := by
  intro memory descriptor
  have derived : (whole memory.primary.size).deriveAll [.flip 1 4, .sub 1 3] =
      .ok descriptor := rfl
  have same : memory.primary.size = memory.scratch.size := rfl
  have copies := copyBack_exact same (by decide) derived
  have tiles : Tiles 3 [(2, 1), (0, 2)] := ⟨by decide, by decide⟩
  exact ⟨rfl, by decide, derived, copies, tiles, copies.parts _ tiles⟩

end Descriptor

end RadixSort
