import RadixSort.Memory

/-!
# What an operation on a window changes

Every operation on a window leaves all cells outside it alone, in both arrays. What is
held by another window, which has no slot in common with it, is therefore what was held
before. Within the window, storing values makes it hold them, writing to its shadow side
changes nothing that it holds, and copying back makes the settled window hold what the
window held.
-/
namespace RadixSort

variable {α : Type}

/-- The values of an array from `start` on, `length` of them. -/
def slice (cells : Array α) (start length : Nat) : List α :=
  (cells.extract start (start + length)).toList

/-- A slice begins at its start and ends with its length. -/
theorem getElem?_slice (cells : Array α) (start length place : Nat) :
    (slice cells start length)[place]? =
      if place < length then cells[start + place]? else none := by
  rw [slice, Array.getElem?_toList, Array.getElem?_extract]
  by_cases inside : place < length
  · rw [if_pos inside]
    split
    · rfl
    · rw [Array.getElem?_eq_none (by omega)]
  · rw [if_neg inside, if_neg (by omega)]

/-- What a slice lists stands in the array. -/
theorem getElem?_eq_slice {cells : Array α} {start length place : Nat}
    (inside : place < (slice cells start length).length) :
    cells[start + place]? = (slice cells start length)[place]? := by
  rw [slice, Array.length_toList, Array.size_extract] at inside
  rw [getElem?_slice, if_pos (by omega)]

/-- A slice that does not reach past the end is as long as it says. -/
theorem length_slice {cells : Array α} {start length : Nat} (inside : start + length ≤ cells.size) :
    (slice cells start length).length = length := by
  rw [slice, Array.length_toList, Array.size_extract]
  omega

@[simp] theorem slice_zero (cells : Array α) (start : Nat) : slice cells start 0 = [] := by
  simp [slice]

/-- The slice of a whole array is the list of its values. -/
theorem slice_all (cells : Array α) : slice cells 0 cells.size = cells.toList := by
  simp [slice]

/-- Arrays that agree on a range have the same slice there. -/
theorem slice_congr {first second : Array α} {start length : Nat}
    (agree : ∀ cell, start ≤ cell → cell < start + length → first[cell]? = second[cell]?) :
    slice first start length = slice second start length := by
  apply List.ext_getElem?
  intro place
  rw [getElem?_slice, getElem?_slice]
  by_cases inside : place < length
  · rw [if_pos inside, if_pos inside, agree _ (by omega) (by omega)]
  · rw [if_neg inside, if_neg inside]

/-- A slice is a list if the cells hold the values of the list. -/
theorem slice_eq {cells : Array α} {start length : Nat} {values : List α}
    (same : values.length = length)
    (holds : ∀ place, place < length → cells[start + place]? = values[place]?) :
    slice cells start length = values := by
  apply List.ext_getElem?
  intro place
  rw [getElem?_slice]
  by_cases inside : place < length
  · rw [if_pos inside, holds place inside]
  · rw [if_neg inside, List.getElem?_eq_none (by omega)]

/-- A slice is its first part followed by the rest. -/
theorem slice_add (cells : Array α) (start first second : Nat) :
    slice cells start (first + second) =
      slice cells start first ++ slice cells (start + first) second := by
  have low : min start (start + first) = start := Nat.min_eq_left (Nat.le_add_right _ _)
  have high : max (start + first) (start + first + second) = start + (first + second) := by omega
  rw [slice, slice, slice, ← Array.toList_append, Array.extract_append_extract, low, high]

/-- A slice within a slice. -/
theorem slice_within (cells : Array α) (start : Nat) {length offset part : Nat}
    (inside : offset + part ≤ length) :
    slice cells (start + offset) part = ((slice cells start length).drop offset).take part := by
  apply List.ext_getElem?
  intro place
  rw [getElem?_slice]
  by_cases within : place < part
  · rw [if_pos within, List.getElem?_take_of_lt within, List.getElem?_drop, getElem?_slice,
      if_pos (by omega), Nat.add_assoc]
  · rw [if_neg within, List.getElem?_eq_none (by rw [List.length_take]; omega)]

/-- Overwriting leaves the cells that it does not cover. -/
theorem getElem?_overwrite_of_outside {cells : Array α} {start : Nat} {values : List α}
    {cell : Nat} (outside : ¬(start ≤ cell ∧ cell < start + values.length)) :
    (overwrite cells start values)[cell]? = cells[cell]? := by
  rcases Nat.lt_or_ge cell cells.size with within | beyond
  · rw [getElem?_overwrite _ _ _ _ within, if_neg outside]
  · rw [Array.getElem?_eq_none (by rw [size_overwrite]; exact beyond),
      Array.getElem?_eq_none beyond]

/-- The cells that a window covers in either array. -/
def Window.slots (window : Window) : List Nat := List.range' window.offset window.length

@[simp] theorem Window.mem_slots {window : Window} {cell : Nat} :
    cell ∈ window.slots ↔ window.offset ≤ cell ∧ cell < window.offset + window.length := by
  simp [slots, List.mem_range'_1]

@[simp] theorem Window.length_slots (window : Window) : window.slots.length = window.length := by
  simp [slots]

@[simp] theorem Window.slots_settled (window : Window) : window.settled.slots = window.slots := rfl

/-- The window with the roles of the two arrays exchanged. -/
def Window.exchanged (window : Window) : Window := ⟨window.offset, window.length, !window.flipped⟩

@[simp] theorem Window.slots_exchanged (window : Window) :
    window.exchanged.slots = window.slots := rfl

/-- What was the shadow side is the active one once the roles are exchanged. -/
theorem Window.activeSide_exchanged (window : Window) :
    window.exchanged.activeSide = window.shadowSide := by
  obtain ⟨offset, length, flipped⟩ := window
  cases flipped <;> rfl

namespace Memory

/-- What the valid side of a window holds. -/
def held (memory : Memory α) (window : Window) : List α := (memory.active window).toList

theorem held_eq_slice (memory : Memory α) (window : Window) :
    memory.held window =
      slice (memory.side window.activeSide) window.offset window.length := rfl

/-- A window does not reach past the end of either array. -/
def Spans (memory : Memory α) (window : Window) : Prop :=
  ∀ side, window.offset + window.length ≤ (memory.side side).size

/-- A window holds as many values as it is long. -/
theorem Spans.length_held {memory : Memory α} {window : Window} (spans : memory.Spans window) :
    (memory.held window).length = window.length := by
  rw [held_eq_slice, length_slice (spans _)]

/-- Changing one of the two arrays leaves the other as it was. -/
theorem side_modifySide (memory : Memory α) (side other : Side) (change : Array α → Array α) :
    (memory.modifySide side change).side other =
      if other = side then change (memory.side side) else memory.side other := by
  cases side <;> cases other <;> rfl

/-- Two states of the memory that differ at most in the cells of a window. -/
structure Elsewhere (window : Window) (before after : Memory α) : Prop where
  size : ∀ side, (after.side side).size = (before.side side).size
  cell : ∀ side cell, cell ∉ window.slots → (after.side side)[cell]? = (before.side side)[cell]?

namespace Elsewhere

variable {window other : Window} {before middle after : Memory α}

theorem refl (window : Window) (memory : Memory α) : Elsewhere window memory memory :=
  ⟨fun _ => rfl, fun _ _ _ => rfl⟩

theorem trans (first : Elsewhere window before middle) (second : Elsewhere window middle after) :
    Elsewhere window before after where
  size side := (second.size side).trans (first.size side)
  cell side cell outside := (second.cell side cell outside).trans (first.cell side cell outside)

/-- A change within a part of a window is a change within the window. -/
theorem widen (part : ∀ cell ∈ other.slots, cell ∈ window.slots)
    (change : Elsewhere other before after) : Elsewhere window before after where
  size := change.size
  cell side cell outside := change.cell side cell fun inside => outside (part cell inside)

/-- A window without a slot in the changed one holds what it held. -/
theorem held_eq (change : Elsewhere window before after)
    (apart : ∀ cell ∈ other.slots, cell ∉ window.slots) : after.held other = before.held other := by
  rw [held_eq_slice, held_eq_slice]
  apply slice_congr
  intro cell low high
  exact change.cell _ cell (apart cell (Window.mem_slots.mpr ⟨low, high⟩))

/-- Windows within the arrays stay within them. -/
theorem spans (change : Elsewhere window before after) (inside : before.Spans other) :
    after.Spans other := by
  intro side
  rw [change.size]
  exact inside side

/-- Changing cells of a window on one side is a change within the window. -/
theorem of_modifySide {memory : Memory α} {side : Side} {change : Array α → Array α}
    (size : (change (memory.side side)).size = (memory.side side).size)
    (cell : ∀ cell, cell ∉ window.slots →
      (change (memory.side side))[cell]? = (memory.side side)[cell]?) :
    Elsewhere window memory (memory.modifySide side change) where
  size other := by
    rw [side_modifySide]
    split
    · rename_i same
      rw [size, same]
    · rfl
  cell other place outside := by
    rw [side_modifySide]
    split
    · rename_i same
      rw [cell place outside, same]
    · rfl

end Elsewhere

/-- Storing values on one side of a window changes nothing outside it. -/
theorem elsewhere_fill (memory : Memory α) (side : Side) (window : Window) (values : List α) :
    Elsewhere window memory (memory.fill side window values) := by
  apply Elsewhere.of_modifySide
  · exact size_overwrite _ _ _
  · intro cell outside
    apply getElem?_overwrite_of_outside
    rintro ⟨low, high⟩
    rw [List.length_take] at high
    exact outside (Window.mem_slots.mpr ⟨low, by omega⟩)

/-- After as many values as a window is long have been stored on one side, they are
there. -/
theorem slice_fill {memory : Memory α} {window : Window} (spans : memory.Spans window)
    (side : Side) {values : List α} (same : values.length = window.length) :
    slice ((memory.fill side window values).side side) window.offset window.length = values := by
  apply slice_eq same
  intro place inside
  have bound := spans side
  rw [fill, side_modifySide, if_pos rfl, getElem?_overwrite _ _ _ _ (by omega),
    List.take_of_length_le (Nat.le_of_eq same), if_pos (by omega), Nat.add_sub_cancel_left]

/-- Replacing the valid data of a window changes nothing outside it. -/
theorem elsewhere_fillActive (memory : Memory α) (window : Window) (values : List α) :
    Elsewhere window memory (memory.fillActive window values) :=
  elsewhere_fill memory _ window values

/-- A window holds the values that its valid data is replaced by. -/
theorem held_fillActive {memory : Memory α} {window : Window} (spans : memory.Spans window)
    {values : List α} (same : values.length = window.length) :
    (memory.fillActive window values).held window = values :=
  slice_fill spans _ same

/-- Copying a window back changes nothing outside it. -/
theorem elsewhere_copyBack (memory : Memory α) (window : Window) :
    Elsewhere window memory (memory.copyBack window) := by
  unfold copyBack
  split
  · exact elsewhere_fill memory .primary window _
  · exact Elsewhere.refl window memory

/-- Copied back, a window holds what it held. -/
theorem held_copyBack {memory : Memory α} {window : Window} (spans : memory.Spans window) :
    (memory.copyBack window).held window.settled = memory.held window := by
  unfold copyBack
  cases flipped : window.flipped with
  | true =>
    rw [if_pos rfl, held_eq_slice]
    have side : window.activeSide = .scratch := by simp [Window.activeSide, flipped]
    have values : (memory.cells .scratch window).toList = memory.held window := by
      rw [held, active, side]
    rw [values]
    exact slice_fill spans .primary spans.length_held
  | false =>
    rw [if_neg (by decide)]
    have same : window.settled = window := by
      rw [Window.settled, ← flipped]
    rw [same]

/-- No write is at fault exactly if all stay within the window. -/
theorem strayWrite_eq_none_iff {length : Nat} {writes : List (SlotWrite α)} :
    strayWrite? length writes = none ↔ ∀ write ∈ writes, write.1 < length := by
  refine ⟨fun none write member => ?_, strayWrite_eq_none⟩
  rw [strayWrite?, Option.map_eq_none_iff, List.find?_eq_none] at none
  simpa using none write member

/-- Writes succeed exactly if they stay within the window. -/
theorem writeShadow_eq_ok_iff {memory after : Memory α} {window : Window}
    {writes : List (SlotWrite α)} :
    memory.writeShadow window writes = .ok after ↔
      (∀ write ∈ writes, write.1 < window.length) ∧
        after = memory.modifySide window.shadowSide fun array =>
          applyWrites array window.offset writes := by
  constructor
  · intro stored
    cases stray : strayWrite? window.length writes with
    | some fault =>
      rw [writeShadow, stray] at stored
      cases stored
    | none =>
      rw [writeShadow, stray] at stored
      exact ⟨strayWrite_eq_none_iff.mp stray, (Except.ok.inj stored).symm⟩
  · rintro ⟨fits, rfl⟩
    rw [writeShadow, strayWrite_eq_none fits]

/-- Writing to the shadow side of a window changes nothing outside it, nor what the
window holds, and carries out the writes. -/
theorem writeShadow_exact (memory : Memory α) (window : Window) {writes : List (SlotWrite α)}
    (fits : ∀ write ∈ writes, write.1 < window.length) :
    ∃ written, memory.writeShadow window writes = .ok written ∧ Elsewhere window memory written ∧
      written.held window = memory.held window ∧
      written.side window.shadowSide =
        applyWrites (memory.side window.shadowSide) window.offset writes := by
  have other : window.activeSide ≠ window.shadowSide := by
    rw [Window.shadowSide]
    cases window.activeSide <;> simp [Side.other]
  refine ⟨_, writeShadow_eq_ok_iff.mpr ⟨fits, rfl⟩, ?_, ?_, ?_⟩
  · apply Elsewhere.of_modifySide
    · exact size_applyWrites _ _ _
    · intro cell outside
      apply getElem?_applyWrites_of_forall_ne
      intro write member same
      have within := fits write member
      exact outside (Window.mem_slots.mpr (by omega))
  · rw [held_eq_slice, held_eq_slice, side_modifySide, if_neg other]
  · rw [side_modifySide, if_pos rfl]

end Memory

end RadixSort
