import RadixSort.Window

/-!
# The two arrays

Reads and writes go through a window. Writes into the shadow side are given as a
list of slots and values, so the order in which several tasks write is visible
as the order of one list; a slot outside the window is a fault. Copying a window
back moves its valid data to the primary array if it is not there yet, cell by
cell of that window and of no other.
-/
namespace RadixSort

/-- A value and the slot it goes to, counted from the start of a window. -/
abbrev SlotWrite (α : Type) : Type := Nat × α

/-- The caller's array and the scratch array. -/
structure Memory (α : Type) where
  primary : Array α
  scratch : Array α
  deriving DecidableEq, Repr

variable {α : Type}

/-- Store the values one after the other from `start` on. -/
def overwrite (cells : Array α) (start : Nat) : List α → Array α
  | [] => cells
  | value :: rest => overwrite (cells.setIfInBounds start value) (start + 1) rest

/-- Store every value at its slot, counted from `base`. -/
def applyWrites (cells : Array α) (base : Nat) : List (SlotWrite α) → Array α
  | [] => cells
  | (slot, value) :: rest => applyWrites (cells.setIfInBounds (base + slot) value) base rest

@[simp] theorem size_overwrite (cells : Array α) (start : Nat) (values : List α) :
    (overwrite cells start values).size = cells.size := by
  induction values generalizing cells start with
  | nil => rfl
  | cons value rest ih => simp [overwrite, ih]

/-- Overwriting changes the cells it covers and no others. -/
theorem getElem?_overwrite (cells : Array α) (start : Nat) (values : List α) (cell : Nat)
    (inside : cell < cells.size) :
    (overwrite cells start values)[cell]? =
      if start ≤ cell ∧ cell < start + values.length then values[cell - start]?
      else cells[cell]? := by
  induction values generalizing cells start with
  | nil =>
    have : ¬(start ≤ cell ∧ cell < start) := by omega
    simp [overwrite, this]
  | cons value rest ih =>
    rw [overwrite, ih _ _ (by simpa using inside)]
    rcases Nat.lt_trichotomy cell start with before | rfl | behind
    · have outer : ¬(start + 1 ≤ cell ∧ cell < start + 1 + rest.length) := by omega
      have inner : ¬(start ≤ cell ∧ cell < start + (value :: rest).length) := by omega
      simp only [outer, inner, if_false]
      exact Array.getElem?_setIfInBounds_ne (by omega)
    · have below : ¬(cell + 1 ≤ cell) := by omega
      simp [below, inside]
    · simp only [List.length_cons]
      by_cases covered : cell < start + 1 + rest.length
      · have outer : start + 1 ≤ cell ∧ cell < start + 1 + rest.length := ⟨behind, covered⟩
        have inner : start ≤ cell ∧ cell < start + (rest.length + 1) := by omega
        have shifted : cell - start = cell - (start + 1) + 1 := by omega
        simp only [outer, inner, and_self, if_true, shifted, List.getElem?_cons_succ]
      · have outer : ¬(start + 1 ≤ cell ∧ cell < start + 1 + rest.length) := by omega
        have inner : ¬(start ≤ cell ∧ cell < start + (rest.length + 1)) := by omega
        simp only [outer, inner, if_false]
        exact Array.getElem?_setIfInBounds_ne (by omega)

@[simp] theorem size_applyWrites (cells : Array α) (base : Nat) (writes : List (SlotWrite α)) :
    (applyWrites cells base writes).size = cells.size := by
  induction writes generalizing cells with
  | nil => rfl
  | cons write rest ih => simp [applyWrites, ih]

/-- Cells whose slot is not written keep their value. -/
theorem getElem?_applyWrites_of_forall_ne (cells : Array α) (base : Nat)
    (writes : List (SlotWrite α)) (cell : Nat)
    (unwritten : ∀ write ∈ writes, base + write.1 ≠ cell) :
    (applyWrites cells base writes)[cell]? = cells[cell]? := by
  induction writes generalizing cells with
  | nil => rfl
  | cons write rest ih =>
    rw [applyWrites, ih _ fun later member => unwritten later (List.mem_cons_of_mem _ member)]
    exact Array.getElem?_setIfInBounds_ne (unwritten write List.mem_cons_self)

/-- The fault of the first write whose slot is not below `length`. -/
def strayWrite? (length : Nat) (writes : List (SlotWrite α)) : Option Fault :=
  (writes.find? fun write => length ≤ write.1).map fun write =>
    .indexOutOfBounds length write.1

/-- Writes below `length` are not at fault. -/
theorem strayWrite_eq_none {length : Nat} {writes : List (SlotWrite α)}
    (fits : ∀ write ∈ writes, write.1 < length) : strayWrite? length writes = none := by
  rw [strayWrite?, Option.map_eq_none_iff, List.find?_eq_none]
  intro write member
  simpa using fits write member

/-- The part of an array between two positions. Positions in the wrong order, and an end behind
that of the array, are at fault. -/
def part (cells : Array α) (start stop : Nat) : Except Fault (Array α) :=
  if stop < start then
    .error (.partReversed start stop)
  else if cells.size < stop then
    .error (.partOutOfBounds cells.size stop)
  else
    .ok (cells.extract start stop)

/-- There is a part between two positions exactly if they are in order and within the array. -/
theorem part_eq_ok_iff {cells result : Array α} {start stop : Nat} :
    part cells start stop = .ok result ↔
      start ≤ stop ∧ stop ≤ cells.size ∧ result = cells.extract start stop := by
  unfold part
  split
  · simp only [reduceCtorEq, false_iff, not_and]
    omega
  · split
    · simp only [reduceCtorEq, false_iff, not_and]
      omega
    · simp_all [eq_comm]

namespace Memory

/-- Pair two arrays of equal length; the window covers both. -/
def pair (primary scratch : Array α) : Except Fault (Memory α × Window) :=
  if primary.size = scratch.size then
    .ok (⟨primary, scratch⟩, Window.whole primary.size)
  else
    .error .unequalRanges

/-- One of the two arrays. -/
def side (memory : Memory α) : Side → Array α
  | .primary => memory.primary
  | .scratch => memory.scratch

/-- Change one of the two arrays. -/
def modifySide (memory : Memory α) (side : Side) (change : Array α → Array α) : Memory α :=
  match side, memory with
  | .primary, ⟨primary, scratch⟩ => ⟨change primary, scratch⟩
  | .scratch, ⟨primary, scratch⟩ => ⟨primary, change scratch⟩

/-- The cells of a window in one of the two arrays. -/
def cells (memory : Memory α) (side : Side) (window : Window) : Array α :=
  (memory.side side).extract window.offset (window.offset + window.length)

/-- The valid data of a window. -/
def active (memory : Memory α) (window : Window) : Array α :=
  memory.cells window.activeSide window

/-- Store values from the start of the window on one side; values beyond its
length are dropped. -/
def fill (memory : Memory α) (side : Side) (window : Window) (values : List α) : Memory α :=
  memory.modifySide side fun array => overwrite array window.offset (values.take window.length)

/-- Replace the valid data of a window. -/
def fillActive (memory : Memory α) (window : Window) (values : List α) : Memory α :=
  memory.fill window.activeSide window values

/-- Write values to slots of the shadow side of a window. -/
def writeShadow (memory : Memory α) (window : Window) (writes : List (SlotWrite α)) :
    Except Fault (Memory α) :=
  match strayWrite? window.length writes with
  | some fault => .error fault
  | none =>
    .ok (memory.modifySide window.shadowSide fun array => applyWrites array window.offset writes)

/-- Move the valid data of a window to the primary array if it is in the scratch
array. The window that goes with the result is `window.settled`. -/
def copyBack (memory : Memory α) (window : Window) : Memory α :=
  if window.flipped then
    memory.fill .primary window (memory.cells .scratch window).toList
  else
    memory

@[simp] theorem size_copyBack_primary (memory : Memory α) (window : Window) :
    (memory.copyBack window).primary.size = memory.primary.size := by
  unfold copyBack
  split <;> simp [fill, modifySide]

/-- Copying back never writes to the scratch array. -/
@[simp] theorem copyBack_scratch (memory : Memory α) (window : Window) :
    (memory.copyBack window).scratch = memory.scratch := by
  unfold copyBack
  split <;> simp [fill, modifySide]

end Memory

end RadixSort
