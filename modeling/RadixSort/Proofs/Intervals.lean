import Mathlib.Data.List.Basic

/-!
# Intervals that follow one another

A range of slots is divided into half-open intervals, listed in order, each beginning
where its predecessor ends. Some of them may be empty. Listed so, they overlap nowhere
and leave nothing out. An increasing function gives such a list: its values are the
places where one interval ends and the next begins.
-/
namespace RadixSort.Intervals

/-- The first interval begins at `low`, every other where its predecessor ends, and the last
one ends at `high`. -/
def Chained : Nat → List (Nat × Nat) → Nat → Prop
  | low, [], high => low = high
  | low, interval :: rest, high =>
    interval.1 = low ∧ interval.1 ≤ interval.2 ∧ Chained interval.2 rest high

/-- Consecutive intervals from `low` to `high`: no two of them overlap, and the slots in them
are those of the range. -/
structure Tiles (low high : Nat) (intervals : List (Nat × Nat)) : Prop where
  chained : Chained low intervals high
  apart : intervals.Pairwise fun earlier later => earlier.2 ≤ later.1
  covers : ∀ slot, (∃ interval ∈ intervals, interval.1 ≤ slot ∧ slot < interval.2) ↔
    low ≤ slot ∧ slot < high

variable {low high : Nat} {intervals : List (Nat × Nat)}

/-- A chain does not end before it begins. -/
theorem Chained.ordered (chained : Chained low intervals high) : low ≤ high := by
  induction intervals generalizing low with
  | nil => exact Nat.le_of_eq chained
  | cons interval rest ih =>
    obtain ⟨rfl, rises, others⟩ := chained
    exact Nat.le_trans rises (ih others)

/-- No interval of a chain begins before the chain. -/
theorem Chained.begins (chained : Chained low intervals high) :
    ∀ interval ∈ intervals, low ≤ interval.1 := by
  induction intervals generalizing low with
  | nil => simp
  | cons interval rest ih =>
    obtain ⟨rfl, rises, others⟩ := chained
    rw [List.forall_mem_cons]
    exact ⟨Nat.le_refl _, fun later member => Nat.le_trans rises (ih others later member)⟩

/-- The intervals of a chain lie in order. -/
theorem Chained.apart (chained : Chained low intervals high) :
    intervals.Pairwise fun earlier later => earlier.2 ≤ later.1 := by
  induction intervals generalizing low with
  | nil => exact List.Pairwise.nil
  | cons interval rest ih =>
    obtain ⟨-, -, others⟩ := chained
    exact List.pairwise_cons.mpr ⟨others.begins, ih others⟩

/-- A slot is in some interval of a chain exactly if it lies between its ends.

A slot of the chain is in the first interval or in the chain of the others, which begins
where the first interval ends. -/
theorem Chained.covers (chained : Chained low intervals high) (slot : Nat) :
    (∃ interval ∈ intervals, interval.1 ≤ slot ∧ slot < interval.2) ↔
      low ≤ slot ∧ slot < high := by
  induction intervals generalizing low with
  | nil =>
    obtain rfl : low = high := chained
    simp
  | cons interval rest ih =>
    obtain ⟨rfl, rises, others⟩ := chained
    have reaches := others.ordered
    rw [List.exists_mem_cons_iff, ih others]
    omega

/-- A chain tiles what lies between its ends. -/
theorem Chained.tiles (chained : Chained low intervals high) : Tiles low high intervals :=
  ⟨chained, chained.apart, chained.covers⟩

/-- The values of an increasing function delimit a chain, from whichever argument on. -/
theorem chained_range' (bound : Nat → Nat) (first count : Nat)
    (rises : ∀ index, first ≤ index → index < first + count → bound index ≤ bound (index + 1)) :
    Chained (bound first)
      ((List.range' first count).map fun index => (bound index, bound (index + 1)))
      (bound (first + count)) := by
  induction count generalizing first with
  | zero => rfl
  | succ count ih =>
    have others := ih (first + 1) fun index low high => rises index (by omega) (by omega)
    rw [Nat.add_right_comm first 1 count] at others
    rw [List.range'_succ, List.map_cons]
    exact ⟨rfl, rises first (Nat.le_refl _) (by omega), others⟩

/-- The values of an increasing function delimit intervals that tile what lies between the first
value and the last. -/
theorem tiles_range (bound : Nat → Nat) {count : Nat}
    (rises : ∀ index < count, bound index ≤ bound (index + 1)) :
    Tiles (bound 0) (bound count)
      ((List.range count).map fun index => (bound index, bound (index + 1))) := by
  have chained := chained_range' bound 0 count fun index _ inside => rises index (by omega)
  rw [Nat.zero_add, ← List.range_eq_range'] at chained
  exact chained.tiles

end RadixSort.Intervals
