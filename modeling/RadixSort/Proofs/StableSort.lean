import RadixSort.Proofs.Classes

/-!
# Stable sorts

A stable sort of a list by a key is in ascending order of the key and has the elements
of each key in their old order. There is only one such list, and merge sort gives it.
Grouping a stable sort by a digit is a stable sort by the digit followed by the key.
-/
namespace RadixSort

variable {α : Type}

/-- `sorted` has the elements of `elements` in ascending order of their keys, and
elements of one key in the order they had. -/
structure StableSort (key : α → Nat) (elements sorted : List α) : Prop where
  ascending : sorted.Pairwise fun x y => key x ≤ key y
  classes : ∀ k, sorted.filter (key · = k) = elements.filter (key · = k)

namespace StableSort

variable {key : α → Nat} {elements sorted : List α}

/-- There is only one stable sort of a list. -/
theorem unique {other : List α} (first : StableSort key elements sorted)
    (second : StableSort key elements other) : sorted = other :=
  Classes.eq_of_sorted first.ascending second.ascending fun k =>
    (first.classes k).trans (second.classes k).symm

/-- Comparing keys is transitive and total, which merge sort relies on. -/
theorem orders (key : α → Nat) :
    (∀ x y z, decide (key x ≤ key y) → decide (key y ≤ key z) → decide (key x ≤ key z)) ∧
      ∀ x y, (decide (key x ≤ key y) || decide (key y ≤ key x)) = true := by
  simp only [decide_eq_true_eq, Bool.or_eq_true]
  exact ⟨fun _ _ _ => Nat.le_trans, fun _ _ => Nat.le_total _ _⟩

/-- Merge sort is stable. The elements of one key are a part of the list that is in
order, so merge sort keeps it as a part, and no other element has that key. -/
theorem mergeSort (key : α → Nat) (elements : List α) :
    StableSort key elements (elements.mergeSort fun x y => decide (key x ≤ key y)) where
  ascending := by
    refine (List.pairwise_mergeSort (orders key).1 (orders key).2 elements).imp ?_
    intro x y ordered
    simpa using ordered
  classes k := by
    have kept : (elements.filter (key · = k)).Sublist
        (elements.mergeSort fun x y => decide (key x ≤ key y)) := by
      apply List.sublist_mergeSort (orders key).1 (orders key).2
      · apply List.pairwise_of_forall_mem_list
        intro x first y second
        have first : key x = k := by simpa using (List.mem_filter.mp first).2
        have second : key y = k := by simpa using (List.mem_filter.mp second).2
        simp [first, second]
      · exact List.filter_sublist
    have inside := kept.filter (key · = k)
    rw [List.filter_filter] at inside
    simp only [Bool.and_self] at inside
    refine (inside.eq_of_length ?_).symm
    exact (((List.mergeSort_perm elements _).filter _).length_eq).symm

/-- A list is its own stable sort by a key that all elements share. -/
theorem of_constant (constant : Nat) (shared : ∀ x, key x = constant) (elements : List α) :
    StableSort key elements elements where
  ascending := List.pairwise_of_forall fun x y => by rw [shared x, shared y]
  classes _ := rfl

/-- Grouping a stable sort by a digit sorts by the digit first and by the key second.

Elements with equal combined keys have equal digits and equal keys, so their class is
found within one bucket, in the order it had there. -/
theorem regroup {radix bound : Nat} (digit : α → Fin radix) (bounded : ∀ x, key x < bound)
    (stable : StableSort key elements sorted) :
    StableSort (fun x => digit x * bound + key x) elements
      ((List.finRange radix).flatMap fun bucket => sorted.filter (digit · = bucket)) where
  ascending := by
    rw [List.pairwise_flatMap]
    constructor
    · intro bucket _
      apply List.Pairwise.imp_of_mem (R := fun x y => key x ≤ key y)
      · intro x y first second ordered
        have first : digit x = bucket := by simpa using (List.mem_filter.mp first).2
        have second : digit y = bucket := by simpa using (List.mem_filter.mp second).2
        rw [first, second]
        exact Nat.add_le_add_left ordered _
      · exact stable.ascending.filter _
    · refine (List.pairwise_lt_finRange radix).imp ?_
      intro lower upper ordered x first y second
      have first : digit x = lower := by simpa using (List.mem_filter.mp first).2
      have second : digit y = upper := by simpa using (List.mem_filter.mp second).2
      have small := bounded x
      calc digit x * bound + key x ≤ digit x * bound + bound := by omega
        _ = (lower + 1) * bound := by rw [first, Nat.add_mul, Nat.one_mul]
        _ ≤ upper * bound := Nat.mul_le_mul_right bound ordered
        _ ≤ digit y * bound + key y := by rw [second]; exact Nat.le_add_right _ _
  classes k := by
    have own : ∀ bucket, ∀ x ∈ sorted.filter (digit · = bucket), digit x = bucket :=
      fun bucket x member => by simpa using (List.mem_filter.mp member).2
    have narrow (list : List α) (x : α) :
        list.filter (fun y => digit y * bound + key y = digit x * bound + key x) =
          (list.filter (key · = key x)).filter (digit · = digit x) := by
      rw [List.filter_filter]
      apply List.filter_congr
      intro y _
      have first := bounded x
      have second := bounded y
      rw [Bool.eq_iff_iff]
      simp only [Bool.and_eq_true, decide_eq_true_eq]
      constructor
      · intro same
        have digits : (digit y).val = (digit x).val := by
          have quotient (d r : Nat) (small : r < bound) : (d * bound + r) / bound = d := by
            rw [Nat.mul_comm, Nat.mul_add_div (by omega), Nat.div_eq_of_lt small, Nat.add_zero]
          rw [← quotient (digit y) (key y) second, same, quotient (digit x) (key x) first]
        exact ⟨Fin.ext digits, by rw [digits] at same; omega⟩
      · rintro ⟨digits, keys⟩
        rw [digits, keys]
    by_cases found : ∃ x, digit x * bound + key x = k
    · obtain ⟨x, rfl⟩ := found
      rw [narrow, narrow, ← stable.classes, List.filter_filter, List.filter_filter]
      calc ((List.finRange radix).flatMap fun bucket => sorted.filter (digit · = bucket)).filter
              (fun y => decide (digit y = digit x) && decide (key y = key x))
          = (((List.finRange radix).flatMap fun bucket => sorted.filter (digit · = bucket)).filter
              (digit · = digit x)).filter (key · = key x) := by
            rw [List.filter_filter]
            simp only [Bool.and_comm]
        _ = sorted.filter (fun y => decide (digit y = digit x) && decide (key y = key x)) := by
            rw [Classes.filter_flatMap _ own, List.filter_filter]
            simp only [Bool.and_comm]
    · have none (list : List α) : list.filter (fun y => digit y * bound + key y = k) = [] :=
        List.filter_eq_nil_iff.mpr fun x _ => by simpa using fun same => found ⟨x, same⟩
      rw [none, none]

end StableSort

end RadixSort
