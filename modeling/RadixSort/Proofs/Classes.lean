import RadixSort.Engine.Recursion
import Mathlib.Data.List.Perm.Basic
import Mathlib.Order.Fin.Basic

/-!
# Classes of a key

The elements of a list that share a key are a class of it. A list that is sorted by
a key is determined by its classes, each in its own order, so two ways of sorting
by one key agree as soon as they agree on the classes: this is what stability says.
Grouping by the digits of a key lists the classes in ascending order.
-/
namespace RadixSort.Classes

variable {α : Type}

section Uniqueness

variable {κ : Type} [PartialOrder κ] [DecidableEq κ] {key : α → κ}

/-- The first elements of two sorted lists with equal classes have equal keys, in
one direction: the first element of the second list occurs in the first list. -/
theorem head_le {x y : α} {first second : List α}
    (sorted : (x :: first).Pairwise fun a b => key a ≤ key b)
    (classes : ∀ k, (x :: first).filter (key · = k) = (y :: second).filter (key · = k)) :
    key x ≤ key y := by
  have present : y ∈ x :: first := by
    have member : y ∈ (x :: first).filter (key · = key y) := by simp [classes]
    exact (List.mem_filter.mp member).1
  rcases List.mem_cons.mp present with rfl | later
  · exact le_refl _
  · exact (List.pairwise_cons.mp sorted).1 y later

/-- Two lists that are sorted by a key and have the same classes are equal.

Induct over the first list. The two first elements have equal keys, since each
occurs in the other list and no element there has a smaller key; both stand first
in the class of that key, so they are the same element, and what follows has equal
classes again. -/
theorem eq_of_sorted {first second : List α}
    (firstSorted : first.Pairwise fun a b => key a ≤ key b)
    (secondSorted : second.Pairwise fun a b => key a ≤ key b)
    (classes : ∀ k, first.filter (key · = k) = second.filter (key · = k)) : first = second := by
  induction first generalizing second with
  | nil =>
    cases second with
    | nil => rfl
    | cons y second => simpa using classes (key y)
  | cons x first ih =>
    cases second with
    | nil => simpa using classes (key x)
    | cons y second =>
      have same : key x = key y :=
        le_antisymm (head_le firstSorted classes)
          (head_le secondSorted fun k => (classes k).symm)
      have heads := classes (key x)
      simp only [List.filter_cons, same, decide_true, if_true, List.cons.injEq] at heads
      obtain rfl := heads.1
      have tails : first = second := by
        apply ih firstSorted.tail secondSorted.tail
        intro k
        have whole := classes k
        simp only [List.filter_cons] at whole
        split at whole
        · exact (List.cons.inj whole).2
        · exact whole
      rw [tails]

end Uniqueness

variable {radix : Nat} {key : α → Fin radix}

/-- Filtering a list of classes for one of them leaves that one. -/
theorem filter_flatMap (shares : Fin radix → List α) (own : ∀ bucket, ∀ x ∈ shares bucket,
    key x = bucket) (bucket : Fin radix) :
    ((List.finRange radix).flatMap shares).filter (key · = bucket) = shares bucket := by
  have pick (listed : List (Fin radix)) (distinct : listed.Nodup) :
      (listed.flatMap shares).filter (key · = bucket) =
        if bucket ∈ listed then shares bucket else [] := by
    induction listed with
    | nil => simp
    | cons head rest ih =>
      obtain ⟨fresh, distinct⟩ := List.nodup_cons.mp distinct
      rw [List.flatMap_cons, List.filter_append, ih distinct]
      by_cases same : head = bucket
      · subst same
        have whole : (shares head).filter (key · = head) = shares head :=
          List.filter_eq_self.mpr fun x member => by simpa using own head x member
        simp [whole, fresh]
      · have none : (shares head).filter (key · = bucket) = [] :=
          List.filter_eq_nil_iff.mpr fun x member => by
            simpa [own head x member] using same
        simp [none, Ne.symm same]
  simpa using pick (List.finRange radix) (List.nodup_finRange radix)

/-- A list of classes in ascending order is sorted by the key. -/
theorem sorted_flatMap (shares : Fin radix → List α) (own : ∀ bucket, ∀ x ∈ shares bucket,
    key x = bucket) :
    ((List.finRange radix).flatMap shares).Pairwise fun x y => key x ≤ key y := by
  rw [List.pairwise_flatMap]
  constructor
  · intro bucket _
    apply List.pairwise_of_forall_mem_list
    intro x inFirst y inSecond
    rw [own bucket x inFirst, own bucket y inSecond]
  · refine (List.pairwise_lt_finRange radix).imp ?_
    intro lower upper ordered x inFirst y inSecond
    rw [own lower x inFirst, own upper y inSecond]
    exact le_of_lt ordered

/-- The classes of a list, one after the other, are its elements in another order. -/
theorem flatMap_filter_perm (elements : List α) :
    ((List.finRange radix).flatMap fun bucket => elements.filter (key · = bucket)).Perm
      elements := by
  have collect (listed : List (Fin radix)) (distinct : listed.Nodup) (elements : List α)
      (covered : ∀ x ∈ elements, key x ∈ listed) :
      (listed.flatMap fun bucket => elements.filter (key · = bucket)).Perm elements := by
    induction listed generalizing elements with
    | nil =>
      cases elements with
      | nil => simp
      | cons x rest => simpa using covered x List.mem_cons_self
    | cons head rest ih =>
      obtain ⟨fresh, distinct⟩ := List.nodup_cons.mp distinct
      have others := ih distinct (elements.filter fun x => !decide (key x = head)) (by
        intro x member
        obtain ⟨present, different⟩ := List.mem_filter.mp member
        have different : key x ≠ head := by simpa using different
        exact List.mem_of_ne_of_mem different (covered x present))
      have same : (rest.flatMap fun bucket =>
            (elements.filter fun x => !decide (key x = head)).filter (key · = bucket)) =
          rest.flatMap fun bucket => elements.filter (key · = bucket) := by
        apply List.flatMap_congr
        intro bucket member
        have different : bucket ≠ head := fun equal => fresh (equal ▸ member)
        rw [List.filter_filter]
        apply List.filter_congr
        intro x _
        by_cases here : key x = bucket
        · simp [here, different]
        · simp [here]
      rw [same] at others
      exact (List.Perm.append_left _ others).trans
        (List.filter_append_perm (fun x => decide (key x = head)) elements)
  exact collect _ (List.nodup_finRange radix) elements fun x _ => List.mem_finRange _

/-- A list of rearranged classes is a rearrangement of the list. -/
theorem flatMap_perm {shares : Fin radix → List α} {elements : List α}
    (rearranged : ∀ bucket, (shares bucket).Perm (elements.filter (key · = bucket))) :
    ((List.finRange radix).flatMap shares).Perm elements :=
  (List.Perm.flatMap_left _ fun bucket _ => rearranged bucket).trans
    (flatMap_filter_perm elements)

/-- A list that is sorted by the key is the list of its classes in order. -/
theorem flatMap_filter_of_sorted {elements : List α}
    (sorted : elements.Pairwise fun x y => key x ≤ key y) :
    (List.finRange radix).flatMap (fun bucket => elements.filter (key · = bucket)) = elements := by
  have own : ∀ bucket, ∀ x ∈ elements.filter (key · = bucket), key x = bucket :=
    fun bucket x member => by simpa using (List.mem_filter.mp member).2
  exact eq_of_sorted (sorted_flatMap _ own) sorted fun bucket => filter_flatMap _ own bucket

end RadixSort.Classes
