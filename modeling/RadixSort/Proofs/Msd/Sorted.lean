import RadixSort.Proofs.Msd.Run

/-!
# The result is sorted, whatever the schedule

An order respects with the digits if, where two elements first differ in a digit, the one
with the smaller digit does not belong behind the other. The elements of one range have
the same digits at all depths before its own, so its buckets may be put one after the
other. Nothing is asked of the digits of the elements that the fallback puts in order.
-/
namespace RadixSort

open Recursion

variable {α : Type} {radix : Nat}

/-- Where two elements first differ in a digit, and digits are asked for at that depth,
the one with the smaller digit does not belong behind the other. -/
def Respects (digit : α → Nat → Fin radix) (maxDepth : Nat) (compare : α → α → Ordering) : Prop :=
  ∀ x y depth, depth < maxDepth → Alike digit depth x y → digit x depth < digit y depth →
    compare x y ≠ .gt

/-- No element belongs before one that it stands behind. -/
def Ordered (compare : α → α → Ordering) (elements : List α) : Prop :=
  elements.Pairwise fun x y => compare x y ≠ .gt

/-- A list of at most one element is in order. -/
theorem Ordered.of_few {compare : α → α → Ordering} {elements : List α}
    (few : elements.length ≤ 1) : Ordered compare elements := by
  match elements, few with
  | [], _ => exact List.Pairwise.nil
  | [x], _ => exact List.pairwise_singleton _ x

section Recursion

variable {rules : Rules α radix} {compare : α → α → Ordering}
  (keeps : ∀ elements sorted, rules.fallback elements = .ok sorted → sorted.Perm elements)
  (orders : ∀ elements sorted, rules.Hands elements → rules.fallback elements = .ok sorted →
    Ordered compare sorted)
  (respects : Respects rules.digits.digit rules.maxDepth compare)

include respects in
/-- Buckets in order, one after the other, are in order. -/
theorem join_ordered {elements : List α} {depth : Nat} (shallow : depth < rules.maxDepth)
    (uniform : Uniform rules.digits.digit depth elements)
    {results : Fin radix → Result α}
    (rearranged : ∀ bucket, (results bucket).elements.Perm
      (elements.filter (rules.digits.digit · depth = bucket)))
    (ordered : ∀ bucket, Ordered compare (results bucket).elements) :
    Ordered compare (join ((List.finRange radix).map results)).elements := by
  rw [join, List.flatMap_map, Ordered, List.pairwise_flatMap]
  constructor
  · intro bucket _
    exact ordered bucket
  · refine (List.pairwise_lt_finRange radix).imp ?_
    intro lower upper less x first y second
    obtain ⟨inside, same⟩ := List.mem_filter.mp ((rearranged lower).mem_iff.mp first)
    obtain ⟨within, equal⟩ := List.mem_filter.mp ((rearranged upper).mem_iff.mp second)
    apply respects x y depth shallow (uniform x inside y within)
    rwa [of_decide_eq_true same, of_decide_eq_true equal]

include keeps orders respects

/-- What a job makes of elements that are alike before its depth is in order. -/
theorem JobSorts.ordered {elements : List α} {depth : Nat} {result : Result α}
    (sorts : JobSorts rules elements depth result)
    (uniform : Uniform rules.digits.digit depth elements) :
    Ordered compare result.elements := by
  induction sorts with
  | alone few => exact .of_few few
  | final many ends finished => exact orders _ _ ⟨many, _, ends, uniform⟩ finished
  | @split elements depth results many goesOn readable each ih =>
    have arranged := arrange_perm rules.settings.inPlace (rules.digits.digit · depth) elements
    have within := uniform.mono fun x member => arranged.mem_iff.mp member
    have shallow : depth < rules.maxDepth := Nat.lt_of_not_le fun deep => goesOn (.inr deep)
    apply join_ordered respects shallow within
    · intro bucket
      exact (each bucket).perm keeps
    · intro bucket
      exact ih bucket (within.filter bucket)

/-- What the engine makes of elements that are alike before their depth is in order. -/
theorem EngineSorts.ordered {total : Nat} {elements : List α} {depth : Nat} {result : Result α}
    (sorts : EngineSorts rules total elements depth result)
    (uniform : Uniform rules.digits.digit depth elements) :
    Ordered compare result.elements := by
  induction sorts with
  | alone few => exact .of_few few
  | job many inForce short sorts => exact sorts.ordered keeps orders respects uniform
  | @step elements depth threshold results many inForce long readable each ih =>
    have positive : 0 < Rules.chunkLength elements.length threshold :=
      Rules.chunkLength_pos (by omega)
    have shares := bucketShare_perm positive (rules.digits.digit · depth) elements
    apply join_ordered respects long.2.1 uniform
    · intro bucket
      exact ((each bucket).perm keeps).trans (shares bucket)
    · intro bucket
      exact ih bucket ((uniform.filter bucket).mono fun x member =>
        (shares bucket).mem_iff.mp member)

end Recursion

/-- The result of merge sort by a total preorder is in order. -/
theorem ordered_mergeSort {compare : α → α → Ordering} [Std.TransCmp compare]
    (elements : List α) : Ordered compare (elements.mergeSort fun x y => (compare x y).isLE) := by
  have ascending : (elements.mergeSort fun x y => (compare x y).isLE).Pairwise
      fun x y => (compare x y).isLE = true := by
    apply List.pairwise_mergeSort
    · intro x y z
      exact Std.TransCmp.isLE_trans
    · intro x y
      have swapped : compare y x = (compare x y).swap := Std.OrientedCmp.eq_swap
      rw [swapped]
      cases compare x y <;> rfl
  exact ascending.imp fun {x y} before => Ordering.isLE_iff_ne_gt.mp before

/-- The comparison sort by a total preorder puts the elements of any list in order. -/
theorem Comparison.sort_exact {compare : α → α → Ordering} [Std.TransCmp compare]
    (elements : List α) : ∃ sorted, Comparison.sort { compare } elements = .ok sorted ∧
      sorted.Perm elements ∧ Ordered compare sorted := by
  have accepted : elements.findSome? (fun _ : α => (none : Option Fault)) = none :=
    List.findSome?_eq_none_iff.mpr fun _ _ => rfl
  refine ⟨elements.mergeSort fun x y => (compare x y).isLE, ?_, List.mergeSort_perm _ _,
    ordered_mergeSort elements⟩
  simp only [sort, accepted]

namespace Msd

/-- A call whose array and workers are granted gives its input in order, whatever the
schedule, if the order respects the digits and the fallback puts its elements in order.

What the engine makes of the input is a rearrangement and is in order. That is said of
lists, and the run of the tasks that makes it so is not looked at again. -/
theorem sort_ordered {width : DigitWidth} {settings : Settings} (valid : settings.Valid)
    {digit : α → Nat → Fin width.radix} {maxDepth : Nat} {compare : α → α → Ordering}
    (respects : Respects digit maxDepth compare) {fallback : List α → Except Fault (List α)}
    (finishes : ∀ elements, ∃ sorted, fallback elements = .ok sorted ∧ sorted.Perm elements ∧
      Ordered compare sorted)
    {data : Array α} (fits : data.size * width.radix < Word.bound) {resources : Resources}
    (granted : resources.grants .shadow = true) (started : resources.spawnFailure? = none)
    (schedule : Schedule) :
    ∃ sorted stats,
      sort ⟨settings, .ofTotal digit, fallback, maxDepth⟩ resources schedule data =
        .sorted sorted stats ∧
      sorted.Perm data ∧
      ∀ i j : Fin sorted.size, i < j → compare sorted[i] sorted[j] ≠ .gt := by
  let rules : Rules α width.radix := ⟨settings, .ofTotal digit, fallback, maxDepth⟩
  have excuses : Excuses rules data.size fun _ => False := by
    refine .of_total (fun _ _ => rfl) ?_ (.inl (.of_table width.two_le_radix fits))
    intro elements
    obtain ⟨sorted, ran, rearranged, -⟩ := finishes elements
    exact ⟨sorted, ran, rearranged.length_eq⟩
  have promised : ∀ elements sorted, rules.fallback elements = .ok sorted →
      sorted.Perm elements ∧ Ordered compare sorted :=
    fun elements sorted => Ensures.of_exists_ok (finishes elements)
  have keeps := fun elements sorted ran => (promised elements sorted ran).1
  obtain ⟨sorted, stats, counts, ran, sorts, -⟩ :=
    sort_exact excuses schedule valid granted started
  have ordered := sorts.ordered keeps (fun elements sorted _ ran => (promised _ _ ran).2) respects
    fun _ _ _ _ _ none => by cases none
  refine ⟨sorted, stats, ran, ?_, ?_⟩
  · exact Array.perm_iff_toList_perm.mpr (sorts.perm keeps)
  · intro i j before
    exact List.pairwise_iff_getElem.mp ordered i j i.isLt j.isLt before

/-- Four bytes by two workers, one of whom asks for more work now and then. A byte is
its own digit. -/
theorem sort_ordered_bytes : ∃ sorted stats,
    sort (⟨{ threads := 2, subsortThreshold := 2, minParallelChunk := 1 },
        .ofTotal fun x _ => x, Comparison.sort { compare }, 1⟩ :
          Rules (Fin 256) DigitWidth.oneByte.radix)
      {} ⟨fun turn => turn, fun _ => { idle := fun asked => asked % 2 = 0, settled := fun _ => 1 }⟩
      #[5, 3, 250, 3] =
        .sorted sorted stats ∧
      sorted.Perm #[5, 3, 250, 3] ∧
      ∀ i j : Fin sorted.size, i < j → compare sorted[i] sorted[j] ≠ .gt := by
  have valid : Settings.Valid { threads := 2, subsortThreshold := 2, minParallelChunk := 1 } :=
    ⟨by decide, by decide, by decide⟩
  have respects : Respects (fun (x : Fin 256) _ => (x : Fin DigitWidth.oneByte.radix)) 1
      compare := by
    intro x y depth _ _ less greater
    rw [compare_lt_iff_lt.mpr less] at greater
    cases greater
  have fits : (#[5, 3, 250, 3] : Array (Fin 256)).size * DigitWidth.oneByte.radix <
      Word.bound := by decide
  exact sort_ordered valid respects Comparison.sort_exact fits rfl rfl _

end Msd

end RadixSort
