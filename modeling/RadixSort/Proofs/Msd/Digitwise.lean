import RadixSort.Proofs.Msd.Comparisons
import RadixSort.Proofs.Msd.Handed
import RadixSort.Proofs.Msd.Sorted

/-!
# With the least threshold a sort goes by the digits alone

No range of two or more elements is shorter than a threshold of at most two, so a range is
handed to the fallback only where no digit is left. Its elements have all digits in common
then, and what the fallback makes of them matters as little for the order of the digits as
what it would make of any others.
-/
namespace RadixSort

open Recursion

variable {α : Type} {radix : Nat} {digit : α → Nat → Fin radix} {maxDepth : Nat}

/-- A fallback that ends in a fault when it is given elements that differ in a digit. -/
def confined (digit : α → Nat → Fin radix) (maxDepth : Nat) (fault : Fault)
    (fallback : List α → List α) (elements : List α) : Except Fault (List α) :=
  if ∀ x ∈ elements, ∀ y ∈ elements, digitString digit maxDepth x = digitString digit maxDepth y
  then .ok (fallback elements) else .error fault

/-- Elements that share their digits are not refused. -/
theorem confined_of_uniform {elements : List α} (uniform : Uniform digit maxDepth elements)
    (fault : Fault) (fallback : List α → List α) :
    confined digit maxDepth fault fallback elements = .ok (fallback elements) :=
  if_pos fun x first y second => digitString_eq_iff.mpr (uniform x first y second)

/-- Where there are no short ranges, elements that are handed to the fallback have no digit in
which they differ. -/
theorem Rules.Hands.uniform {rules : Rules α radix} {elements : List α}
    (least : rules.settings.subsortThreshold ≤ 2) (hands : rules.Hands elements) :
    Uniform rules.digits.digit rules.maxDepth elements := by
  obtain ⟨many, depth, ends, uniform⟩ := hands
  have deep : rules.maxDepth ≤ depth := ends.resolve_left fun short => by omega
  exact fun x first y second earlier before =>
    uniform x first y second earlier (Nat.lt_of_lt_of_le before deep)

/-- Elements compare as their digit strings do. -/
def byDigits (digit : α → Nat → Fin radix) (maxDepth : Nat) (x y : α) : Ordering :=
  compare (digitString digit maxDepth x) (digitString digit maxDepth y)

section Order

/-- Digit strings that begin alike compare as their rests do. -/
theorem compare_append_left (front first second : List (Fin radix)) :
    compare (front ++ first) (front ++ second) = compare first second := by
  induction front with
  | nil => rfl
  | cons digit front ih =>
    rw [List.cons_append, List.cons_append, List.compare_cons_cons, Std.compare_self, ih]
    rfl

/-- A digit string goes on with the digit at any depth that it covers. -/
theorem digitString_split (digit : α → Nat → Fin radix) {depth : Nat} (inside : depth < maxDepth)
    (x : α) :
    ∃ rest, digitString digit maxDepth x = digitString digit depth x ++ digit x depth :: rest := by
  refine ⟨(digitString digit maxDepth x).drop (depth + 1), ?_⟩
  have front := take_digitString digit (Nat.succ_le_of_lt inside) x
  rw [digitString_succ] at front
  rw [← List.singleton_append, ← List.append_assoc, ← front, List.take_append_drop]

/-- The order of the digit strings respects the digits. -/
theorem respects_byDigits (digit : α → Nat → Fin radix) (maxDepth : Nat) :
    Respects digit maxDepth (byDigits digit maxDepth) := by
  intro x y depth inside alike less
  obtain ⟨first, splitFirst⟩ := digitString_split digit inside x
  obtain ⟨second, splitSecond⟩ := digitString_split digit inside y
  rw [byDigits, splitFirst, splitSecond, digitString_eq_iff.mpr alike, compare_append_left,
    List.compare_cons_cons, compare_lt_iff_lt.mpr less]
  exact nofun

/-- Elements that share their digits are in the order of their digit strings. -/
theorem Uniform.ordered {elements : List α} (uniform : Uniform digit maxDepth elements) :
    Ordered (byDigits digit maxDepth) elements := by
  refine List.pairwise_of_forall_mem_list fun x first y second => ?_
  rw [byDigits, digitString_eq_iff.mpr (uniform x first y second), Std.compare_self]
  decide

end Order

/-- With a threshold of at most two, the groups that are finished by comparison are those that
share all digits and have something to sort. -/
theorem compared_iff {elements : List α} {threshold : Nat} (least : threshold ≤ 2)
    {digits : List (Fin radix)} : Compared digit elements threshold maxDepth digits ↔
      2 ≤ elements.countP (digitString digit maxDepth · = digits) := by
  constructor
  · intro compared
    have many := compared.many
    have full : digits.length = maxDepth := compared.ends.resolve_left fun short => by omega
    rwa [carriers, full] at many
  · intro many
    have some : 0 < elements.countP (digitString digit maxDepth · = digits) := by omega
    obtain ⟨x, -, carries⟩ := List.countP_pos_iff.mp some
    have full : digits.length = maxDepth := by
      rw [← of_decide_eq_true carries, length_digitString]
    have group : 2 ≤ carriers digit elements digits := by rwa [carriers, full]
    refine ⟨Nat.le_of_eq full, group, .inr full, fun _ => ?_⟩
    exact least.trans (group.trans (carriers_antitone digit elements digits.dropLast_prefix))

/-- If all elements have different digit strings, none is that of two. -/
theorem countP_le_one {elements : List α}
    (distinct : (elements.map (digitString digit maxDepth)).Nodup) (digits : List (Fin radix)) :
    elements.countP (digitString digit maxDepth · = digits) ≤ 1 := by
  have once := List.nodup_iff_count_le_one.mp distinct digits
  rw [List.count_eq_countP, List.countP_map] at once
  refine Nat.le_trans (Nat.le_of_eq (List.countP_congr fun x _ => ?_)) once
  simp

namespace Msd

/-- With a threshold of at most two, whatever the schedule, the settings, the digits and the
fallback are: the result is a rearrangement of the input in the order of the digit strings; a
fallback that ends in a fault on elements with different digits does as well as any, so it
is given none; and as many ranges are finished by comparison as there are digit strings that
two or more elements have, which are none if all elements have different digits. -/
theorem sort_digitwise {width : DigitWidth} {settings : Settings} (valid : settings.Valid)
    (least : settings.subsortThreshold ≤ 2) (digit : α → Nat → Fin width.radix) (maxDepth : Nat)
    {fallback : List α → List α} (permutes : ∀ elements, (fallback elements).Perm elements)
    {data : Array α} (fits : data.size * width.radix < Word.bound) {resources : Resources}
    (granted : resources.grants .shadow = true) (started : resources.spawnFailure? = none)
    (schedule : Schedule) :
    ∃ sorted stats,
      sort ⟨settings, .ofTotal digit, fun elements => .ok (fallback elements), maxDepth⟩
        resources schedule data = .sorted sorted stats ∧
      (∀ fault, sort ⟨settings, .ofTotal digit, confined digit maxDepth fault fallback, maxDepth⟩
        resources schedule data = .sorted sorted stats) ∧
      sorted.Perm data ∧
      (∀ i j : Fin sorted.size, i < j →
        compare (digitString digit maxDepth sorted[i]) (digitString digit maxDepth sorted[j]) ≠
          .gt) ∧
      {digits | 2 ≤ data.toList.countP (digitString digit maxDepth · = digits)}.encard =
        stats.comparisonSorts ∧
      ((data.toList.map (digitString digit maxDepth)).Nodup → stats.comparisonSorts = 0) := by
  let rules : Rules α width.radix :=
    ⟨settings, .ofTotal digit, fun elements => .ok (fallback elements), maxDepth⟩
  have excuses : Excuses rules data.size fun _ => False :=
    .of_total (fun _ _ => rfl) (fun elements => ⟨_, rfl, (permutes elements).length_eq⟩)
      (.inl (.of_table width.two_le_radix fits))
  have keeps (elements sorted : List α) (ran : rules.fallback elements = .ok sorted) :
      sorted.Perm elements := by
    cases ran
    exact permutes elements
  have orders (elements sorted : List α) (hands : rules.Hands elements)
      (ran : rules.fallback elements = .ok sorted) : Ordered (byDigits digit maxDepth) sorted :=
    ((hands.uniform least).mono fun x => (keeps _ _ ran).mem_iff.mp).ordered
  obtain ⟨sorted, stats, counts, ran, sorts, tallied⟩ :=
    sort_exact excuses schedule valid granted started
  have ordered := sorts.ordered keeps orders (respects_byDigits digit maxDepth)
    fun _ _ _ _ _ none => by cases none
  have counted : {digits | 2 ≤ data.toList.countP
      (digitString digit maxDepth · = digits)}.encard = stats.comparisonSorts := by
    have listed := sorts.enumerated (fun _ _ _ many _ _ => least.trans many)
      (.whole rules data.toList) rfl
    rw [tallied.comparisonSorts, ← listed.encard]
    exact congrArg Set.encard (Set.ext fun digits => (compared_iff least).symm)
  refine ⟨sorted, stats, ran, fun fault => ?_, ?_, ?_, counted, fun distinct => ?_⟩
  · have agree (elements : List α) (hands : rules.Hands elements) :
        rules.fallback elements = confined digit maxDepth fault fallback elements :=
      (confined_of_uniform (hands.uniform least) fault fallback).symm
    exact (sort_finishing agree excuses resources schedule).symm.trans ran
  · exact Array.perm_iff_toList_perm.mpr (sorts.perm keeps)
  · intro i j before
    exact List.pairwise_iff_getElem.mp ordered i j i.isLt j.isLt before
  · have none : {digits | 2 ≤ data.toList.countP (digitString digit maxDepth · = digits)} = ∅ := by
      refine Set.eq_empty_of_forall_notMem fun digits shared => ?_
      exact absurd shared (Nat.not_le.mpr (Nat.lt_succ_of_le (countP_le_one distinct digits)))
    rw [none, Set.encard_empty] at counted
    exact_mod_cast counted.symm

/-- Pairs of bytes, by workers one of whom asks for more work now and then, with a fallback
that reverses what it is given. The first pair and the third one share their digits. -/
theorem sort_digitwise_pairs : ∃ sorted stats,
    sort ⟨{ threads := 2, subsortThreshold := 2, minParallelChunk := 1 }, .ofTotal pairDigit,
        fun elements => .ok elements.reverse, 2⟩
      {} ⟨fun turn => turn, fun _ => { idle := fun asked => asked % 2 = 0, settled := fun _ => 1 }⟩
      #[(5, 3), (250, 1), (5, 3), (5, 0), (250, 7)] = .sorted sorted stats ∧
    (∀ fault, sort ⟨{ threads := 2, subsortThreshold := 2, minParallelChunk := 1 },
        .ofTotal pairDigit, confined pairDigit 2 fault List.reverse, 2⟩
      {} ⟨fun turn => turn, fun _ => { idle := fun asked => asked % 2 = 0, settled := fun _ => 1 }⟩
      #[(5, 3), (250, 1), (5, 3), (5, 0), (250, 7)] = .sorted sorted stats) ∧
    sorted.Perm #[(5, 3), (250, 1), (5, 3), (5, 0), (250, 7)] ∧
    (∀ i j : Fin sorted.size, i < j →
      compare (digitString pairDigit 2 sorted[i]) (digitString pairDigit 2 sorted[j]) ≠ .gt) ∧
    {digits | 2 ≤ [(5, 3), (250, 1), (5, 3), (5, 0), (250, 7)].countP
      (digitString pairDigit 2 · = digits)}.encard = stats.comparisonSorts ∧
    (([(5, 3), (250, 1), (5, 3), (5, 0), (250, 7)].map (digitString pairDigit 2)).Nodup →
      stats.comparisonSorts = 0) := by
  have valid : Settings.Valid { threads := 2, subsortThreshold := 2, minParallelChunk := 1 } :=
    ⟨by decide, by decide, by decide⟩
  have fits : (#[(5, 3), (250, 1), (5, 3), (5, 0), (250, 7)] : Array (Fin 256 × Fin 256)).size *
      DigitWidth.oneByte.radix < Word.bound := by decide
  exact sort_digitwise valid (by decide) pairDigit 2 List.reverse_perm fits rfl rfl _

end Msd

end RadixSort
