import RadixSort.Count.Snake
import RadixSort.Partition.Scatter
import RadixSort.Proofs.Count.Layout
import RadixSort.Proofs.Ensures

/-!
# Counts and sums in words

A count or sum that is computed in words is the one computed without a bound, as long as
all its intermediate results are words, and nothing but an overflow can keep it from
being computed. Sums only grow, so for them the last result decides.
-/
namespace RadixSort

variable {α : Type} {radix : Nat} {excused : Fault → Prop}

/-- A value that a word holds passes its check; the overflow may be excused. -/
theorem Word.checked_ensures {value : Nat}
    (fits : value < bound ∨ excused .arithmeticOverflow) :
    Ensures excused (checked value) fun result => result = value ∧ value < bound := by
  unfold checked
  split
  · exact ⟨rfl, ‹_›⟩
  · exact fits.resolve_left ‹_›

/-- Where the counts of a list are words, so is the next count of the bucket of its head. -/
theorem raised_lt {key : α → Fin radix} {counts : Vector Nat radix} {x : α} {rest : List α}
    (fits : ∀ bucket, counts.get bucket + (x :: rest).countP (key · = bucket) < Word.bound) :
    counts.get (key x) + 1 < Word.bound := by
  have own := fits (key x)
  rw [List.countP_cons, if_pos (decide_eq_true rfl)] at own
  omega

/-- Counts in words go on as counts without a bound do. -/
theorem countInto_ensures (key : α → Fin radix) (elements : List α) (counts : Vector Nat radix)
    (fits : (∀ bucket, counts.get bucket + elements.countP (key · = bucket) < Word.bound) ∨
      excused .arithmeticOverflow) :
    Ensures excused (countInto key elements counts)
      (· = elements.foldl (fun counts x => assign counts (key x) (counts.get (key x) + 1))
        counts) := by
  induction elements generalizing counts with
  | nil => rfl
  | cons x rest ih =>
    refine (Word.checked_ensures (fits.imp_left raised_lt)).bind ?_
    rintro raised ⟨rfl, -⟩
    exact ih _ (fits.imp_left fun small bucket =>
      (get_raise_add_countP key counts x rest bucket).symm ▸ small bucket)

/-- The elements of a list whose length is a word are counted in words. -/
theorem checkedHistogram_ensures (key : α → Fin radix) {elements : List α}
    (fits : elements.length < Word.bound ∨ excused .arithmeticOverflow) :
    Ensures excused (checkedHistogram key elements) (· = histogram key elements) := by
  refine countInto_ensures key elements _ (fits.imp_left fun small bucket => ?_)
  have none : (Vector.replicate radix 0).get bucket = 0 := Vector.getElem_replicate bucket.isLt
  have few : elements.countP (key · = bucket) ≤ elements.length := List.countP_le_length
  omega

namespace Layout

/-- The sums of a layout only grow. -/
theorem sum_le_total (sizes : Vector Nat radix) (bucket sum : Nat) (starts : Vector Nat radix) :
    sum ≤ (extend sizes bucket sum starts).total := by
  fun_induction extend sizes bucket sum starts with
  | case1 bucket sum starts inside ih => omega
  | case2 => exact Nat.le_refl _

/-- A layout is extended in words as it is without a bound, and its total is a word. -/
theorem checkedExtend_ensures (sizes : Vector Nat radix) (bucket sum : Nat)
    (starts : Vector Nat radix) (word : sum < Word.bound)
    (fits : (extend sizes bucket sum starts).total < Word.bound ∨ excused .arithmeticOverflow) :
    Ensures excused (checkedExtend sizes bucket sum starts) fun layout =>
      layout = extend sizes bucket sum starts ∧ layout.total < Word.bound := by
  fun_induction extend sizes bucket sum starts with
  | case1 bucket sum starts inside ih =>
    have grows := sum_le_total sizes (bucket + 1) (sum + sizes[bucket]) (starts.set bucket sum)
    rw [checkedExtend, dif_pos inside]
    refine (Word.checked_ensures (fits.imp_left (Nat.lt_of_le_of_lt grows))).bind ?_
    rintro reached ⟨rfl, small⟩
    exact ih small fits
  | case2 bucket sum starts outside =>
    rw [checkedExtend, dif_neg outside]
    exact ⟨rfl, word⟩

/-- Buckets that fill no more slots than a word counts are laid out in words. -/
theorem checkedOfSizes_ensures {sizes : Vector Nat radix}
    (fits : (ofSizes sizes).total < Word.bound ∨ excused .arithmeticOverflow) :
    Ensures excused (checkedOfSizes sizes) fun layout =>
      layout = ofSizes sizes ∧ layout.total < Word.bound :=
  checkedExtend_ensures sizes 0 0 _ (by decide) fits

/-- The buckets of a list are laid out in words exactly if its length is a word. -/
theorem checkedOfSizes_histogram (key : α → Fin radix) (elements : List α)
    (fits : elements.length < Word.bound ∨ excused .arithmeticOverflow) :
    Ensures excused (checkedOfSizes (histogram key elements)) fun layout =>
      layout = ofSizes (histogram key elements) ∧ elements.length < Word.bound := by
  rw [← total_histogram key elements] at fits ⊢
  refine (checkedOfSizes_ensures fits).mono ?_
  rintro layout ⟨rfl, small⟩
  exact ⟨rfl, small⟩

end Layout

namespace CountTable

/-- The sums over a table only grow. -/
theorem sum_le_accumulateFrom (table : CountTable radix) (cell sum : Nat) :
    sum ≤ (accumulateFrom table cell sum).2 := by
  fun_induction accumulateFrom table cell sum with
  | case1 table cell sum inside row column reached ih => omega
  | case2 => exact Nat.le_refl _

/-- Counts are replaced by their sums in words as they are without a bound. -/
theorem checkedAccumulateFrom_ensures (table : CountTable radix) (cell sum : Nat)
    (fits : (accumulateFrom table cell sum).2 < Word.bound ∨ excused .arithmeticOverflow) :
    Ensures excused (checkedAccumulateFrom table cell sum)
      (· = accumulateFrom table cell sum) := by
  fun_induction accumulateFrom table cell sum with
  | case1 table cell sum inside row column reached ih =>
    have grows := sum_le_accumulateFrom
      (table.modify (cell % table.size) fun row => row.set (cell / table.size) reached)
      (cell + 1) reached
    rw [checkedAccumulateFrom, dif_pos inside]
    refine (Word.checked_ensures (fits.imp_left (Nat.lt_of_le_of_lt grows))).bind ?_
    rintro sum ⟨rfl, -⟩
    exact ih fits
  | case2 table cell sum outside =>
    rw [checkedAccumulateFrom, dif_neg outside]
    rfl

/-- Counts whose total is a word are summed up in words. -/
theorem checkedAccumulate_ensures {table : CountTable radix}
    (fits : table.accumulate.2 < Word.bound ∨ excused .arithmeticOverflow) :
    Ensures excused table.checkedAccumulate (· = table.accumulate) :=
  checkedAccumulateFrom_ensures table 0 0 fits

/-- Counts whose total is a word have no other sums in words. -/
theorem checkedAccumulate_eq {table : CountTable radix} (fits : table.accumulate.2 < Word.bound) :
    table.checkedAccumulate = .ok table.accumulate := by
  have ensured : Ensures (fun _ => False) table.checkedAccumulate (· = table.accumulate) :=
    checkedAccumulate_ensures (.inl fits)
  obtain ⟨sums, ran, rfl⟩ := ensured.exists_ok fun _ => id
  exact ran

end CountTable

/-- Cursors that are words make the writes that cursors without a bound make. -/
theorem Scatter.checkedRising_ensures (key : α → Fin radix) (next : Vector Nat radix)
    (elements : List α)
    (fits : (∀ bucket, next.get bucket + elements.countP (key · = bucket) < Word.bound) ∨
      excused .arithmeticOverflow) :
    Ensures excused (checkedRising key next elements) (· = rising key next elements) := by
  induction elements generalizing next with
  | nil => rfl
  | cons x rest ih =>
    refine (Word.checked_ensures (fits.imp_left raised_lt)).bind ?_
    rintro raised ⟨rfl, -⟩
    refine (ih (assign next (key x) (next.get (key x) + 1)) (fits.imp_left fun small bucket =>
      (get_raise_add_countP key next x rest bucket).symm ▸ small bucket)).bind ?_
    rintro writes rfl
    rfl

/-- Cursors that start where the buckets of a list lie are words if its length is one. -/
theorem Scatter.checkedRising_histogram (key : α → Fin radix) (elements : List α)
    (fits : elements.length < Word.bound ∨ excused .arithmeticOverflow) :
    Ensures excused
      (checkedRising key (Layout.ofSizes (histogram key elements)).starts elements)
      (· = rising key (Layout.ofSizes (histogram key elements)).starts elements) := by
  refine checkedRising_ensures key _ elements (fits.imp_left fun small bucket => ?_)
  have stop := Layout.stop_le key elements bucket
  rw [get_histogram] at stop
  omega

end RadixSort
