import RadixSort.Proofs.Ledger

/-!
# What is assumed of the rules, and what the shared work accounts for

A sort may end in a fault for reasons that are not its own: a digit that refuses to be
read, a fallback that fails, or an input whose count table does not fit a machine word.
A law that covers such sorts excuses these faults and no others. Of the fallback it is
assumed that it changes no length.

Work that tracks the unfinished elements keeps their number and the finished windows in
step. The number is a machine word and its subtraction wraps, so the law says that both
together give the length of the input in the arithmetic of words.
-/
namespace RadixSort

open Recursion

variable {α : Type} {radix : Nat}

/-- The positions of a sort of `total` elements and the cells of its count tables fit a
machine word: there are not too many elements for the tables, or not too many workers that
the elements are divided among. -/
def Settings.Sized (settings : Settings) (radix total : Nat) : Prop :=
  2 * total < Word.bound ∧ (total * radix < Word.bound ∨
    0 < settings.threads ∧ 2 * settings.threads * radix < Word.bound)

/-- An input whose elements could each have a row of the count table is not too long. -/
theorem Settings.Sized.of_table {settings : Settings} {radix total : Nat}
    (fits : 2 ≤ radix ∧ total * radix < Word.bound) : settings.Sized radix total := by
  have wide := Nat.mul_le_mul_left total fits.1
  exact ⟨by omega, .inl fits.2⟩

/-- No part of an input of `total` elements is partitioned by several tasks, whichever
threshold is in force. -/
def Rules.Undivided (rules : Rules α radix) (total : Nat) : Prop :=
  ∀ length threshold depth, rules.InForce total length threshold →
    ¬rules.Long threshold length depth

/-- All numbers of a sort of `total` elements fit a machine word: its positions do, and so do
the cells of its count tables, if it has any. -/
def Rules.Fits (rules : Rules α radix) (total : Nat) : Prop :=
  rules.settings.Sized radix total ∨ total < Word.bound ∧ rules.Undivided total

/-- All numbers fit a machine word if the elements could each have a row of the count table. -/
theorem Rules.Fits.of_table {rules : Rules α radix} {total : Nat} (wide : 2 ≤ radix)
    (fits : total * radix < Word.bound) : rules.Fits total :=
  .inl (.of_table ⟨wide, fits⟩)

/-- No part of an input is partitioned by several tasks if that is turned off, or if there is
one worker, since then no range is longer than the elements that are left. -/
theorem Rules.Undivided.of_alone {rules : Rules α radix} {total : Nat}
    (alone : rules.settings.parallelStep = false ∨ rules.settings.threads = 1)
    (fits : total < Word.bound) : rules.Undivided total := by
  rintro length threshold depth ⟨rest, left, -, rfl⟩ ⟨parallel, -, long⟩
  rcases alone with off | single
  · rw [off] at parallel
    cases parallel
  · have within := (left fits).1
    rw [single, Nat.div_one] at long
    omega

/-- The fallback gives back some elements in this order. -/
def Rules.Gave (rules : Rules α radix) (sorted : List α) : Prop :=
  ∃ elements, rules.fallback elements = .ok sorted

/-- The faults that a sort of `total` elements is excused from, and what is assumed of
its fallback. -/
structure Excuses (rules : Rules α radix) (total : Nat) (excused : Fault → Prop) : Prop where
  refused : ∀ x depth fault, depth < rules.maxDepth →
    rules.digits.refusal? x depth = some fault → excused fault
  failed : ∀ elements fault, rules.fallback elements = .error fault → excused fault
  length : ∀ elements sorted, rules.fallback elements = .ok sorted →
    sorted.length = elements.length
  fits : rules.Fits total ∨ excused .arithmeticOverflow

/-- Where a range is partitioned by several tasks, the count tables fit. -/
theorem Excuses.sized {rules : Rules α radix} {total : Nat} {excused : Fault → Prop}
    (excuses : Excuses rules total excused) (divided : ¬rules.Undivided total) :
    rules.settings.Sized radix total ∨ excused .arithmeticOverflow :=
  excuses.fits.imp_left fun fits => fits.resolve_right fun few => divided few.2

/-- Rules whose digits nobody refuses and whose fallback cannot fail need no excuse but
for the numbers that a machine word has to hold. -/
theorem Excuses.of_total {rules : Rules α radix} {total : Nat} {excused : Fault → Prop}
    (readable : ∀ x depth, rules.digits.refusal? x depth = none)
    (finishes : ∀ elements, ∃ sorted, rules.fallback elements = .ok sorted ∧
      sorted.length = elements.length)
    (fits : rules.Fits total ∨ excused .arithmeticOverflow) : Excuses rules total excused where
  refused x depth fault _ refuses := by
    rw [readable] at refuses
    cases refuses
  failed elements fault fails := by
    obtain ⟨sorted, ran, -⟩ := finishes elements
    rw [ran] at fails
    cases fails
  length elements sorted ran := by
    obtain ⟨other, known, length⟩ := finishes elements
    rw [ran] at known
    cases known
    exact length
  fits := fits

/-- The faults that a job on ranges of up to `total` elements is excused from, and what is
assumed of its fallback. A job has no count tables. -/
structure JobExcuses (rules : Rules α radix) (total : Nat) (excused : Fault → Prop) : Prop where
  refused : ∀ x depth fault, depth < rules.maxDepth →
    rules.digits.refusal? x depth = some fault → excused fault
  failed : ∀ elements fault, rules.fallback elements = .error fault → excused fault
  length : ∀ elements sorted, rules.fallback elements = .ok sorted →
    sorted.length = elements.length
  fits : total < Word.bound ∨ excused .arithmeticOverflow

/-- What a sort is excused from, its jobs are. -/
theorem Excuses.job {rules : Rules α radix} {total : Nat} {excused : Fault → Prop}
    (excuses : Excuses rules total excused) : JobExcuses rules total excused where
  refused := excuses.refused
  failed := excuses.failed
  length := excuses.length
  fits := by
    refine excuses.fits.imp_left ?_
    rintro (⟨fits, -⟩ | ⟨fits, -⟩) <;> omega

/-- Where every digit can be read, the fallback always finishes and the machine can count the
elements, a job needs no excuse. -/
theorem JobExcuses.of_faultless {rules : Rules α radix} {total : Nat} (fits : total < Word.bound)
    (readable : ∀ x depth, rules.digits.refusal? x depth = none)
    (finishes : ∀ elements, ∃ sorted, rules.fallback elements = .ok sorted ∧
      sorted.length = elements.length) : JobExcuses rules total fun _ => False where
  refused x depth fault _ refuses := by
    rw [readable] at refuses
    cases refuses
  failed elements fault fails := by
    obtain ⟨sorted, ran, -⟩ := finishes elements
    cases ran.symm.trans fails
  length elements sorted ran := by
    obtain ⟨other, known, length⟩ := finishes elements
    cases ran.symm.trans known
    exact length
  fits := .inl fits

/-- Lengths of parts of the input fit a machine word. -/
theorem JobExcuses.fits_length {rules : Rules α radix} {total length : Nat}
    {excused : Fault → Prop} (excuses : JobExcuses rules total excused) (within : length ≤ total) :
    length < Word.bound ∨ excused .arithmeticOverflow :=
  excuses.fits.imp_left (Nat.lt_of_le_of_lt within)

namespace Work

/-- The number of unfinished elements and the finished windows together account for all
elements, if the number is tracked. -/
def Accounted (settings : Settings) (total : Nat) (work : Work α) : Prop :=
  settings.trackRemaining = true →
    work.rest + ((work.finished.map Window.length).sum).toUInt64 = total.toUInt64

/-- All elements of a sort that has not begun are unfinished. -/
theorem accounted_fresh (settings : Settings) (data : Array α) :
    (fresh data).Accounted settings data.size := by
  intro _
  simp [fresh]

/-- Recording a finished range keeps the account. -/
theorem Accounted.settle {settings : Settings} {total : Nat} {work : Work α}
    (accounted : work.Accounted settings total) (window : Window) :
    (work.settle settings window).Accounted settings total := by
  intro tracked
  have before := accounted tracked
  simp only [Work.settle, tracked, if_true, List.map_cons, List.sum_cons] at before ⊢
  rw [← before]
  apply UInt64.toNat_inj.mp
  simp only [UInt64.toNat_add, UInt64.toNat_sub, Nat.toUInt64, UInt64.toNat_ofNat']
  omega

/-- The tracked number is the number of elements outside the finished windows. -/
theorem Accounted.rest_eq {settings : Settings} {total left : Nat} {work : Work α}
    (accounted : work.Accounted settings total) (tracked : settings.trackRemaining = true)
    (fits : total < Word.bound)
    (tiled : left + (work.finished.map Window.length).sum = total) : work.rest.toNat = left := by
  have whole := congrArg UInt64.toNat (accounted tracked)
  have word := work.rest.toNat_lt
  simp only [UInt64.toNat_add, Nat.toUInt64, UInt64.toNat_ofNat'] at whole
  rw [Word.bound, UInt64.size] at fits
  omega

/-- Lowering a number by no more than it is does not wrap. -/
theorem toNat_sub_toUInt64 {number : UInt64} {count : Nat} (room : count ≤ number.toNat) :
    (number - count.toUInt64).toNat = number.toNat - count := by
  have same : count.toUInt64.toNat = count :=
    UInt64.toNat_ofNat_of_lt' (Nat.lt_of_le_of_lt room number.toNat_lt)
  have less : count.toUInt64 ≤ number := by
    rwa [UInt64.le_iff_toNat_le, same]
  rw [UInt64.toNat_sub_of_le _ _ less, same]

/-- What others finish is not in the range in hand, and does not raise the number of unfinished
elements. -/
theorem rest_settledElsewhere (work : Work α) (length settled : Nat) :
    (work.settledElsewhere length settled).rest.toNat ≤ work.rest.toNat ∧
      (length ≤ work.rest.toNat →
        length ≤ (work.settledElsewhere length settled).rest.toNat) := by
  have lowered : (work.settledElsewhere length settled).rest.toNat =
      work.rest.toNat - min settled (work.rest.toNat - length) :=
    toNat_sub_toUInt64 (by omega)
  omega

/-- With fewer elements unfinished, the threshold for long ranges is not larger. -/
theorem sequentialThreshold_mono {work later : Work α} {settings : Settings} (total : Nat)
    (fewer : settings.trackRemaining = true → later.rest.toNat ≤ work.rest.toNat) :
    later.sequentialThreshold settings total ≤ work.sequentialThreshold settings total := by
  refine Nat.max_le.mpr ⟨Nat.le_max_left _ _, Nat.le_trans ?_ (Nat.le_max_right _ _)⟩
  apply Nat.div_le_div_right
  split
  case isTrue tracked => exact fewer tracked
  case isFalse => exact Nat.le_refl _

/-- Finishing a range by comparison stores what the fallback gives. -/
theorem finish_ensures {rules : Rules α radix} {total : Nat} {excused : Fault → Prop}
    (excuses : JobExcuses rules total excused) (work : Work α) (window : Window) :
    Ensures excused (work.finish rules window) fun finished =>
      ∃ sorted, rules.fallback (work.memory.held window) = .ok sorted ∧
        finished = ({ work with
          memory := work.memory.fillActive window sorted
          stats := { work.stats with comparisonSorts := work.stats.comparisonSorts + 1 } } :
            Work α).settle rules.settings window := by
  unfold finish
  cases ran : rules.fallback (work.memory.active window).toList with
  | ok sorted => exact ⟨sorted, ran, rfl⟩
  | error fault => exact excuses.failed _ fault ran

end Work

/-- The obligation to sort a range by one job. -/
def Job.obligation (rules : Rules α radix) (job : Job) : Obligation α :=
  ⟨job.window, fun elements result => JobSorts rules elements job.depth result⟩

/-- The obligation to sort a range, by as many tasks as its length calls for. -/
def Job.overall (rules : Rules α radix) (total : Nat) (job : Job) : Obligation α :=
  ⟨job.window, fun elements result => EngineSorts rules total elements job.depth result⟩

end RadixSort
