import RadixSort.Engine.Recursion
import RadixSort.Proofs.Partition.Frame
import Mathlib.Algebra.BigOperators.Group.List.Basic
import Mathlib.Algebra.GroupWithZero.Nat

/-!
# What the engine makes of a range

What a range becomes, and at what cost, is said here as a relation between a list and
a result. It leaves open what the engine may decide differently from run to run: the
fallback may give any result it has, and where the number of unfinished elements is
tracked, a range may count as long or not, depending on how many elements are left
when it is dispatched. Nothing else is open, so a law about the result of a sort can be
proved by induction over this relation, without a memory and without a schedule.
-/
namespace RadixSort

open Recursion

namespace Recursion.Counts

instance : Zero Counts := ⟨{}⟩

instance : Add Counts := ⟨Counts.add⟩

@[simp] theorem bigSteps_zero : (0 : Counts).bigSteps = 0 := rfl

@[simp] theorem comparisonSorts_zero : (0 : Counts).comparisonSorts = 0 := rfl

@[simp] theorem ownJobs_zero : (0 : Counts).ownJobs = 0 := rfl

@[simp] theorem bigSteps_add (first second : Counts) :
    (first + second).bigSteps = first.bigSteps + second.bigSteps := rfl

@[simp] theorem comparisonSorts_add (first second : Counts) :
    (first + second).comparisonSorts = first.comparisonSorts + second.comparisonSorts := rfl

@[simp] theorem ownJobs_add (first second : Counts) :
    (first + second).ownJobs = first.ownJobs + second.ownJobs := rfl

/-- Counters are equal if they count the same. -/
theorem ext {first second : Counts} (bigSteps : first.bigSteps = second.bigSteps)
    (comparisonSorts : first.comparisonSorts = second.comparisonSorts)
    (ownJobs : first.ownJobs = second.ownJobs) : first = second := by
  cases first
  cases second
  simp_all

instance : AddCommMonoid Counts where
  add_assoc first second third := ext (Nat.add_assoc ..) (Nat.add_assoc ..) (Nat.add_assoc ..)
  zero_add counts := ext (Nat.zero_add _) (Nat.zero_add _) (Nat.zero_add _)
  add_zero counts := ext (Nat.add_zero _) (Nat.add_zero _) (Nat.add_zero _)
  add_comm first second := ext (Nat.add_comm ..) (Nat.add_comm ..) (Nat.add_comm ..)
  nsmul := nsmulRec

/-- A sum counts what its parts count. -/
theorem comparisonSorts_sum (counts : List Counts) :
    counts.sum.comparisonSorts = (counts.map comparisonSorts).sum := by
  induction counts with
  | nil => rfl
  | cons first rest ih =>
    rw [List.sum_cons, comparisonSorts_add, ih, List.map_cons, List.sum_cons]

end Recursion.Counts

namespace Recursion

variable {α : Type} {radix : Nat}

/-- Joined buckets hold the elements of all buckets, at the cost of all of them. -/
theorem join_eq (buckets : List (Result α)) :
    join buckets = ⟨buckets.flatMap Result.elements, (buckets.map Result.counts).sum⟩ := by
  rw [join, List.sum_eq_foldl]
  rfl

/-- Results that match the shares of all buckets one by one are given by bucket. -/
theorem exists_results {shares : Fin radix → List α} {promise : List α → Result α → Prop}
    {results : List (Result α)}
    (kept : List.Forall₂ promise ((List.finRange radix).map shares) results) :
    ∃ each : Fin radix → Result α, results = (List.finRange radix).map each ∧
      ∀ bucket, promise (shares bucket) (each bucket) := by
  have length : results.length = radix := by
    rw [← kept.length_eq, List.length_map, List.length_finRange]
  refine ⟨fun bucket => results.get (bucket.cast length.symm), ?_, ?_⟩
  · apply List.ext_getElem
    · simp [length]
    · intro place first second
      simp
  · intro bucket
    have listed : bucket.val < ((List.finRange radix).map shares).length := by simp
    have pair := kept.get listed (length.symm ▸ bucket.isLt)
    simpa using pair

/-- A result at an additional cost. -/
def Result.charged (result : Result α) (cost : Counts) : Result α :=
  { result with counts := result.counts.add cost }

@[simp] theorem Result.elements_charged (result : Result α) (cost : Counts) :
    (result.charged cost).elements = result.elements := rfl

@[simp] theorem Result.counts_charged (result : Result α) (cost : Counts) :
    (result.charged cost).counts = result.counts + cost := rfl

/-- The share of a bucket, chunk by chunk, each chunk's part reversed. -/
def bucketShare (key : α → Fin radix) (chunkLength : Nat) (elements : List α)
    (bucket : Fin radix) : List α :=
  (chunksOf chunkLength elements).flatMap fun chunk => (chunk.filter (key · = bucket)).reverse

/-- Grouping chunk by chunk gives every bucket its share. -/
theorem groupChunks_eq (key : α → Fin radix) (chunkLength : Nat) (elements : List α) :
    groupChunks key chunkLength elements =
      (List.finRange radix).map (bucketShare key chunkLength elements) := rfl

/-- Reversing each chunk's part of a bucket rearranges the bucket. -/
theorem bucketShare_perm {chunkLength : Nat} (positive : 0 < chunkLength)
    (key : α → Fin radix) (elements : List α) (bucket : Fin radix) :
    (bucketShare key chunkLength elements bucket).Perm (elements.filter (key · = bucket)) := by
  have whole : elements.filter (key · = bucket) =
      (chunksOf chunkLength elements).flatMap (List.filter (key · = bucket)) := by
    rw [List.flatMap_def, ← List.filter_flatten, flatten_chunksOf positive]
  rw [whole]
  exact List.Perm.flatMap_left _ fun chunk _ => List.reverse_perm _

end Recursion

variable {α : Type} {radix : Nat}

/-- Two elements have the same digits at all depths before some depth. -/
def Alike (digit : α → Nat → Fin radix) (depth : Nat) (x y : α) : Prop :=
  ∀ earlier < depth, digit x earlier = digit y earlier

/-- All of some elements have the same digits at all depths before some depth. -/
def Uniform (digit : α → Nat → Fin radix) (depth : Nat) (elements : List α) : Prop :=
  ∀ x ∈ elements, ∀ y ∈ elements, Alike digit depth x y

/-- What all elements have in common, those that are among them have in common. -/
theorem Uniform.mono {digit : α → Nat → Fin radix} {depth : Nat} {elements others : List α}
    (uniform : Uniform digit depth elements) (among : ∀ x ∈ others, x ∈ elements) :
    Uniform digit depth others :=
  fun x first y second => uniform x (among x first) y (among y second)

/-- Elements that have a digit in common, besides those that all elements of the range
have in common, are alike one digit deeper. -/
theorem Uniform.filter {digit : α → Nat → Fin radix} {elements : List α} {depth : Nat}
    (uniform : Uniform digit depth elements) (bucket : Fin radix) :
    Uniform digit (depth + 1) (elements.filter (digit · depth = bucket)) := by
  intro x first y second earlier before
  obtain ⟨first, same⟩ := List.mem_filter.mp first
  obtain ⟨second, equal⟩ := List.mem_filter.mp second
  rcases Nat.lt_succ_iff_lt_or_eq.mp before with before | rfl
  · exact uniform x first y second earlier before
  · rw [of_decide_eq_true same, of_decide_eq_true equal]

namespace Rules

/-- Whether a job hands a range of this length to the fallback. -/
def Ends (rules : Rules α radix) (length depth : Nat) : Prop :=
  length < rules.settings.subsortThreshold ∨ rules.maxDepth ≤ depth

instance (rules : Rules α radix) (length depth : Nat) : Decidable (rules.Ends length depth) :=
  inferInstanceAs (Decidable (_ ∨ _))

/-- Whether a job may hand these elements to the fallback: there is something to sort, and
all digits before the depth at which they are handed over are the same. -/
def Hands (rules : Rules α radix) (elements : List α) : Prop :=
  2 ≤ elements.length ∧
    ∃ depth, rules.Ends elements.length depth ∧ Uniform rules.digits.digit depth elements

/-- Whether a range of this length is partitioned by several tasks. -/
def Long (rules : Rules α radix) (threshold length depth : Nat) : Prop :=
  rules.settings.parallelStep = true ∧ depth < rules.maxDepth ∧ threshold < length

instance (rules : Rules α radix) (threshold length depth : Nat) :
    Decidable (rules.Long threshold length depth) :=
  inferInstanceAs (Decidable (_ ∧ _))

/-- A threshold that may be in force when a range of this length is dispatched: it
follows from a number of unfinished elements, which is the length of the input unless
it is tracked, and which includes the range as long as a machine word can hold it. -/
def InForce (rules : Rules α radix) (total length threshold : Nat) : Prop :=
  ∃ rest, (total < Word.bound → length ≤ rest ∧ rest ≤ total) ∧
    (rules.settings.trackRemaining = false → rest = total) ∧
    threshold = max rules.settings.minParallelChunk (rest / rules.settings.threads)

/-- The threshold that follows from the length of the input is in force for its parts. -/
theorem inForce_total (rules : Rules α radix) {total length : Nat} (within : length ≤ total) :
    rules.InForce total length
      (max rules.settings.minParallelChunk (total / rules.settings.threads)) :=
  ⟨total, fun _ => ⟨within, Nat.le_refl _⟩, fun _ => rfl, rfl⟩

/-- The length of the chunks of a range of this length. -/
def chunkLength (length threshold : Nat) : Nat :=
  Word.ceilDiv length (max (Word.ceilDiv length threshold) 1)

/-- All elements can be read at a depth. -/
def Readable (rules : Rules α radix) (elements : List α) (depth : Nat) : Prop :=
  ∀ x ∈ elements, rules.digits.refusal? x depth = none

end Rules

/-- What one job makes of a range, and at what cost. -/
inductive JobSorts (rules : Rules α radix) : List α → Nat → Result α → Prop
  | alone {elements : List α} {depth : Nat} (few : elements.length ≤ 1) :
      JobSorts rules elements depth ⟨elements, 0⟩
  | final {elements sorted : List α} {depth : Nat} (many : 2 ≤ elements.length)
      (ends : rules.Ends elements.length depth) (finished : rules.fallback elements = .ok sorted) :
      JobSorts rules elements depth ⟨sorted, { comparisonSorts := 1 }⟩
  | split {elements : List α} {depth : Nat} {results : Fin radix → Result α}
      (many : 2 ≤ elements.length) (goesOn : ¬rules.Ends elements.length depth)
      (readable : rules.Readable elements depth)
      (each : ∀ bucket, JobSorts rules
        ((arrange rules.settings.inPlace (rules.digits.digit · depth) elements).filter
          (rules.digits.digit · depth = bucket)) (depth + 1) (results bucket)) :
      JobSorts rules elements depth (join ((List.finRange radix).map results))

/-- What the engine makes of a range of an input of length `total`, and at what cost. -/
inductive EngineSorts (rules : Rules α radix) (total : Nat) : List α → Nat → Result α → Prop
  | alone {elements : List α} {depth : Nat} (few : elements.length ≤ 1) :
      EngineSorts rules total elements depth ⟨elements, 0⟩
  | job {elements : List α} {depth threshold : Nat} {result : Result α}
      (many : 2 ≤ elements.length) (inForce : rules.InForce total elements.length threshold)
      (short : ¬rules.Long threshold elements.length depth)
      (sorts : JobSorts rules elements depth result) :
      EngineSorts rules total elements depth (result.charged { ownJobs := 1 })
  | step {elements : List α} {depth threshold : Nat} {results : Fin radix → Result α}
      (many : 2 ≤ elements.length) (inForce : rules.InForce total elements.length threshold)
      (long : rules.Long threshold elements.length depth)
      (readable : rules.Readable elements depth)
      (each : ∀ bucket, EngineSorts rules total
        (bucketShare (rules.digits.digit · depth) (Rules.chunkLength elements.length threshold)
          elements bucket) (depth + 1) (results bucket)) :
      EngineSorts rules total elements depth
        ((join ((List.finRange radix).map results)).charged { bigSteps := 1 })

/-- The chunks of a range that is not empty are not empty. -/
theorem Rules.chunkLength_pos {length threshold : Nat} (some : 0 < length) :
    0 < chunkLength length threshold :=
  Nat.div_pos (by omega) (by omega)

section Permutation

variable {rules : Rules α radix}

/-- The elements of joined buckets are those of the list if each bucket holds those of
its class. -/
theorem join_perm {key : α → Fin radix} {elements : List α} {results : Fin radix → Result α}
    (rearranged : ∀ bucket,
      (results bucket).elements.Perm (elements.filter (key · = bucket))) :
    (join ((List.finRange radix).map results)).elements.Perm elements := by
  rw [join, List.flatMap_map]
  exact Classes.flatMap_perm rearranged

/-- A job loses no element if the fallback loses none. -/
theorem JobSorts.perm (keeps : ∀ elements sorted, rules.fallback elements = .ok sorted →
      sorted.Perm elements) {elements : List α} {depth : Nat} {result : Result α}
    (sorts : JobSorts rules elements depth result) : result.elements.Perm elements := by
  induction sorts with
  | alone few => exact List.Perm.refl _
  | final many ends finished => exact keeps _ _ finished
  | split many goesOn readable each ih =>
    apply join_perm
    intro bucket
    exact (ih bucket).trans ((arrange_perm _ _ _).filter _)

/-- The engine loses no element if the fallback loses none. -/
theorem EngineSorts.perm (keeps : ∀ elements sorted, rules.fallback elements = .ok sorted →
      sorted.Perm elements) {total : Nat} {elements : List α} {depth : Nat} {result : Result α}
    (sorts : EngineSorts rules total elements depth result) : result.elements.Perm elements := by
  induction sorts with
  | alone few => exact List.Perm.refl _
  | job many inForce short sorts => exact sorts.perm keeps
  | step many inForce long readable each ih =>
    apply join_perm
    intro bucket
    exact (ih bucket).trans (bucketShare_perm (Rules.chunkLength_pos (by omega)) _ _ bucket)

end Permutation

section Existence

variable {rules : Rules α radix}

/-- A job has a result for every range whose digits can be read, if the fallback always
has one.

Induct over the depths that are left. Each bucket of the range has a result one depth
below, unless it is short enough to be left alone. -/
theorem JobSorts.exists (readable : ∀ elements depth, rules.Readable elements depth)
    (finishes : ∀ elements, ∃ sorted, rules.fallback elements = .ok sorted)
    (elements : List α) (depth : Nat) : ∃ result, JobSorts rules elements depth result := by
  induction left : rules.maxDepth - depth generalizing elements depth with
  | zero =>
    rcases Nat.lt_or_ge 1 elements.length with many | few
    · obtain ⟨sorted, finished⟩ := finishes elements
      exact ⟨_, .final many (.inr (by omega)) finished⟩
    · exact ⟨_, .alone few⟩
  | succ left ih =>
    rcases Nat.lt_or_ge 1 elements.length with many | few
    · by_cases ends : rules.Ends elements.length depth
      · obtain ⟨sorted, finished⟩ := finishes elements
        exact ⟨_, .final many ends finished⟩
      · have buckets := fun bucket => ih
          ((arrange rules.settings.inPlace (rules.digits.digit · depth) elements).filter
            (rules.digits.digit · depth = bucket)) (depth + 1) (by omega)
        choose results each using buckets
        exact ⟨_, .split many ends (readable _ _) each⟩
    · exact ⟨_, .alone few⟩

/-- The engine has a result for every part of an input whose digits can be read, if the
fallback always has one. -/
theorem EngineSorts.exists (readable : ∀ elements depth, rules.Readable elements depth)
    (finishes : ∀ elements, ∃ sorted, rules.fallback elements = .ok sorted) {total : Nat}
    (elements : List α) (depth : Nat) (within : elements.length ≤ total) :
    ∃ result, EngineSorts rules total elements depth result := by
  induction left : rules.maxDepth - depth generalizing elements depth with
  | zero =>
    rcases Nat.lt_or_ge 1 elements.length with many | few
    · obtain ⟨result, sorts⟩ := JobSorts.exists readable finishes elements depth
      refine ⟨_, .job many (rules.inForce_total within) ?_ sorts⟩
      rintro ⟨-, deeper, -⟩
      omega
    · exact ⟨_, .alone few⟩
  | succ left ih =>
    rcases Nat.lt_or_ge 1 elements.length with many | few
    · let threshold := max rules.settings.minParallelChunk (total / rules.settings.threads)
      have inForce : rules.InForce total elements.length threshold := rules.inForce_total within
      by_cases long : rules.Long threshold elements.length depth
      · have shorter (bucket : Fin radix) : (bucketShare (rules.digits.digit · depth)
            (Rules.chunkLength elements.length threshold) elements bucket).length ≤ total := by
          rw [(bucketShare_perm (Rules.chunkLength_pos (by omega)) _ _ bucket).length_eq]
          exact Nat.le_trans (List.length_filter_le _ _) within
        have buckets := fun bucket => ih _ (depth + 1) (shorter bucket) (by omega)
        choose results each using buckets
        exact ⟨_, .step many inForce long (readable _ _) each⟩
      · obtain ⟨result, sorts⟩ := JobSorts.exists readable finishes elements depth
        exact ⟨_, .job many inForce long sorts⟩
    · exact ⟨_, .alone few⟩

end Existence

/-- A job that goes on makes of a range what it makes of its buckets, also where the range
is so short that there is nothing to sort. -/
theorem JobSorts.divide {rules : Rules α radix} {elements : List α} {depth : Nat}
    {results : Fin radix → Result α} (goesOn : ¬rules.Ends elements.length depth)
    (readable : rules.Readable elements depth)
    (each : ∀ bucket, JobSorts rules
      ((arrange rules.settings.inPlace (rules.digits.digit · depth) elements).filter
        (rules.digits.digit · depth = bucket)) (depth + 1) (results bucket)) :
    JobSorts rules elements depth (join ((List.finRange radix).map results)) := by
  rcases Nat.lt_or_ge 1 elements.length with many | few
  · exact .split many goesOn readable each
  · let key := (rules.digits.digit · depth)
    let arranged := arrange rules.settings.inPlace key elements
    have same : arranged.Perm elements := arrange_perm _ _ _
    have alone (bucket : Fin radix) : results bucket = ⟨arranged.filter (key · = bucket), 0⟩ := by
      have short : (arranged.filter (key · = bucket)).length ≤ 1 :=
        (List.length_filter_le _ _).trans (same.length_eq.trans_le few)
      have sorts := each bucket
      generalize results bucket = result at sorts ⊢
      cases sorts with
      | alone => rfl
      | final many => exact absurd many (Nat.not_le.mpr (Nat.lt_succ_of_le short))
      | split many => exact absurd many (Nat.not_le.mpr (Nat.lt_succ_of_le short))
    have joined : join ((List.finRange radix).map results) = ⟨(group key arranged).flatten, 0⟩ := by
      rw [join_eq, List.flatMap_map, List.map_map]
      congr 1
      · simp only [alone, group, List.flatMap_def]
      · refine List.sum_eq_zero ?_
        simp [Function.comp_def, alone]
    have whole : (group key arranged).flatten = elements := by
      have rearranged := (flatten_group_perm key arranged).trans same
      cases elements with
      | nil => exact rearranged.eq_nil
      | cons x rest =>
        obtain rfl : rest = [] := by simpa using few
        exact List.perm_singleton.mp rearranged
    rw [joined, whole]
    exact .alone few

end RadixSort
