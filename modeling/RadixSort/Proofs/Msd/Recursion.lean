import RadixSort.Proofs.Msd.Run

/-!
# The result is that of a plain recursion, whatever the schedule

With a fallback that cannot fail, and a threshold that does not follow the number of
unfinished elements, nothing of what the engine makes of a range is left open. So it is
what the recursion computes, element by element and counter by counter, even where the
order treats elements as equal.
-/
namespace RadixSort

open Recursion

variable {α : Type} {radix : Nat}

namespace Recursion

variable {problem : Problem α radix}

/-- A bucket is sorted by one job, or left alone if it has at most one element. -/
def smallBucket (problem : Problem α radix) (bucket : List α) (depth : Nat) : Result α :=
  if bucket.length ≤ 1 then { elements := bucket } else small problem bucket depth

/-- A bucket is sorted by as many tasks as its length calls for, or left alone if it has
at most one element. -/
def topBucket (problem : Problem α radix) (bucket : List α) (depth : Nat) : Result α :=
  if bucket.length ≤ 1 then { elements := bucket } else top problem bucket depth

end Recursion

variable {problem : Problem α radix}

/-- What a job makes of a range is what the recursion computes. -/
theorem JobSorts.eq_smallBucket {elements : List α} {depth : Nat} {result : Result α}
    (sorts : JobSorts problem.rules elements depth result) :
    result = smallBucket problem elements depth := by
  induction sorts with
  | alone few =>
    rw [smallBucket, if_pos few]
    rfl
  | @final elements sorted depth many ends finished =>
    have final : elements.length < problem.settings.subsortThreshold ∨
        problem.maxDepth ≤ depth := ends
    cases finished
    rw [smallBucket, if_neg (Nat.not_le_of_lt many), small, dif_pos final]
  | @split elements depth results many goesOn readable each ih =>
    have further : ¬(elements.length < problem.settings.subsortThreshold ∨
        problem.maxDepth ≤ depth) := goesOn
    rw [smallBucket, if_neg (Nat.not_le_of_lt many), small, dif_neg further]
    have buckets : (List.finRange radix).map results =
        (group (problem.digit · depth) (arrange problem.settings.inPlace (problem.digit · depth)
          elements)).map (smallBucket problem · (depth + 1)) := by
      rw [group, List.map_map]
      apply List.map_congr_left
      intro bucket _
      exact ih bucket
    exact congrArg join buckets

/-- Where the number of unfinished elements is not tracked, the threshold that is in force
is that of the recursion. -/
theorem Recursion.threshold_eq (untracked : problem.settings.trackRemaining = false)
    {length threshold : Nat} (inForce : problem.rules.InForce problem.total length threshold) :
    threshold = sequentialThreshold problem := by
  obtain ⟨rest, -, whole, rfl⟩ := inForce
  rw [whole untracked]
  rfl

/-- What the engine makes of a range is what the recursion computes, if the number of
unfinished elements is not tracked.

Induct over what the engine does with the range and its buckets. -/
theorem EngineSorts.eq_topBucket (untracked : problem.settings.trackRemaining = false)
    {elements : List α} {depth : Nat} {result : Result α}
    (sorts : EngineSorts problem.rules problem.total elements depth result) :
    result = topBucket problem elements depth := by
  induction sorts with
  | alone few =>
    rw [topBucket, if_pos few]
    rfl
  | @job elements depth threshold result many inForce short sorts =>
    obtain rfl := threshold_eq untracked inForce
    have brief : ¬(problem.settings.parallelStep ∧ depth < problem.maxDepth ∧
        sequentialThreshold problem < elements.length) := short
    rw [topBucket, if_neg (Nat.not_le_of_lt many), top, dif_neg brief, sorts.eq_smallBucket,
      smallBucket, if_neg (Nat.not_le_of_lt many)]
    rfl
  | @step elements depth threshold results many inForce long readable each ih =>
    obtain rfl := threshold_eq untracked inForce
    have lengthy : problem.settings.parallelStep ∧ depth < problem.maxDepth ∧
        sequentialThreshold problem < elements.length := long
    rw [topBucket, if_neg (Nat.not_le_of_lt many), top, dif_pos lengthy]
    have buckets : (List.finRange radix).map results =
        (groupChunks (problem.digit · depth) (chunkLength problem elements.length)
          elements).map (topBucket problem · (depth + 1)) := by
      rw [groupChunks_eq, List.map_map]
      apply List.map_congr_left
      intro bucket _
      exact ih bucket
    rw [buckets]
    rfl

namespace Msd

/-- A call whose array and workers are granted gives what the recursion computes, and its
counters are those of the recursion, whatever the schedule: which of the waiting tasks is
executed at each turn, and what that task hears of the others. -/
theorem sort_eq_top {width : DigitWidth} {problem : Problem α width.radix}
    (valid : problem.settings.Valid) (untracked : problem.settings.trackRemaining = false)
    (keeps : ∀ elements, (problem.fallback elements).length = elements.length)
    {data : Array α} (total : problem.total = data.size) (many : 2 ≤ data.size)
    (fits : data.size * width.radix < Word.bound) {resources : Resources}
    (granted : resources.grants .shadow = true) (started : resources.spawnFailure? = none)
    (schedule : Schedule) :
    ∃ stats,
      sort problem.rules resources schedule data =
        .sorted (top problem data.toList 0).elements.toArray stats ∧
      stats.bigSteps = (top problem data.toList 0).counts.bigSteps ∧
      stats.comparisonSorts = (top problem data.toList 0).counts.comparisonSorts ∧
      stats.smallJobs = stats.donatedJobs + (top problem data.toList 0).counts.ownJobs := by
  have excuses : Excuses problem.rules data.size fun _ => False :=
    .of_total (fun _ _ => rfl) (fun elements => ⟨_, rfl, keeps elements⟩)
      (.inl (.of_table width.two_le_radix fits))
  obtain ⟨sorted, stats, counts, ran, sorts, tallied⟩ :=
    sort_exact excuses schedule valid granted started
  rw [← total] at sorts
  have result := sorts.eq_topBucket untracked
  have longer : ¬data.toList.length ≤ 1 := Nat.not_le_of_lt many
  rw [topBucket, if_neg longer] at result
  rw [← result]
  exact ⟨stats, ran, tallied.bigSteps, tallied.comparisonSorts, tallied.smallJobs⟩

/-- Bytes that are their own digits, for two workers, with a fallback that reverses what it
is given instead of putting it in order. -/
def reversing : Problem (Fin 256) DigitWidth.oneByte.radix where
  settings := { threads := 2, subsortThreshold := 2, minParallelChunk := 1 }
  digit x _ := x
  fallback := List.reverse
  maxDepth := 1
  total := 4

/-- Four bytes, by workers one of whom asks for more work now and then. -/
theorem sort_eq_top_reversing : ∃ stats,
    sort reversing.rules {}
        ⟨fun turn => turn, fun _ => { idle := fun asked => asked % 2 = 0, settled := fun _ => 1 }⟩
        #[5, 3, 250, 3] =
      .sorted (top reversing [5, 3, 250, 3] 0).elements.toArray stats ∧
    stats.bigSteps = (top reversing [5, 3, 250, 3] 0).counts.bigSteps ∧
    stats.comparisonSorts = (top reversing [5, 3, 250, 3] 0).counts.comparisonSorts ∧
    stats.smallJobs =
      stats.donatedJobs + (top reversing [5, 3, 250, 3] 0).counts.ownJobs := by
  have valid : reversing.settings.Valid := ⟨by decide, by decide, by decide⟩
  have keeps : ∀ elements, (reversing.fallback elements).length = elements.length :=
    fun elements => List.length_reverse
  have fits : (#[5, 3, 250, 3] : Array (Fin 256)).size * DigitWidth.oneByte.radix <
      Word.bound := by decide
  exact sort_eq_top valid rfl keeps rfl (by decide) fits rfl rfl _

end Msd

end RadixSort
