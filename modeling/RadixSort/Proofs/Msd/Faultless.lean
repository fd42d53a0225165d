import RadixSort.Proofs.Msd.Run

/-!
# No digit rule makes a sort fail

The checks of the engine guard what the partitions promise each other: that sizes add up,
that boundaries rise, that parts lie within their range, that no cursor falls below zero
and that no count, sum or product leaves its word. None of them asks for an order of the
elements, so none of them fails for digits that have nothing to do with the order, and no
element is lost.

Only depths are not checked. They grow by one from a range to its buckets, and never beyond
the largest depth.
-/
namespace RadixSort.Msd

open Engine

variable {α : Type} {radix : Nat}

/-- No range in flight lies so deep that the depth of its buckets could exceed the largest
one. -/
structure Shallow (maxDepth : Nat) (served : Pool.Served EngineTask (Engine α radix)) :
    Prop where
  waiting : ∀ job, EngineTask.small job ∈ served.pool.queue → job.depth ≤ maxDepth
  partitioning : ∀ entry ∈ served.state.steps, entry.2.depth < maxDepth

/-- Between two tasks, no range in flight is too deep. -/
theorem shallow {rules : Rules α radix} {excused : Fault → Prop} {data : Array α} {budget : Nat}
    {served : Pool.Served EngineTask (Engine α radix)} (running : served.fault = none)
    (serving : Serving rules excused data budget served) : Shallow rules.maxDepth served := by
  unfold Serving at serving
  rw [running] at serving
  obtain ⟨-, jobs, stages, counts, sound⟩ := serving
  constructor
  · intro job member
    exact (sound.waiting job (sound.job_of_mem member)).2
  · intro entry member
    rw [sound.registered.steps] at member
    obtain ⟨stage, listed, rfl⟩ := List.mem_map.mp member
    exact (sound.partitioning stage listed).shaped.shallow

/-- A call whose arrays and workers are granted rearranges its input, whatever the digits,
the schedule, and the order in which the fallback leaves its elements. No task of it ends
in a fault: whatever it computes is a word, and whatever it reads or writes is there. No
range lies deeper than the largest depth. -/
theorem sort_faultless {width : DigitWidth} {settings : Settings} (valid : settings.Valid)
    (digit : α → Nat → Fin width.radix) (maxDepth : Nat)
    {fallback : List α → Except Fault (List α)}
    (permutes : ∀ elements, ∃ sorted, fallback elements = .ok sorted ∧ sorted.Perm elements)
    {data : Array α} (fits : data.size * width.radix < Word.bound) {resources : Resources}
    (granted : resources.grants .shadow = true) (started : resources.spawnFailure? = none)
    (schedule : Schedule) :
    (∃ sorted stats,
      sort ⟨settings, .ofTotal digit, fallback, maxDepth⟩ resources schedule data =
        .sorted sorted stats ∧ sorted.Perm data) ∧
    (2 ≤ data.size → ∀ count, ∃ served,
      serveTasks ⟨settings, .ofTotal digit, fallback, maxDepth⟩ schedule count data =
        .ok served ∧ served.fault = none ∧ Shallow maxDepth served) := by
  let rules : Rules α width.radix := ⟨settings, .ofTotal digit, fallback, maxDepth⟩
  have excuses : Excuses rules data.size fun _ => False := by
    refine .of_total (fun _ _ => rfl) ?_ (.inl (.of_table width.two_le_radix fits))
    intro elements
    obtain ⟨sorted, ran, rearranged⟩ := permutes elements
    exact ⟨sorted, ran, rearranged.length_eq⟩
  refine ⟨?_, ?_⟩
  · obtain ⟨sorted, stats, counts, ran, sorts, -⟩ :=
      sort_exact excuses schedule valid granted started
    refine ⟨sorted, stats, ran, Array.perm_iff_toList_perm.mpr ?_⟩
    exact sorts.perm fun elements sorted => Ensures.of_exists_ok (permutes elements)
  · intro many count
    obtain ⟨served, ran, running⟩ := exists_served excuses schedule count valid.1 many
    have serving := (serveTasks_ensures excuses schedule count valid.1 many).of_ok ran
    exact ⟨served, ran, running, shallow running serving⟩

/-- Four bytes whose digits are those of their complements, by two workers, with a fallback
that reverses what it is given. -/
theorem sort_faultless_complements :
    let rules : Rules (Fin 256) DigitWidth.oneByte.radix :=
      ⟨{ threads := 2, subsortThreshold := 2, minParallelChunk := 1 },
        .ofTotal fun x _ => x.rev, fun elements => .ok elements.reverse, 1⟩
    let schedule : Schedule :=
      ⟨fun turn => turn, fun _ => { idle := fun asked => asked % 2 = 0, settled := fun _ => 1 }⟩
    (∃ sorted stats, sort rules {} schedule #[5, 3, 250, 3] = .sorted sorted stats ∧
        sorted.Perm #[5, 3, 250, 3]) ∧
      (2 ≤ (#[5, 3, 250, 3] : Array (Fin 256)).size → ∀ count, ∃ served,
        serveTasks rules schedule count #[5, 3, 250, 3] = .ok served ∧ served.fault = none ∧
          Shallow 1 served) := by
  have valid : Settings.Valid { threads := 2, subsortThreshold := 2, minParallelChunk := 1 } :=
    ⟨by decide, by decide, by decide⟩
  have fits : (#[5, 3, 250, 3] : Array (Fin 256)).size * DigitWidth.oneByte.radix <
      Word.bound := by decide
  let digit : Fin 256 → Nat → Fin DigitWidth.oneByte.radix := fun x _ => x.rev
  exact sort_faultless valid digit 1
    (fun elements => ⟨elements.reverse, rfl, List.reverse_perm elements⟩) fits rfl rfl _

end RadixSort.Msd
