import RadixSort.Proofs.Msd.Run
import Mathlib.Data.List.Nodup

/-!
# What is in flight never overlaps, and no element is lost

Between two tasks, the ranges of the sequential jobs that wait and of the partitions that
have not finished are in flight. They have no position in common, and every position
outside them is finished. The elements are those of the input: where a range is in
flight, they are in its valid side, and elsewhere in the caller's array.

That no element is lost follows from what the ledger promises. If every range in flight
were put in order now, the caller's array would hold what the engine makes of the input,
which is a rearrangement of it, and putting a range in order rearranges what it holds.
-/
namespace RadixSort

open Recursion

variable {α : Type} {radix : Nat}

/-- The values in some cells of an array, in the order of the cells. -/
def valuesAt (cells : Array α) (slots : List Nat) : List α := slots.filterMap (cells[·]?)

theorem valuesAt_append (cells : Array α) (first second : List Nat) :
    valuesAt cells (first ++ second) = valuesAt cells first ++ valuesAt cells second :=
  List.filterMap_append

/-- Arrays that agree on some cells have the same values there. -/
theorem valuesAt_congr {first second : Array α} {slots : List Nat}
    (agree : ∀ cell ∈ slots, first[cell]? = second[cell]?) :
    valuesAt first slots = valuesAt second slots :=
  List.filterMap_congr agree

/-- A slice of one cell holds the value of that cell, if there is one. -/
theorem slice_one (cells : Array α) (start : Nat) :
    slice cells start 1 = cells[start]?.toList := by
  apply List.ext_getElem?
  intro place
  rw [getElem?_slice]
  cases place with
  | zero => cases cells[start]? <;> rfl
  | succ place => cases cells[start]? <;> simp

/-- The values in the slots of a window are a slice. -/
theorem valuesAt_slots (cells : Array α) (window : Window) :
    valuesAt cells window.slots = slice cells window.offset window.length := by
  obtain ⟨offset, length, flipped⟩ := window
  change valuesAt cells (List.range' offset length) = slice cells offset length
  induction length generalizing offset with
  | zero => rw [slice_zero, List.range'_zero, valuesAt, List.filterMap_nil]
  | succ length ih =>
    rw [Nat.add_comm length 1, slice_add, slice_one, ← ih, Nat.add_comm 1 length,
      List.range'_succ, valuesAt, List.filterMap_cons, valuesAt]
    cases cells[offset]? <;> rfl

/-- An array can be made to meet obligations each of which has a result, by storing these
results one after the other. It holds a rearrangement of what their windows hold if each
result is one, and nothing is stored outside these windows.

Induct over the obligations. The windows have no slot in common, so what has been stored
for one is not overwritten for another. -/
theorem Redeemed.exists_final {memory : Memory α} (pending : List (Obligation α))
    (each : ∀ obligation ∈ pending, ∃ result : Result α,
      obligation.promise (memory.held obligation.window) result ∧
        result.elements.Perm (memory.held obligation.window))
    (cells : Array α) (distinct : (slotsOf (pending.map Obligation.window)).Nodup)
    (spans : ∀ obligation ∈ pending, memory.Spans obligation.window ∧
      obligation.window.offset + obligation.window.length ≤ cells.size) :
    ∃ final counts, final.size = cells.size ∧ Redeemed memory final pending counts ∧
      (∀ cell, cell ∉ slotsOf (pending.map Obligation.window) → final[cell]? = cells[cell]?) ∧
      (valuesAt final (slotsOf (pending.map Obligation.window))).Perm
        ((pending.map Obligation.window).flatMap memory.held) := by
  induction pending generalizing cells with
  | nil => exact ⟨cells, 0, rfl, rfl, fun _ _ => rfl, List.Perm.refl _⟩
  | cons obligation rest ih =>
    obtain ⟨result, kept, rearranged⟩ := each obligation List.mem_cons_self
    obtain ⟨inside, bound⟩ := spans obligation List.mem_cons_self
    have length : result.elements.length = obligation.window.length := by
      rw [rearranged.length_eq, inside.length_held]
    rw [List.map_cons, slotsOf_cons, List.nodup_append] at distinct
    obtain ⟨-, later, apart⟩ := distinct
    obtain ⟨final, counts, size, met, outside, values⟩ :=
      ih (fun other member => each other (List.mem_cons_of_mem _ member))
        (overwrite cells obligation.window.offset result.elements) later (by
          intro other member
          rw [size_overwrite]
          exact spans other (List.mem_cons_of_mem _ member))
    rw [size_overwrite] at size
    have stored : slice final obligation.window.offset obligation.window.length =
        result.elements := by
      apply slice_eq length
      intro place within
      have own : obligation.window.offset + place ∈ obligation.window.slots :=
        Window.mem_slots.mpr (by omega)
      rw [outside _ fun other => apart _ own _ other rfl,
        getElem?_overwrite _ _ _ _ (by omega), length, if_pos (by omega),
        Nat.add_sub_cancel_left]
    refine ⟨final, result.counts + counts, size, ⟨result, counts, kept, stored, met, rfl⟩, ?_, ?_⟩
    · intro cell absent
      rw [List.map_cons, slotsOf_cons, List.mem_append, not_or] at absent
      rw [outside cell absent.2]
      apply getElem?_overwrite_of_outside
      rw [length]
      exact fun own => absent.1 (Window.mem_slots.mpr own)
    · rw [List.map_cons, slotsOf_cons, valuesAt_append, valuesAt_slots, stored, List.flatMap_cons]
      exact rearranged.append values

/-- The elements of a ledger: what the finished windows hold in the primary array and what
the others hold on their valid sides can be rearranged to reach the goal. -/
theorem Ledger.exists_reached {gave : List α → Prop} {root : Window}
    {goal : List α → Counts → Prop} {memory : Memory α} {pending : List (Obligation α)}
    {finished : List Window} {counts : Counts}
    (ledger : Ledger gave root goal memory pending finished counts) (spans : memory.Spans root)
    (some : ∀ obligation ∈ pending, 0 < obligation.window.length)
    (each : ∀ obligation ∈ pending, ∃ result : Result α,
      obligation.promise (memory.held obligation.window) result ∧
        result.elements.Perm (memory.held obligation.window)) :
    ∃ elements total, goal elements total ∧
      (valuesAt memory.primary (slotsOf finished) ++
        (pending.map Obligation.window).flatMap memory.held).Perm elements := by
  have distinct := ledger.nodup
  rw [List.nodup_append] at distinct
  obtain ⟨first, -, apart⟩ := distinct
  have inside : ∀ obligation ∈ pending, memory.Spans obligation.window ∧
      obligation.window.offset + obligation.window.length ≤ memory.primary.size := by
    intro obligation member
    have own := ledger.spans_of_mem spans member (some obligation member)
    exact ⟨own, own .primary⟩
  obtain ⟨final, later, -, met, outside, values⟩ :=
    Redeemed.exists_final pending each memory.primary first inside
  have kept : ∀ cell ∈ slotsOf finished, final[cell]? = memory.primary[cell]? := by
    intro cell settled
    exact outside cell fun waiting => apart cell waiting cell settled rfl
  refine ⟨_, _, ledger.settles final later kept met, ?_⟩
  rw [← valuesAt_slots, ← valuesAt_congr kept]
  have tiles := (ledger.tiles.filterMap (final[·]?)).symm
  rw [slotsOf_append] at tiles
  refine List.Perm.trans ?_ tiles.symm
  rw [List.filterMap_append]
  exact List.perm_append_comm.trans (values.symm.append_right _)

/-- The range of a sequential job. The tasks of a partition share the range of the
partition. -/
def EngineTask.range? : EngineTask → Option Window
  | .small job => some job.window
  | .count _ _ => none
  | .distribute _ _ => none

namespace Msd

open Engine

/-- The ranges in flight: those of the sequential jobs that wait, and those of the
partitions that have not finished. -/
def inFlight (served : Pool.Served EngineTask (Engine α radix)) : List Window :=
  served.pool.queue.filterMap EngineTask.range? ++
    served.state.steps.map fun entry => entry.2.window

/-- Ranges in flight have no position in common, the positions outside them are the
finished ones, and together they hold the elements of the input. What has been finished is a
single element, or has been given to the fallback and holds what it gave back. -/
structure SharedOut (fallback : List α → Except Fault (List α)) (data : Array α)
    (served : Pool.Served EngineTask (Engine α radix)) : Prop where
  within : ∀ window ∈ inFlight served, window.offset + window.length ≤ data.size
  disjoint : (inFlight served).Pairwise fun first second =>
    ∀ cell ∈ first.slots, cell ∉ second.slots
  outside : ∀ cell, cell ∈ slotsOf served.state.work.finished ↔
    cell < data.size ∧ ∀ window ∈ inFlight served, cell ∉ window.slots
  finished : ∀ window ∈ served.state.work.finished, window.length = 1 ∨ ∃ elements,
    fallback elements =
      .ok (slice served.state.work.memory.primary window.offset window.length)
  kept : (valuesAt served.state.work.memory.primary
      ((List.range data.size).filter (· ∈ slotsOf served.state.work.finished)) ++
    (inFlight served).flatMap served.state.work.memory.held).Perm data.toList

section

variable {rules : Rules α radix} {data : Array α} {budget : Nat} {jobs : List Job}
  {stages : List (Stage radix)} {counts : Counts}
  {served : Pool.Served EngineTask (Engine α radix)}

/-- The ranges in flight are the windows of the ledger. -/
theorem inFlight_perm (sound : Sound rules data [] served.pool.queue served.state budget jobs
      stages counts) :
    (inFlight served).Perm
      ((pending rules data.size [] jobs stages).map Obligation.window) := by
  have small : (jobs.map EngineTask.small).filterMap EngineTask.range? = jobs.map Job.window := by
    rw [List.filterMap_map]
    exact congrFun (List.filterMap_eq_map (f := Job.window)) jobs
  have large : (stages.flatMap Stage.tasks).filterMap EngineTask.range? = [] := by
    rw [List.filterMap_eq_nil_iff]
    intro task member
    obtain ⟨⟨number, step, phase, left⟩, -, listed⟩ := List.mem_flatMap.mp member
    obtain ⟨part, -, rfl⟩ := List.mem_map.mp listed
    cases phase <;> rfl
  have queued := sound.queued.filterMap EngineTask.range?
  rw [List.filterMap_append, small, large, List.append_nil] at queued
  have steps : (served.state.steps.map fun entry => entry.2.window) =
      stages.map fun stage => stage.step.window := by
    rw [sound.registered.steps, List.map_map]
    rfl
  have windows : (pending rules data.size [] jobs stages).map Obligation.window =
      jobs.map Job.window ++ stages.map fun stage => stage.step.window := by
    rw [pending, List.map_nil, List.nil_append, List.map_append, List.map_map, List.map_map]
    rfl
  rw [inFlight, steps, windows]
  exact queued.append_right _

/-- Every range in flight has a result that is a rearrangement of what it holds. -/
theorem exists_result (readable : ∀ elements depth, rules.Readable elements depth)
    (permutes : ∀ elements, ∃ sorted, rules.fallback elements = .ok sorted ∧
      sorted.Perm elements)
    (sound : Sound rules data [] served.pool.queue served.state budget jobs stages counts) :
    ∀ obligation ∈ pending rules data.size [] jobs stages,
      ∃ result : Result α,
        obligation.promise (served.state.work.memory.held obligation.window) result ∧
          result.elements.Perm (served.state.work.memory.held obligation.window) := by
  have finishes : ∀ elements, ∃ sorted, rules.fallback elements = .ok sorted := by
    intro elements
    obtain ⟨sorted, ran, -⟩ := permutes elements
    exact ⟨sorted, ran⟩
  have keeps : ∀ elements sorted, rules.fallback elements = .ok sorted →
      sorted.Perm elements :=
    fun elements sorted => Ensures.of_exists_ok (permutes elements)
  intro obligation member
  rcases mem_pending.mp member with ⟨job, -, rfl⟩ | ⟨stage, listed, rfl⟩
  · obtain ⟨result, sorts⟩ := JobSorts.exists readable finishes
      (served.state.work.memory.held job.window) job.depth
    exact ⟨result, sorts, sorts.perm keeps⟩
  · have shaped := (sound.partitioning stage listed).shaped
    have shares := bucketShare_perm shaped.chunking.chunk_pos (stage.step.key rules)
      (served.state.work.memory.held stage.step.window)
    have spans := sound.ledger.spans_of_mem sound.spans member shaped.window_pos
    have length := spans.length_held
    have shorter (bucket : Fin radix) : (bucketShare (stage.step.key rules)
        stage.step.chunkLength (served.state.work.memory.held stage.step.window)
        bucket).length ≤ data.size := by
      rw [(shares bucket).length_eq]
      exact (List.length_filter_le _ _).trans (length.le.trans shaped.within)
    have buckets := fun bucket => EngineSorts.exists readable finishes _
      (stage.step.depth + 1) (shorter bucket)
    choose results sorts using buckets
    refine ⟨join ((List.finRange radix).map results), ⟨readable _ _, results, sorts, rfl⟩, ?_⟩
    exact join_perm fun bucket => ((sorts bucket).perm keeps).trans (shares bucket)

/-- No range in flight is empty. -/
theorem pending_pos (sound : Sound rules data [] served.pool.queue served.state budget jobs stages
    counts) :
    ∀ obligation ∈ pending rules data.size [] jobs stages, 0 < obligation.window.length := by
  intro obligation member
  rcases mem_pending.mp member with ⟨job, listed, rfl⟩ | ⟨stage, listed, rfl⟩
  · exact Nat.lt_of_lt_of_le Nat.two_pos (sound.waiting job listed).1
  · exact (sound.partitioning stage listed).shaped.window_pos

/-- The positions of the ranges in flight and the finished ones are all there are, each of
them once. -/
theorem slots_perm (sound : Sound rules data [] served.pool.queue served.state budget jobs stages
    counts) :
    (slotsOf (inFlight served) ++ slotsOf served.state.work.finished).Perm
      (List.range' 0 data.size) := by
  have tiles := sound.ledger.tiles
  rw [slotsOf_append] at tiles
  exact (((inFlight_perm sound).flatMap_right Window.slots).append_right _).trans tiles

/-- The finished positions are those that no range in flight has. -/
theorem mem_finished (sound : Sound rules data [] served.pool.queue served.state budget jobs stages
    counts) (cell : Nat) :
    cell ∈ slotsOf served.state.work.finished ↔
      cell < data.size ∧ ∀ window ∈ inFlight served, cell ∉ window.slots := by
  have slots := slots_perm sound
  have distinct := slots.nodup_iff.mpr List.nodup_range'
  rw [List.nodup_append] at distinct
  obtain ⟨-, -, apart⟩ := distinct
  have either := slots.mem_iff (a := cell)
  rw [List.mem_append, List.mem_range'_1, Nat.zero_add] at either
  constructor
  · intro finished
    refine ⟨(either.mp (.inr finished)).2, fun window member inside => ?_⟩
    exact apart cell (mem_slotsOf member inside) cell finished rfl
  · rintro ⟨inside, free⟩
    refine (either.mpr ⟨Nat.zero_le _, inside⟩).resolve_left fun listed => ?_
    obtain ⟨window, member, own⟩ := List.mem_flatMap.mp listed
    exact free window member own

/-- The finished positions in the order of the array. -/
theorem finished_perm (sound : Sound rules data [] served.pool.queue served.state budget jobs
    stages counts) :
    (slotsOf served.state.work.finished).Perm
      ((List.range data.size).filter (· ∈ slotsOf served.state.work.finished)) := by
  have distinct := (slots_perm sound).nodup_iff.mpr List.nodup_range'
  rw [List.nodup_append] at distinct
  apply (List.perm_ext_iff_of_nodup distinct.2.1 (List.nodup_range.filter _)).mpr
  intro cell
  rw [List.mem_filter, List.mem_range, decide_eq_true_iff]
  exact ⟨fun listed => ⟨((mem_finished sound cell).mp listed).1, listed⟩, fun both => both.2⟩

/-- Between two tasks, the array is shared out. -/
theorem sharedOut (readable : ∀ elements depth, rules.Readable elements depth)
    (permutes : ∀ elements, ∃ sorted, rules.fallback elements = .ok sorted ∧
      sorted.Perm elements)
    (sound : Sound rules data [] served.pool.queue served.state budget jobs stages counts) :
    SharedOut rules.fallback data served where
  within window member := by
    obtain ⟨obligation, listed, rfl⟩ :=
      List.mem_map.mp ((inFlight_perm sound).mem_iff.mp member)
    have bounds := Ledger.bounds_of_slots (pending_pos sound obligation listed)
      (sound.ledger.part_of_mem listed)
    exact bounds.2.trans (Nat.le_of_eq (Nat.zero_add _))
  disjoint := by
    have distinct := (slots_perm sound).nodup_iff.mpr List.nodup_range'
    rw [List.nodup_append] at distinct
    exact (List.nodup_flatMap.mp distinct.1).2.imp
      fun apart cell first second => apart first second
  outside := mem_finished sound
  finished := sound.ledger.given
  kept := by
    have keeps : ∀ elements sorted, rules.fallback elements = .ok sorted →
        sorted.Perm elements :=
      fun elements sorted => Ensures.of_exists_ok (permutes elements)
    obtain ⟨elements, total, sorts, rearranged⟩ := sound.ledger.exists_reached sound.spans
      (pending_pos sound) (exists_result readable permutes sound)
    refine List.Perm.trans ?_ (rearranged.trans (sorts.perm keeps))
    exact ((finished_perm sound).symm.filterMap _).append
      ((inFlight_perm sound).flatMap_right _)

end

/-- In every state between two tasks of a sort, whichever tasks have been executed, ranges
in flight have no position in common, the positions outside them are the finished ones, which
are single elements or hold what the fallback has given back, and no element is lost. If the
count table fits, there is such a state after any number of tasks. -/
theorem serveTasks_sharedOut {width : DigitWidth} {settings : Settings} (valid : settings.Valid)
    (digit : α → Nat → Fin width.radix) (maxDepth : Nat)
    {fallback : List α → Except Fault (List α)}
    (permutes : ∀ elements, ∃ sorted, fallback elements = .ok sorted ∧ sorted.Perm elements)
    {data : Array α} (many : 2 ≤ data.size) (schedule : Schedule) (count : Nat) :
    (data.size * width.radix < Word.bound → ∃ served,
      serveTasks ⟨settings, .ofTotal digit, fallback, maxDepth⟩ schedule count data =
        .ok served ∧ served.fault = none) ∧
    ∀ served,
      serveTasks ⟨settings, .ofTotal digit, fallback, maxDepth⟩ schedule count data =
        .ok served → served.fault = none → SharedOut fallback data served := by
  have keeps : ∀ elements, ∃ sorted, fallback elements = .ok sorted ∧
      sorted.length = elements.length := by
    intro elements
    obtain ⟨sorted, ran, rearranged⟩ := permutes elements
    exact ⟨sorted, ran, rearranged.length_eq⟩
  let rules : Rules α width.radix := ⟨settings, .ofTotal digit, fallback, maxDepth⟩
  constructor
  · intro fits
    have excuses : Excuses rules data.size fun _ => False :=
      .of_total (fun _ _ => rfl) keeps (.inl (.of_table width.two_le_radix fits))
    obtain ⟨served, ran, serving⟩ :=
      (serveTasks_ensures excuses schedule count valid.1 many).exists_ok fun _ => id
    refine ⟨served, ran, ?_⟩
    unfold Serving at serving
    split at serving
    · exact serving.elim
    · assumption
  · intro served ran running
    have excuses : Excuses rules data.size (· = .arithmeticOverflow) :=
      .of_total (fun _ _ => rfl) keeps (.inr rfl)
    have serving := (serveTasks_ensures excuses schedule count valid.1 many).of_ok ran
    unfold Serving at serving
    rw [running] at serving
    obtain ⟨-, jobs, stages, counts, sound⟩ := serving
    exact sharedOut (fun _ _ _ _ => rfl) permutes sound

/-- Four bytes after three tasks by two workers. -/
theorem serveTasks_sharedOut_three :
    (∃ served, serveTasks (⟨{ threads := 2, subsortThreshold := 2, minParallelChunk := 1 },
        .ofTotal fun x _ => x, fun elements => .ok elements.reverse, 1⟩ :
          Rules (Fin 256) DigitWidth.oneByte.radix) .inOrder 3 #[5, 3, 250, 3] = .ok served ∧
      served.fault = none) ∧
    ∀ served, serveTasks (⟨{ threads := 2, subsortThreshold := 2, minParallelChunk := 1 },
        .ofTotal fun x _ => x, fun elements => .ok elements.reverse, 1⟩ :
          Rules (Fin 256) DigitWidth.oneByte.radix) .inOrder 3 #[5, 3, 250, 3] = .ok served →
      served.fault = none →
        SharedOut (fun elements => .ok elements.reverse) #[5, 3, 250, 3] served := by
  have valid : Settings.Valid { threads := 2, subsortThreshold := 2, minParallelChunk := 1 } :=
    ⟨by decide, by decide, by decide⟩
  have fits : (#[5, 3, 250, 3] : Array (Fin 256)).size * DigitWidth.oneByte.radix <
      Word.bound := by decide
  let digit : Fin 256 → Nat → Fin DigitWidth.oneByte.radix := fun x _ => x
  have shared := serveTasks_sharedOut valid digit 1
    (fun elements => ⟨elements.reverse, rfl, List.reverse_perm elements⟩)
    (by decide : 2 ≤ (#[5, 3, 250, 3] : Array (Fin 256)).size) .inOrder 3
  exact ⟨shared.1 fits, shared.2⟩

end Msd

end RadixSort
