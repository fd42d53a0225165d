import RadixSort.Engine.Dispatch
import RadixSort.Proofs.Engine.Pieces
import RadixSort.Proofs.Engine.Work
import RadixSort.Proofs.Intervals

/-!
# A long range is divided evenly

The number of chunks is rounded up, and so is their length. Rounding up twice could leave
the last chunks without an element, or let them begin behind the range. It does not when
the number of chunks comes of a threshold that the range exceeds: the chunks are then no
longer than the threshold, and all of them but one would not reach the end of the range
even at the threshold's length.

A range is dispatched to several tasks because it exceeds the threshold, and the threshold
is read once more when it is divided. Other workers may have finished ranges in between,
which can only have made the threshold smaller.
-/
namespace RadixSort

variable {α : Type} {radix : Nat}

namespace Work

/-- Record that ranges have reached their final place, one after the other. -/
def settleAll (work : Work α) (settings : Settings) (windows : List Window) : Work α :=
  windows.foldl (fun work window => work.settle settings window) work

/-- Recording a range that is no longer than the number of unfinished elements takes its length
from that number and does not wrap. -/
theorem toNat_rest_settle {work : Work α} {settings : Settings} {window : Window}
    (tracked : settings.trackRemaining = true) (unfinished : window.length ≤ work.rest.toNat) :
    (work.settle settings window).rest.toNat = work.rest.toNat - window.length := by
  rw [settle, tracked, if_pos rfl, toNat_sub_toUInt64 unfinished]

/-- Recording ranges that are together no longer than the number of unfinished elements does not
raise that number.

Induct over the ranges. Recording the first leaves room for the others. -/
theorem rest_settleAll_le {work : Work α} {settings : Settings} {windows : List Window}
    (tracked : settings.trackRemaining = true)
    (unfinished : (windows.map Window.length).sum ≤ work.rest.toNat) :
    (work.settleAll settings windows).rest.toNat ≤ work.rest.toNat := by
  induction windows generalizing work with
  | nil => exact Nat.le_refl _
  | cons window later ih =>
    rw [List.map_cons, List.sum_cons] at unfinished
    have first := toNat_rest_settle tracked (Nat.le_trans (Nat.le_add_right _ _) unfinished)
    have others := ih (by rw [first]; omega)
    rw [first] at others
    exact Nat.le_trans others (Nat.sub_le _ _)

end Work

namespace RadixStep

variable {step : RadixStep radix} {window : Window} {depth threshold : Nat}

/-- Where the chunks of a range begin and stop. -/
def bounds (step : RadixStep radix) : List (Nat × Nat) :=
  (List.range step.parts).map fun part => (step.begins part, step.stops part)

/-- A range is divided into several chunks that are no longer than the threshold. They tile the
range, none of them is empty, and all but the last have one length. The products that say where
a chunk ends exceed the length of the range by less than the number of chunks, and where a
machine word holds as much, this is what the tasks of the chunks compute. -/
structure Balanced (window : Window) (threshold : Nat) (step : RadixStep radix) : Prop where
  range : step.window = window
  number : step.parts = Word.ceilDiv window.length threshold
  length : step.chunkLength = Word.ceilDiv window.length step.parts
  several : 2 ≤ step.parts
  short : step.chunkLength ≤ threshold
  tiles : Intervals.Tiles 0 window.length step.bounds
  some : ∀ part < step.parts, step.begins part < step.stops part
  even : ∀ part, part + 1 < step.parts →
    step.stops part = step.begins part + step.chunkLength
  product : ∀ part < step.parts,
    (part + 1) * step.chunkLength ≤ window.length + step.parts - 1
  computed : window.length + step.parts - 1 < Word.bound →
    (List.range step.parts).mapM step.chunk = .ok step.bounds

/-- What a partition is started as. It is not started only if the number of cells in its table of
counts does not fit a machine word. -/
theorem exists_started (radix : Nat) (window : Window) (depth threshold : Nat) :
    ∃ step : RadixStep radix, step.Started window depth threshold ∧
      start window depth threshold =
        if step.parts * radix < Word.bound then .ok step else .error .arithmeticOverflow := by
  let parts := max (Word.ceilDiv window.length threshold) 1
  let step : RadixStep radix := ⟨window, depth, parts, Word.ceilDiv window.length parts, parts,
    Array.replicate parts (Vector.replicate radix 0)⟩
  refine ⟨step, ⟨rfl, rfl, rfl, rfl, rfl, Array.size_replicate⟩, ?_⟩
  change (Word.checked (parts * radix) >>= fun _ => pure step) = _
  unfold Word.checked
  split <;> rfl

/-- The chunks of a partition that was started tile its range. Each begins where its predecessor
stops. -/
theorem Started.tiles (started : step.Started window depth threshold) :
    Intervals.Tiles 0 window.length step.bounds := by
  have first : step.begins 0 = 0 := by simp [begins]
  have last : step.begins step.parts = step.window.length := Nat.min_eq_right started.covers
  have tiles : Intervals.Tiles (step.begins 0) (step.begins step.parts) step.bounds :=
    Intervals.tiles_range step.begins fun part _ => begins_le_stops step part
  rwa [first, last, started.range] at tiles

/-- The tasks of a partition that was started compute its chunks, if a machine word holds the
products. -/
theorem Started.computed (started : step.Started window depth threshold)
    (fits : window.length + step.parts - 1 < Word.bound) :
    (List.range step.parts).mapM step.chunk = .ok step.bounds := by
  apply mapM_eq_map
  intro part member
  have reached := started.reached_lt (List.mem_range.mp member)
  exact chunk_of_fits (by omega)

section Chunking

variable {part : Nat} (chunking : Chunking step.window.length step.parts step.chunkLength)
include chunking

/-- A chunk begins at the multiple of the chunk length. -/
theorem begins_of_lt (inside : part < step.parts) :
    step.begins part = part * step.chunkLength :=
  Nat.min_eq_left (Nat.le_of_lt (chunking.begin_lt inside))

/-- No chunk is empty. -/
theorem begins_lt_stops (inside : part < step.parts) : step.begins part < step.stops part := by
  have more := chunking.chunk_pos
  have next : (part + 1) * step.chunkLength = part * step.chunkLength + step.chunkLength :=
    Nat.succ_mul part step.chunkLength
  rw [begins_of_lt chunking inside, stops]
  exact Nat.lt_min.mpr ⟨by omega, chunking.begin_lt inside⟩

/-- All chunks but the last have one length. -/
theorem stops_of_lt (more : part + 1 < step.parts) :
    step.stops part = step.begins part + step.chunkLength := by
  have next : step.stops part = step.begins (part + 1) := rfl
  rw [next, begins_of_lt chunking more, begins_of_lt chunking (Nat.lt_of_succ_lt more),
    Nat.succ_mul]

end Chunking

/-- A partition that was started with a threshold that the range exceeds is balanced. -/
theorem Started.balanced (started : step.Started window depth threshold)
    (positive : 0 < threshold) (long : threshold < window.length) :
    step.Balanced window threshold := by
  have some : 0 < window.length := Nat.lt_trans positive long
  have number : step.parts = Word.ceilDiv window.length threshold := by
    rw [started.number, Nat.max_eq_left (Word.ceilDiv_pos some positive)]
  have chunking : Chunking step.window.length step.parts step.chunkLength := by
    rw [started.length, number, started.range]
    exact chunking_of_threshold some positive
  constructor
  case range => exact started.range
  case number => exact number
  case length => exact started.length
  case several => exact number ▸ Word.two_le_ceilDiv positive long
  case short =>
    rw [started.length, number]
    exact Word.ceilDiv_ceilDiv_le some positive
  case tiles => exact started.tiles
  case some => exact fun part inside => begins_lt_stops chunking inside
  case even => exact fun part more => stops_of_lt chunking more
  case product => exact fun part inside => Nat.le_sub_one_of_lt (started.reached_lt inside)
  case computed => exact started.computed

/-- A range that exceeds a threshold is divided evenly by it, and the partition starts unless the
number of cells in its table of counts does not fit a machine word. A range that is dispatched to
several tasks exceeds the threshold that it is divided by, which is not zero. That threshold is read
again, when other workers may have finished some of the unfinished elements, and can only have
become smaller. -/
theorem start_balanced (window : Window) (depth : Nat) :
    (∀ threshold, 0 < threshold → threshold < window.length →
      ∃ step : RadixStep radix, step.Balanced window threshold ∧
        start window depth threshold =
          if step.parts * radix < Word.bound then .ok step else .error .arithmeticOverflow) ∧
    ∀ (rules : Rules α radix) (work : Work α) (settled : List Window), rules.settings.Valid →
      (rules.settings.trackRemaining = true →
        (settled.map Window.length).sum ≤ work.rest.toNat) →
      Engine.isLong rules work ⟨window, depth⟩ = true →
      let again := (work.settleAll rules.settings settled).sequentialThreshold rules.settings
        work.memory.primary.size
      again ≤ work.sequentialThreshold rules.settings work.memory.primary.size ∧
        0 < again ∧ again < window.length := by
  constructor
  · intro threshold positive long
    obtain ⟨step, started, result⟩ := exists_started radix window depth threshold
    exact ⟨step, started.balanced positive long, result⟩
  · intro rules work settled valid unfinished long again
    have smaller : again ≤ work.sequentialThreshold rules.settings work.memory.primary.size :=
      Work.sequentialThreshold_mono _ fun tracked =>
        Work.rest_settleAll_le tracked (unfinished tracked)
    have some : 0 < again := Nat.lt_of_lt_of_le valid.2.2 (Nat.le_max_left _ _)
    simp only [Engine.isLong, Bool.and_eq_true, decide_eq_true_eq] at long
    exact ⟨smaller, some, Nat.lt_of_le_of_lt smaller long.2⟩

/-- Seven of ten elements are dispatched with a threshold of five. Meanwhile the other three are
finished, and the range is divided by a threshold of three. -/
theorem start_balanced_reread :
    let rules : Rules Nat 256 := ⟨{ threads := 2, minParallelChunk := 1, trackRemaining := true },
      .ofTotal fun _ _ => 0, .ok, 1⟩
    let work : Work Nat := .fresh (Array.range 10)
    let window : Window := ⟨3, 7, false⟩
    let settled : List Window := [⟨0, 2, false⟩, ⟨2, 1, false⟩]
    let later := work.settleAll rules.settings settled
    rules.settings.Valid ∧ (settled.map Window.length).sum ≤ work.rest.toNat ∧
      Engine.isLong rules work ⟨window, 0⟩ = true ∧
      work.sequentialThreshold rules.settings 10 = 5 ∧
      later.sequentialThreshold rules.settings 10 = 3 ∧
      ∃ step : RadixStep 256, start window 0 3 = .ok step ∧
        step.bounds = [(0, 3), (3, 6), (6, 7)] := by
  intro rules work window settled later
  have valid : rules.settings.Valid := ⟨by decide, by decide, by decide⟩
  have unfinished : (settled.map Window.length).sum ≤ work.rest.toNat := by decide
  have long : Engine.isLong rules work ⟨window, 0⟩ = true := by decide
  have again : later.sequentialThreshold rules.settings 10 = 3 := by decide
  obtain ⟨divided, reread⟩ := @start_balanced Nat 256 window 0
  have exceeds : 0 < later.sequentialThreshold rules.settings 10 ∧
      later.sequentialThreshold rules.settings 10 < window.length :=
    (reread rules work settled valid (fun _ => unfinished) long).2
  rw [again] at exceeds
  obtain ⟨step, balanced, started⟩ := divided 3 exceeds.1 exceeds.2
  have rounded : Word.ceilDiv window.length 3 = 3 := by decide
  have parts : step.parts = 3 := balanced.number.trans rounded
  have length : step.chunkLength = 3 := by rw [balanced.length, parts, rounded]
  have bounds_eq : step.bounds = (List.range 3).map fun part =>
      (min (part * 3) window.length, min ((part + 1) * 3) window.length) := by
    simp only [bounds, begins, stops, parts, length, balanced.range]
  refine ⟨valid, unfinished, long, by decide, again, step, ?_, bounds_eq⟩
  rw [started, parts]
  rfl

end RadixStep

end RadixSort
