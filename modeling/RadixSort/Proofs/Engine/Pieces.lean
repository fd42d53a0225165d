import RadixSort.Engine.RadixStep
import RadixSort.Proofs.Chunks
import RadixSort.Proofs.Count.Shares
import RadixSort.Proofs.Partition.Frame

/-!
# Where the pieces of a partition go

A range that is partitioned by several tasks is cut into pieces, one for each task. How
many there are follows from a threshold, and they need not all be filled. The share of a
piece in a bucket has a place that is counted off: before it lie the elements of all
smaller buckets, and those of its own bucket that stand in earlier pieces.
-/
namespace RadixSort

variable {α : Type} {radix : Nat}

section Between

variable {elements : List α} {low middle high : Nat} {x : α}

/-- The elements from one position up to another. -/
def between (elements : List α) (low high : Nat) : List α := (elements.drop low).take (high - low)

@[simp] theorem between_self (elements : List α) (low : Nat) : between elements low low = [] := by
  simp [between]

/-- The first element of a stretch, and what comes after it. -/
theorem between_cons (here : elements[low]? = some x) (more : low < high) :
    between elements low high = x :: between elements (low + 1) high := by
  obtain ⟨inside, rfl⟩ := List.getElem?_eq_some_iff.mp here
  have length : high - low = high - (low + 1) + 1 := by omega
  rw [between, between, List.drop_eq_getElem_cons inside, length, List.take_succ_cons]

/-- Two stretches, one after the other. -/
theorem between_append (elements : List α) (first : low ≤ middle) (second : middle ≤ high) :
    between elements low middle ++ between elements middle high = between elements low high := by
  have length : high - low = (middle - low) + (high - middle) := by omega
  have start : low + (middle - low) = middle := by omega
  rw [between, between, between, length, List.take_add, List.drop_drop, start]

/-- A stretch with one more element at its end. -/
theorem between_concat (here : elements[high]? = some x) (ordered : low ≤ high) :
    between elements low (high + 1) = between elements low high ++ [x] := by
  rw [← between_append elements ordered (Nat.le_succ high), between_cons here (Nat.lt_succ_self _),
    between_self]

/-- The first element of a stretch that is not empty. -/
theorem read_of_between {rest : List α} {x : α}
    (split : between elements low high = x :: rest) :
    low < high ∧ elements[low]? = some x ∧
      between elements (low + 1) high = rest := by
  have more : low < high := by
    have positive : 0 < (between elements low high).length := by simp [split]
    simp only [between, List.length_take] at positive
    omega
  have read : elements[low]? = some x := by
    have head := congrArg (·[0]?) split
    simpa [between, List.getElem?_take, more] using head
  rw [between_cons read more] at split
  exact ⟨more, read, (List.cons.inj split).2⟩

/-- An empty stretch begins where it ends. -/
theorem eq_of_between (ordered : low ≤ high)
    (inside : high ≤ elements.length) (none : between elements low high = []) :
    low = high := by
  have length := congrArg List.length none
  simp only [between, List.length_take, List.length_drop, List.length_nil] at length
  omega

end Between

/-- Counting one more element raises the count of its bucket. -/
theorem histogram_concat (key : α → Fin radix) (elements : List α) (x : α) :
    histogram key (elements ++ [x]) =
      assign (histogram key elements) (key x) ((histogram key elements).get (key x) + 1) := by
  rw [histogram, List.foldl_append]
  rfl

namespace Shares

variable {turn : List α → List α} {key : α → Fin radix} {chunks : List (List α)}

/-- The first slot of the share of a chunk in a bucket. -/
def start (key : α → Fin radix) (chunks : List (List α)) (part : Nat) (bucket : Fin radix) : Nat :=
  chunks.flatten.countP (fun x => (key x).val < bucket.val) +
    (chunks.take part).flatten.countP (key · = bucket)

/-- The share of a chunk ends where that of the next chunk starts. -/
theorem start_succ {part : Nat} {chunk : List α} (here : chunks[part]? = some chunk)
    (bucket : Fin radix) :
    start key chunks (part + 1) bucket =
      start key chunks part bucket + chunk.countP (key · = bucket) := by
  rw [start, start, List.take_add_one, here, Option.toList_some, List.flatten_append,
    List.countP_append, List.flatten_singleton, Nat.add_assoc]

/-- The shares of a bucket have as many elements as the bucket. -/
theorem length_bucket (lengths : ∀ share, (turn share).length = share.length)
    (key : α → Fin radix) (chunks : List (List α)) (bucket : Fin radix) :
    (chunks.flatMap fun chunk => turn (chunk.filter (key · = bucket))).length =
      chunks.flatten.countP (key · = bucket) := by
  induction chunks with
  | nil => rfl
  | cons chunk rest ih =>
    rw [List.flatMap_cons, List.length_append, ih, lengths, ← List.countP_eq_length_filter,
      List.flatten_cons, List.countP_append]

/-- The bucket of a digit. -/
theorem getElem?_buckets (turn : List α → List α) (key : α → Fin radix) (chunks : List (List α))
    (bucket : Fin radix) : (buckets turn key chunks)[bucket.val]? =
      some (chunks.flatMap fun chunk => turn (chunk.filter (key · = bucket))) := by
  simp [buckets]

/-- A bucket starts behind the elements of all smaller ones. -/
theorem offset_buckets (lengths : ∀ share, (turn share).length = share.length)
    (key : α → Fin radix) (chunks : List (List α)) {bucket : Nat}
    (inside : bucket ≤ radix) :
    Blocks.offset (buckets turn key chunks) bucket =
      chunks.flatten.countP fun x => (key x).val < bucket := by
  induction bucket with
  | zero =>
    rw [Blocks.offset_zero]
    exact (List.countP_eq_zero.mpr (by simp)).symm
  | succ bucket ih =>
    have here := getElem?_buckets turn key chunks ⟨bucket, inside⟩
    rw [Blocks.offset_succ here, ih (Nat.le_of_succ_le inside), length_bucket lengths key]
    exact (Zones.countP_lt_succ key chunks.flatten ⟨bucket, inside⟩).symm

/-- Cells that hold the buckets of chunks, one after the other, hold each bucket behind the
elements of all smaller ones. -/
theorem slice_bucket (lengths : ∀ share, (turn share).length = share.length) {cells : Array α}
    {start : Nat} (stored : ∀ slot < (buckets turn key chunks).flatten.length,
      cells[start + slot]? = (buckets turn key chunks).flatten[slot]?) (bucket : Fin radix) :
    slice cells (start + chunks.flatten.countP fun x => (key x).val < bucket.val)
        (chunks.flatten.countP (key · = bucket)) =
      chunks.flatMap fun chunk => turn (chunk.filter (key · = bucket)) := by
  have here := getElem?_buckets turn key chunks bucket
  have count := length_bucket lengths key chunks bucket
  rw [← offset_buckets lengths key chunks (Nat.le_of_lt bucket.isLt)]
  refine slice_eq count fun place valid => ?_
  have valid := Nat.lt_of_lt_of_eq valid count.symm
  have aims := Blocks.getElem?_flatten here valid
  rw [Nat.add_assoc, stored _ ?_, aims]
  exact (List.getElem?_eq_some_iff.mp (aims.trans (List.getElem?_eq_getElem valid))).1

/-- The shares lie one after the other from their first slots on.

Induct over the chunks of one bucket. -/
theorem offset_blocks (lengths : ∀ share, (turn share).length = share.length)
    (key : α → Fin radix) {part : Nat}
    (within : part ≤ chunks.length) (bucket : Fin radix) :
    Blocks.offset (blocks turn key chunks) (bucket * chunks.length + part) =
      start key chunks part bucket := by
  induction part with
  | zero =>
    rw [Nat.add_zero, offset_first turn key chunks (Nat.le_of_lt bucket.isLt),
      offset_buckets lengths key chunks (Nat.le_of_lt bucket.isLt)]
    simp [start]
  | succ part ih =>
    have here := List.getElem?_eq_getElem within
    have share := getElem?_blocks turn key here bucket
    rw [← Nat.add_assoc, Blocks.offset_succ share, ih (Nat.le_of_succ_le within), lengths,
      start_succ here, List.countP_eq_length_filter]

/-- Shares that have a slot in common are the same share. -/
theorem share_unique {part other slot : Nat} {bucket second : Fin radix}
    (valid : part < chunks.length) (otherValid : other < chunks.length)
    (low : start key chunks part bucket ≤ slot) (high : slot < start key chunks (part + 1) bucket)
    (otherLow : start key chunks other second ≤ slot)
    (otherHigh : slot < start key chunks (other + 1) second) : part = other ∧ bucket = second := by
  have lengths (share : List α) : (id share).length = share.length := rfl
  rw [← offset_blocks lengths key (Nat.le_of_lt valid)] at low
  rw [← offset_blocks lengths key (show part + 1 ≤ chunks.length from valid)] at high
  rw [← offset_blocks lengths key (Nat.le_of_lt otherValid)] at otherLow
  rw [← offset_blocks lengths key (show other + 1 ≤ chunks.length from otherValid)] at otherHigh
  have same : bucket.val * chunks.length + part = second.val * chunks.length + other := by
    rcases Nat.lt_trichotomy (bucket.val * chunks.length + part)
      (second.val * chunks.length + other) with before | same | behind
    · have := Blocks.offset_mono (blocks id key chunks)
        (show bucket.val * chunks.length + (part + 1) ≤ second.val * chunks.length + other by omega)
      omega
    · exact same
    · have := Blocks.offset_mono (blocks id key chunks)
        (show second.val * chunks.length + (other + 1) ≤ bucket.val * chunks.length + part by omega)
      omega
  obtain ⟨rfl, columns⟩ := CountTable.cell_injective valid otherValid same
  exact ⟨rfl, Fin.ext columns⟩

end Shares

/-- The buckets of some elements that are not empty, each behind all smaller ones. -/
def Bucket.filled (key : α → Fin radix) (elements : List α) : List Bucket :=
  (List.finRange radix).filterMap fun bucket =>
    if elements.countP (key · = bucket) = 0 then none
    else some ⟨elements.countP fun x => (key x).val < bucket.val, elements.countP (key · = bucket)⟩

/-- The buckets that lie between the shares of chunks are those that are filled.

Induct over the buckets. -/
theorem Shares.ofBlocks_buckets {turn : List α → List α} {key : α → Fin radix}
    (lengths : ∀ share, (turn share).length = share.length) (chunks : List (List α)) :
    Bucket.ofBlocks 0 (buckets turn key chunks) = Bucket.filled key chunks.flatten := by
  have count : (buckets turn key chunks).length = radix := by simp [buckets]
  have upTo (reached : Nat) (inside : reached ≤ radix) :
      Bucket.ofBlocks 0 ((buckets turn key chunks).take reached) =
        ((List.finRange radix).take reached).filterMap fun bucket =>
          if chunks.flatten.countP (key · = bucket) = 0 then none
          else some ⟨chunks.flatten.countP fun x => (key x).val < bucket.val,
            chunks.flatten.countP (key · = bucket)⟩ := by
    induction reached with
    | zero => rfl
    | succ reached ih =>
      have valid : reached < (List.finRange radix).length := by
        rw [List.length_finRange]
        exact inside
      have digit : (List.finRange radix)[reached]? = some ⟨reached, inside⟩ := by
        rw [List.getElem?_eq_getElem valid, List.getElem_finRange]
        rfl
      have here : (buckets turn key chunks)[reached]? = _ :=
        getElem?_buckets turn key chunks ⟨reached, inside⟩
      have behind : ((buckets turn key chunks).take reached).flatten.length = _ :=
        offset_buckets lengths key chunks (Nat.le_of_succ_le inside)
      rw [List.take_add_one, List.take_add_one, here, digit, Option.toList_some, Option.toList_some,
        Bucket.ofBlocks_append, List.filterMap_append, ih (Nat.le_of_succ_le inside), behind,
        Nat.zero_add]
      congr 1
      rw [Bucket.ofBlocks, Bucket.ofBlocks, length_bucket lengths key, List.filterMap_cons,
        List.filterMap_nil]
      split <;> rfl
  have whole := upTo radix (Nat.le_refl radix)
  rw [List.take_of_length_le (Nat.le_of_eq count),
    List.take_of_length_le (by rw [List.length_finRange])] at whole
  exact whole

namespace RadixStep

variable {step : RadixStep radix}

/-- Where a piece begins, within the range. -/
def begins (step : RadixStep radix) (part : Nat) : Nat :=
  min (part * step.chunkLength) step.window.length

/-- Where a piece stops, within the range. -/
def stops (step : RadixStep radix) (part : Nat) : Nat :=
  min ((part + 1) * step.chunkLength) step.window.length

/-- The pieces of a range, one for each part. -/
def pieces (step : RadixStep radix) (elements : List α) : List (List α) :=
  (List.range step.parts).map fun part => between elements (step.begins part) (step.stops part)

/-- A range is cut into pieces that cover it, and the machine can name their bounds. -/
structure Cut (step : RadixStep radix) : Prop where
  parts_pos : 0 < step.parts
  covers : step.window.length ≤ step.parts * step.chunkLength
  chunk : ∀ part < step.parts, step.chunk part = .ok (step.begins part, step.stops part)

@[simp] theorem length_pieces (step : RadixStep radix) (elements : List α) :
    (step.pieces elements).length = step.parts := by
  simp [pieces]

/-- The piece of a part. -/
theorem getElem?_pieces {part : Nat} (valid : part < step.parts) (elements : List α) :
    (step.pieces elements)[part]? =
      some (between elements (step.begins part) (step.stops part)) := by
  simp [pieces, valid]

/-- A piece does not stop before it begins. -/
theorem begins_le_stops (step : RadixStep radix) (part : Nat) :
    step.begins part ≤ step.stops part := by
  have := Nat.mul_le_mul_right step.chunkLength (by omega : part ≤ part + 1)
  simp only [begins, stops]
  omega

/-- The pieces make up the range.

Induct over the pieces. Each begins where its predecessor stops. -/
theorem Cut.flatten_pieces (cut : step.Cut) {elements : List α}
    (length : elements.length = step.window.length) :
    (step.pieces elements).flatten = elements := by
  have upTo (count : Nat) : ((List.range count).map fun part =>
      between elements (step.begins part) (step.stops part)).flatten =
        between elements 0 (step.begins count) := by
    induction count with
    | zero => simp [begins]
    | succ count ih =>
      have joined : step.stops count = step.begins (count + 1) := rfl
      rw [List.range_succ, List.map_append, List.flatten_append, ih, List.map_singleton,
        List.flatten_singleton, between_append elements (Nat.zero_le _)
          (begins_le_stops step count), joined]
  have whole : step.begins step.parts = elements.length := by
    have := cut.covers
    simp only [begins]
    omega
  rw [pieces, upTo, whole, between, List.drop_zero, Nat.sub_zero, List.take_length]

/-- A chunk that can be named begins and stops where its piece does. -/
theorem chunk_eq {part : Nat} {bounds : Nat × Nat} (named : step.chunk part = .ok bounds) :
    bounds = (step.begins part, step.stops part) := by
  obtain ⟨reached, fits, rest⟩ := bind_eq_ok.mp named
  obtain ⟨-, rfl⟩ := Word.checked_eq_ok_iff.mp fits
  have ordered := begins_le_stops step part
  have begin_eq : min (part * step.chunkLength)
      (min ((part + 1) * step.chunkLength) step.window.length) = step.begins part := by
    have := Nat.mul_le_mul_right step.chunkLength (by omega : part ≤ part + 1)
    simp only [begins]
    omega
  cases rest
  rw [begin_eq]
  rfl

/-- A chunk can be named if its end fits a machine word. -/
theorem chunk_of_fits {part : Nat} (fits : (part + 1) * step.chunkLength < Word.bound) :
    step.chunk part = .ok (step.begins part, step.stops part) := by
  have named : ∃ bounds, step.chunk part = .ok bounds :=
    ⟨_, bind_eq_ok.mpr ⟨_, Word.checked_eq_ok_iff.mpr ⟨fits, rfl⟩, rfl⟩⟩
  obtain ⟨bounds, named⟩ := named
  rw [named, chunk_eq named]

/-- A range whose pieces can be named is no longer than a word counts. -/
theorem Cut.fits (cut : step.Cut) : step.window.length < Word.bound := by
  have last : step.parts - 1 + 1 = step.parts := Nat.sub_add_cancel cut.parts_pos
  obtain ⟨reached, fits, -⟩ := bind_eq_ok.mp (cut.chunk (step.parts - 1) (by omega))
  rw [last] at fits
  exact Nat.lt_of_le_of_lt cut.covers (Word.checked_eq_ok_iff.mp fits).1

/-- A partition as it is started. -/
structure Started (window : Window) (depth threshold : Nat) (step : RadixStep radix) : Prop where
  range : step.window = window
  level : step.depth = depth
  number : step.parts = max (Word.ceilDiv window.length threshold) 1
  length : step.chunkLength = Word.ceilDiv window.length step.parts
  waiting : step.left = step.parts
  rows : step.table.size = step.parts

/-- What is started is cut by the threshold. -/
theorem started_of_start {window : Window} {depth threshold : Nat}
    (started : start window depth threshold = .ok step) :
    step.Started window depth threshold := by
  obtain ⟨cells, -, rest⟩ := bind_eq_ok.mp started
  cases rest
  exact ⟨rfl, rfl, rfl, rfl, rfl, Array.size_replicate⟩

variable {window : Window} {depth threshold : Nat}

/-- There is a part. -/
theorem Started.parts_pos (started : step.Started window depth threshold) : 0 < step.parts := by
  rw [started.number]
  omega

/-- The parts cover the range. -/
theorem Started.covers (started : step.Started window depth threshold) :
    step.window.length ≤ step.parts * step.chunkLength := by
  rw [started.length, started.range, Nat.mul_comm]
  exact Word.le_ceilDiv_mul _ started.parts_pos

/-- The number of elements and the number of parts together bound where a piece stops. -/
theorem Started.reached_lt (started : step.Started window depth threshold) {part : Nat}
    (valid : part < step.parts) :
    (part + 1) * step.chunkLength < window.length + step.parts := by
  have last := Nat.mul_le_mul_right step.chunkLength (show part + 1 ≤ step.parts from valid)
  have bounded := Word.ceilDiv_mul_lt window.length started.parts_pos
  rw [started.length, Nat.mul_comm step.parts] at last
  rw [started.length]
  omega

/-- A range has no more parts than elements, but at least one. -/
theorem parts_le_max (length threshold : Nat) :
    max (Word.ceilDiv length threshold) 1 ≤ max length 1 := by
  rcases Nat.eq_zero_or_pos threshold with rfl | positive
  · simp [Word.ceilDiv]
  · have few := Word.ceilDiv_le_of_le_mul positive
      (Nat.le_mul_of_pos_right length positive)
    omega

/-- A partition can be started, and its pieces named, where a word holds the number of
elements times the number of buckets. -/
theorem start_of_fits (window : Window) (depth threshold : Nat)
    (fits : max window.length 1 * radix < Word.bound) :
    ∃ step : RadixStep radix, start window depth threshold = .ok step := by
  have few := Nat.mul_le_mul_right radix (parts_le_max window.length threshold)
  have cells := Word.checked_eq_ok_iff.mpr ⟨Nat.lt_of_le_of_lt few fits, rfl⟩
  exact ⟨_, bind_eq_ok.mpr ⟨_, cells, rfl⟩⟩

/-- The pieces of a partition that was started can be named under the same bound. -/
theorem Started.cut (started : step.Started window depth threshold) (wide : 2 ≤ radix)
    (fits : max window.length 1 * radix < Word.bound) : step.Cut where
  parts_pos := started.parts_pos
  covers := started.covers
  chunk part valid := by
    apply chunk_of_fits
    have reached := started.reached_lt valid
    have few := parts_le_max window.length threshold
    have twice := Nat.mul_le_mul_left (max window.length 1) wide
    rw [← started.number] at few
    omega

end RadixStep

end RadixSort
