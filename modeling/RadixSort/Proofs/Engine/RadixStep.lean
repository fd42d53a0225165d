import RadixSort.Engine.RadixStep
import RadixSort.Proofs.Chunks
import RadixSort.Proofs.Count.Shares
import RadixSort.Proofs.Engine.Work

/-!
# A long range is partitioned by its tasks in any order

Each task of a phase does its own chunk's part. While the chunks are counted, the rows
of those that have been counted hold their counts. While they are scattered, the rows
hold the ends of the shares, except that the first row holds the starts of the buckets
once its chunk has been scattered; and the shadow side of the range holds the shares of
the chunks that have been scattered. Both are said of the list of chunks whose tasks have
not finished, in whatever order they do, and of memory that may change elsewhere.
-/
namespace RadixSort

open Recursion

variable {α : Type} {radix : Nat}

/-- A range that is not empty is divided into chunks none of which is empty. -/
theorem Rules.chunking {length : Nat} (some : 0 < length) (threshold : Nat) :
    Chunking length (max (Word.ceilDiv length threshold) 1)
      (Rules.chunkLength length threshold) := by
  rw [Rules.chunkLength]
  rcases Nat.eq_zero_or_pos threshold with rfl | positive
  · have single : max (Word.ceilDiv length 0) 1 = Word.ceilDiv length length := by
      have one : Word.ceilDiv length length = 1 := by
        rw [Word.ceilDiv, Nat.div_eq_of_lt_le] <;> omega
      rw [one, Word.ceilDiv, Nat.div_zero]
      rfl
    rw [single]
    exact chunking_of_threshold some some
  · rw [Nat.max_eq_left (Word.ceilDiv_pos some positive)]
    exact chunking_of_threshold some positive

/-- A range has no more chunks than elements. -/
theorem Rules.parts_le_length {length : Nat} (some : 0 < length) (threshold : Nat) :
    max (Word.ceilDiv length threshold) 1 ≤ length := by
  have chunking := Rules.chunking some threshold
  have less : max (Word.ceilDiv length threshold) 1 - 1 < length :=
    Nat.lt_of_le_of_lt (Nat.le_mul_of_pos_right _ chunking.chunk_pos) chunking.last
  omega

/-- A range has at most two chunks for each worker.

Where there are more workers than unfinished elements, there are fewer elements in the
range than workers. Otherwise the threshold is no less than the share of a worker, which
is rounded down from at least one element. -/
theorem Rules.parts_le_workers {rules : Rules α radix} {total length threshold : Nat}
    (some : 0 < length) (workers : 0 < rules.settings.threads) (fits : total < Word.bound)
    (inForce : rules.InForce total length threshold) :
    max (Word.ceilDiv length threshold) 1 ≤ 2 * rules.settings.threads := by
  obtain ⟨rest, bounds, -, rfl⟩ := inForce
  obtain ⟨part, -⟩ := bounds fits
  rcases Nat.eq_zero_or_pos (rest / rules.settings.threads) with none | share
  · have few := (Nat.div_eq_zero_iff_lt workers).mp none
    have parts := parts_le_length some
      (max rules.settings.minParallelChunk (rest / rules.settings.threads))
    omega
  · have whole := Nat.lt_mul_div_succ rest workers
    have rounded : rest / rules.settings.threads + 1 ≤ 2 * (rest / rules.settings.threads) := by
      omega
    have enough : length ≤ 2 * rules.settings.threads *
        max rules.settings.minParallelChunk (rest / rules.settings.threads) :=
      calc length ≤ rules.settings.threads * (rest / rules.settings.threads + 1) := by omega
        _ ≤ rules.settings.threads * (2 * (rest / rules.settings.threads)) :=
          Nat.mul_le_mul_left _ rounded
        _ = 2 * rules.settings.threads * (rest / rules.settings.threads) := by
          rw [← Nat.mul_assoc, Nat.mul_comm _ 2]
        _ ≤ 2 * rules.settings.threads *
            max rules.settings.minParallelChunk (rest / rules.settings.threads) :=
          Nat.mul_le_mul_left _ (Nat.le_max_right _ _)
    have parts := Word.ceilDiv_le_of_le_mul (by omega) enough
    omega

namespace RadixStep

variable {rules : Rules α radix} {total : Nat} {excused : Fault → Prop} {memory after : Memory α}
  {step : RadixStep radix}

/-- A partition of a part of the input at a depth where there are digits. -/
structure Shaped (rules : Rules α radix) (total : Nat) (step : RadixStep radix) : Prop where
  many : 2 ≤ step.window.length
  within : step.window.length ≤ total
  shallow : step.depth < rules.maxDepth
  divided : ¬rules.Undivided total
  chunking : Chunking step.window.length step.parts step.chunkLength

/-- The range is not empty. -/
theorem Shaped.window_pos (shaped : Shaped rules total step) : 0 < step.window.length :=
  Nat.lt_of_lt_of_le Nat.two_pos shaped.many

/-- The shape of a partition does not depend on its table, nor on how much of a phase is
left. -/
theorem Shaped.turn (shaped : Shaped rules total step) (left : Nat) (table : CountTable radix) :
    Shaped rules total { step with left, table } :=
  ⟨shaped.many, shaped.within, shaped.shallow, shaped.divided, shaped.chunking⟩

/-- The bucket of an element. -/
def key (rules : Rules α radix) (step : RadixStep radix) (x : α) : Fin radix :=
  rules.digits.digit x step.depth

/-- The chunks of the range. -/
def chunks (memory : Memory α) (step : RadixStep radix) : List (List α) :=
  chunksOf step.chunkLength (memory.held step.window)

/-- The shares of the chunks in the buckets, bucket by bucket, each reversed. -/
def shares (rules : Rules α radix) (memory : Memory α) (step : RadixStep radix) : List (List α) :=
  Shares.blocks List.reverse (step.key rules) (step.chunks memory)

/-- There is one chunk for each part. -/
theorem Shaped.length_chunks (shaped : Shaped rules total step)
    (spans : memory.Spans step.window) : (step.chunks memory).length = step.parts := by
  apply Chunking.length_chunksOf
  rw [spans.length_held]
  exact shaped.chunking

/-- No product of a part and the chunk length leaves a machine word. -/
theorem Shaped.fits_reached (shaped : Shaped rules total step)
    (excuses : Excuses rules total excused) {part : Nat} (inside : part < step.parts) :
    (part + 1) * step.chunkLength < Word.bound ∨ excused .arithmeticOverflow := by
  obtain ⟨many, within, -, divided, some, positive, last, covers, bounded⟩ := shaped
  refine (excuses.sized divided).imp_left ?_
  rintro ⟨fits, -⟩
  have reached : (part + 1) * step.chunkLength ≤ step.parts * step.chunkLength :=
    Nat.mul_le_mul_right _ inside
  have few : step.parts - 1 ≤ (step.parts - 1) * step.chunkLength :=
    Nat.le_mul_of_pos_right _ positive
  omega

/-- A word counts the elements of the range. -/
theorem Shaped.fits_length (shaped : Shaped rules total step)
    (excuses : Excuses rules total excused) :
    step.window.length < Word.bound ∨ excused .arithmeticOverflow :=
  excuses.job.fits.imp_left (Nat.lt_of_le_of_lt shaped.within)

/-- A chunk begins and ends at multiples of the chunk length, or at the end of the
range. -/
theorem Shaped.chunk_ensures (shaped : Shaped rules total step)
    (excuses : Excuses rules total excused) {part : Nat} (inside : part < step.parts) :
    Ensures excused (step.chunk part) (· =
      (part * step.chunkLength, min ((part + 1) * step.chunkLength) step.window.length)) := by
  refine (Word.checked_ensures (shaped.fits_reached excuses inside)).bind ?_
  rintro reached ⟨rfl, -⟩
  have begins := shaped.chunking.begin_lt inside
  have behind : part * step.chunkLength ≤ (part + 1) * step.chunkLength :=
    Nat.mul_le_mul_right _ (Nat.le_succ part)
  have begin_eq : min (part * step.chunkLength)
      (min ((part + 1) * step.chunkLength) step.window.length) = part * step.chunkLength := by
    omega
  change (_, _) = _
  rw [begin_eq]

/-- The elements that the task of a part reads are those of its chunk. -/
theorem Shaped.elements_ensures (shaped : Shaped rules total step)
    (excuses : Excuses rules total excused) (spans : memory.Spans step.window) {part : Nat}
    (inside : part < step.parts) :
    Ensures excused (step.elements memory part)
      fun elements => (step.chunks memory)[part]? = some elements := by
  refine (shaped.chunk_ensures excuses inside).bind ?_
  rintro bounds rfl
  have begins := shaped.chunking.begin_lt inside
  have length := spans.length_held
  have next : (part + 1) * step.chunkLength = part * step.chunkLength + step.chunkLength := by
    rw [Nat.add_mul, Nat.one_mul]
  have whole : (memory.active step.window).size = step.window.length := length
  have cut : RadixSort.part (memory.active step.window) (part * step.chunkLength)
      (min ((part + 1) * step.chunkLength) step.window.length) =
        .ok ((memory.active step.window).extract (part * step.chunkLength)
          (min ((part + 1) * step.chunkLength) step.window.length)) :=
    part_eq_ok_iff.mpr ⟨by omega, by omega, rfl⟩
  refine Ensures.of_eq_ok (bind_eq_ok.mpr ⟨_, cut, rfl⟩) ?_
  rw [chunks, getElem?_chunksOf shaped.chunking.chunk_pos, length, if_pos begins]
  congr 1
  rw [Array.toList_extract]
  change _ = List.take _ (List.drop _ (memory.held step.window))
  rw [List.take_eq_take_iff, List.length_drop, length, next]
  omega

/-- A word counts the elements of a chunk. -/
theorem Shaped.fits_chunk (shaped : Shaped rules total step)
    (excuses : Excuses rules total excused) (spans : memory.Spans step.window) {part : Nat}
    {elements : List α} (here : (step.chunks memory)[part]? = some elements) :
    elements.length < Word.bound ∨ excused .arithmeticOverflow := by
  have whole : (step.chunks memory).flatten.length = step.window.length := by
    rw [chunks, flatten_chunksOf shaped.chunking.chunk_pos, spans.length_held]
  have stop := Blocks.offset_succ here
  have within := Blocks.offset_le_length (step.chunks memory) (part + 1)
  exact (shaped.fits_length excuses).imp_left (Nat.lt_of_le_of_lt (by omega))

/-- While chunks are counted: the rows of all chunks but those left hold their counts. -/
structure Counted (rules : Rules α radix) (memory : Memory α) (step : RadixStep radix)
    (left : List Nat) : Prop where
  number : step.left = left.length
  size : step.table.size = step.parts
  row : ∀ part chunk, part ∉ left → (step.chunks memory)[part]? = some chunk →
    step.table[part]? = some (histogram (step.key rules) chunk) ∧
      rules.Readable chunk step.depth

/-- While chunks are scattered: the rows hold the ends of the shares, or the starts of
the buckets, and the shadow side holds the shares of all chunks but those left. -/
structure Scattered (rules : Rules α radix) (memory : Memory α) (step : RadixStep radix)
    (left : List Nat) : Prop where
  number : step.left = left.length
  size : step.table.size = step.parts
  readable : rules.Readable (memory.held step.window) step.depth
  row : ∀ (part : Nat) (entries : Vector Nat radix), step.table[part]? = some entries →
    (part ≠ 0 ∨ part ∈ left) → ∀ bucket : Fin radix,
      entries.get bucket = Blocks.offset (step.shares rules memory) (bucket * step.parts + part + 1)
  first : ∀ entries : Vector Nat radix, step.table[0]? = some entries → 0 ∉ left →
    ∀ bucket : Fin radix,
      entries.get bucket = Blocks.offset (step.shares rules memory) (bucket * step.parts)
  written : ∀ (part : Nat) (bucket : Fin radix) (slot : Nat), part < step.parts → part ∉ left →
    Blocks.offset (step.shares rules memory) (bucket * step.parts + part) ≤ slot →
    slot < Blocks.offset (step.shares rules memory) (bucket * step.parts + part + 1) →
      (memory.side step.window.shadowSide)[step.window.offset + slot]? =
        (step.shares rules memory).flatten[slot]?

/-- Counting goes on undisturbed if memory changes outside the range. -/
theorem Counted.undisturbed {left : List Nat} (counted : Counted rules memory step left)
    (same : after.held step.window = memory.held step.window) :
    Counted rules after step left := by
  refine ⟨counted.number, counted.size, ?_⟩
  rw [chunks, same]
  exact counted.row

/-- Scattering goes on undisturbed if memory changes outside the range. -/
theorem Scattered.undisturbed {left : List Nat} (scattered : Scattered rules memory step left)
    (same : after.held step.window = memory.held step.window)
    (shadow : ∀ cell ∈ step.window.slots, (after.side step.window.shadowSide)[cell]? =
      (memory.side step.window.shadowSide)[cell]?)
    (inside : (step.shares rules memory).flatten.length ≤ step.window.length) :
    Scattered rules after step left := by
  have shares_eq : step.shares rules after = step.shares rules memory := by
    rw [shares, shares, chunks, chunks, same]
  refine ⟨scattered.number, scattered.size, ?_, ?_, ?_, ?_⟩
  · rw [same]
    exact scattered.readable
  · rw [shares_eq]
    exact scattered.row
  · rw [shares_eq]
    exact scattered.first
  · rw [shares_eq]
    intro part bucket slot valid finished low high
    have within := Blocks.offset_le_length (step.shares rules memory)
      (bucket * step.parts + part + 1)
    rw [shadow _ (Window.mem_slots.mpr (by omega))]
    exact scattered.written part bucket slot valid finished low high

/-- The shares of all chunks are the buckets of the range, chunk by chunk. -/
theorem flatten_shares (rules : Rules α radix) (memory : Memory α) (step : RadixStep radix) :
    (step.shares rules memory).flatten =
      (groupChunks (step.key rules) step.chunkLength (memory.held step.window)).flatten :=
  Shares.flatten_blocks List.reverse (step.key rules) (step.chunks memory)

/-- The buckets of a range, chunk by chunk, hold its elements. -/
theorem flatten_groupChunks_perm (key : α → Fin radix) {chunkLength : Nat}
    (positive : 0 < chunkLength) (elements : List α) :
    (groupChunks key chunkLength elements).flatten.Perm elements := by
  rw [groupChunks_eq, ← List.flatMap_def]
  exact Classes.flatMap_perm (bucketShare_perm positive key elements)

/-- The buckets of a range fill it. -/
theorem Shaped.length_buckets (shaped : Shaped rules total step)
    (spans : memory.Spans step.window) :
    (groupChunks (step.key rules) step.chunkLength (memory.held step.window)).flatten.length =
      step.window.length := by
  rw [(flatten_groupChunks_perm _ shaped.chunking.chunk_pos _).length_eq, spans.length_held]

/-- The shares of all chunks fill the range. -/
theorem Shaped.length_shares (shaped : Shaped rules total step) (spans : memory.Spans step.window) :
    (step.shares rules memory).flatten.length = step.window.length := by
  rw [flatten_shares, shaped.length_buckets spans]

/-- The task of a part that is left counts its chunk. -/
theorem Counted.count_ensures {left : List Nat} (counted : Counted rules memory step left)
    (shaped : Shaped rules total step) (excuses : Excuses rules total excused)
    (spans : memory.Spans step.window) {part : Nat} (member : part ∈ left)
    (valid : part < step.parts) :
    Ensures excused (step.count rules.digits memory part) fun next =>
      ∃ table, next = { step with table, left := step.left - 1 } ∧
        Counted rules memory next (left.erase part) := by
  refine (shaped.elements_ensures excuses spans valid).bind ?_
  intro elements here
  refine (rules.digits.readAll_ensures elements step.depth fun x fault =>
    excuses.refused x step.depth fault shaped.shallow).bind ?_
  intro _ readable
  refine (checkedHistogram_ensures (step.key rules)
    (shaped.fits_chunk excuses spans here)).bind ?_
  rintro counts rfl
  have inside : part < step.table.size := counted.size.symm ▸ valid
  have stored : step.storeRow part (histogram (step.key rules) elements) =
      .ok { step with
        table := step.table.setIfInBounds part (histogram (step.key rules) elements) } :=
    if_pos inside
  refine (Ensures.of_eq_ok stored rfl).bind ?_
  rintro next rfl
  refine ⟨_, rfl, ?_, ?_, ?_⟩
  · rw [List.length_erase_of_mem member, ← counted.number]
  · simp [counted.size]
  · intro other chunk absent found
    by_cases own : other = part
    · subst own
      obtain rfl : elements = chunk := Option.some.inj (here.symm.trans found)
      exact ⟨Array.getElem?_setIfInBounds_self_of_lt inside, readable⟩
    · have old := counted.row other chunk
        (fun listed => absent ((List.mem_erase_of_ne own).mpr listed)) found
      exact ⟨(Array.getElem?_setIfInBounds_ne (Ne.symm own)).trans old.1, old.2⟩

/-- Once all chunks have been counted, their counts are turned into the ends of their
shares, and nothing has been scattered. -/
theorem Counted.layOut_ensures (counted : Counted rules memory step [])
    (shaped : Shaped rules total step) (excuses : Excuses rules total excused)
    (spans : memory.Spans step.window) :
    Ensures excused step.layOut fun next =>
      ∃ table, next = { step with table, left := step.parts } ∧
        Scattered rules memory next (List.range step.parts) := by
  have count := shaped.length_chunks spans
  have holds : CountTable.Holds step.table (step.chunks memory).length
      (Shares.size List.reverse (step.key rules) (step.chunks memory)) := by
    apply Shares.holds_histograms _ _ fun _ => List.length_reverse
    · rw [counted.size, count]
    · exact fun part chunk found => (counted.row part chunk (by simp) found).1
  obtain ⟨ends, sum⟩ := CountTable.accumulate_exact holds (Blocks.offset_zero _) Shares.totals
  have whole : step.table.accumulate.2 = step.window.length := by
    rw [sum, Shares.offset_end]
    exact shaped.length_shares spans
  have summed : Ensures excused step.sumUp
      (· = { step with table := step.table.accumulate.1 }) := by
    refine (CountTable.checkedAccumulate_ensures (whole.symm ▸ shaped.fits_length excuses)).bind ?_
    rintro sums rfl
    change Ensures excused (if step.table.accumulate.2 = step.window.length then _ else _) _
    rw [if_pos whole]
    rfl
  refine summed.bind ?_
  rintro next rfl
  refine ⟨_, rfl, ?_, ?_, ?_, ?_, ?_, ?_⟩
  · rw [List.length_range]
  · rw [ends.size, count]
  · intro x member
    have present : x ∈ (step.chunks memory).flatten := by
      rw [chunks, flatten_chunksOf shaped.chunking.chunk_pos]
      exact member
    obtain ⟨chunk, listed, inside⟩ := List.mem_flatten.mp present
    obtain ⟨part, found⟩ := List.mem_iff_getElem?.mp listed
    exact (counted.row part chunk (by simp) found).2 x inside
  · intro part entries found _ bucket
    rw [Shares.cell_eq ends found bucket, count]
    rfl
  · intro entries _ started
    exact absurd (List.mem_range.mpr shaped.chunking.parts_pos) started
  · intro part bucket slot valid finished
    exact absurd (List.mem_range.mpr valid) finished

/-- A share ends where the next one begins. -/
theorem share_stop (rules : Rules α radix) {chunk : List α} {part : Nat}
    (shaped : Shaped rules total step) (spans : memory.Spans step.window)
    (here : (step.chunks memory)[part]? = some chunk) (bucket : Fin radix) :
    Blocks.offset (step.shares rules memory) (bucket * step.parts + part + 1) =
      Blocks.offset (step.shares rules memory) (bucket * step.parts + part) +
        (chunk.filter (step.key rules · = bucket)).length := by
  have share := Shares.getElem?_blocks List.reverse (step.key rules) here bucket
  rw [shaped.length_chunks spans] at share
  have stop := Blocks.offset_succ share
  rwa [List.length_reverse] at stop

/-- The row that a scattered chunk leaves: the first chunk's row holds the starts of the
buckets, every other row is as it was. -/
theorem storeStarts_exact (step : RadixStep radix) (part : Nat) (starts : Vector Nat radix)
    (occupied : 0 < step.table.size) :
    ∃ table, (∀ (β : Type) (finish : RadixStep radix → Except Fault β),
        (if part = 0 then step.storeRow 0 starts >>= finish else pure step >>= finish) =
          finish { step with table }) ∧
      table.size = step.table.size ∧ (part = 0 → table[0]? = some starts) ∧
      ∀ other, ¬(part = 0 ∧ other = 0) → table[other]? = step.table[other]? := by
  by_cases first : part = 0
  · refine ⟨step.table.setIfInBounds 0 starts, ?_, by simp, ?_, ?_⟩
    · intro β finish
      have stored : step.storeRow 0 starts =
          .ok { step with table := step.table.setIfInBounds 0 starts } := if_pos occupied
      rw [if_pos first, stored]
      rfl
    · intro _
      exact Array.getElem?_setIfInBounds_self_of_lt occupied
    · intro other apart
      exact Array.getElem?_setIfInBounds_ne fun same => apart ⟨first, same.symm⟩
  · refine ⟨step.table, ?_, rfl, fun same => absurd same first, fun _ _ => rfl⟩
    intro β finish
    rw [if_neg first]
    rfl

/-- Writes that agree with the shares and reach every slot of one chunk's shares scatter
that chunk. The shares of the other chunks stay as they are, since what is written over
them is what they hold. -/
theorem Scattered.applyWrites_exact {left : List Nat} (scattered : Scattered rules memory step left)
    (shaped : Shaped rules total step) (spans : memory.Spans step.window) {part : Nat}
    {writes : List (SlotWrite α)} (agrees : Agrees (step.shares rules memory).flatten writes)
    (reached : ∀ (bucket : Fin radix) (slot : Nat),
      Blocks.offset (step.shares rules memory) (bucket * step.parts + part) ≤ slot →
      slot < Blocks.offset (step.shares rules memory) (bucket * step.parts + part + 1) →
        Reaches writes slot)
    (other : Nat) (bucket : Fin radix) (slot : Nat) (inside : other < step.parts)
    (done : other ∉ left.erase part)
    (low : Blocks.offset (step.shares rules memory) (bucket * step.parts + other) ≤ slot)
    (high : slot < Blocks.offset (step.shares rules memory) (bucket * step.parts + other + 1)) :
    (applyWrites (memory.side step.window.shadowSide) step.window.offset
      writes)[step.window.offset + slot]? = (step.shares rules memory).flatten[slot]? := by
  have length := shaped.length_shares spans
  have within := Blocks.offset_le_length (step.shares rules memory)
    (bucket * step.parts + other + 1)
  have bound := spans step.window.shadowSide
  have stays : step.window.offset + slot < (memory.side step.window.shadowSide).size := by omega
  by_cases own : other = part
  · subst own
    exact getElem?_applyWrites_of_agrees agrees _ _ _ stays (reached bucket slot low high)
  · apply getElem?_applyWrites_of_held agrees _ _ _ stays
    exact scattered.written other bucket slot inside
      (fun listed => done ((List.mem_erase_of_ne own).mpr listed)) low high

/-- The elements of a chunk that is left stand in the buckets before the ends of its shares, so
the writes of its task agree with the buckets, reach every slot of its shares, and leave the
cursors where these begin. -/
theorem Scattered.falling_exact {left : List Nat} (scattered : Scattered rules memory step left)
    (shaped : Shaped rules total step) (spans : memory.Spans step.window) {part : Nat}
    {elements : List α} (here : (step.chunks memory)[part]? = some elements)
    {ends : Vector Nat radix} (line : step.table[part]? = some ends) (member : part ∈ left) :
    ∃ writes starts, Scatter.falling (step.key rules) ends elements = .ok (writes, starts) ∧
      Agrees (step.shares rules memory).flatten writes ∧
      (∀ bucket : Fin radix, starts.get bucket =
        Blocks.offset (step.shares rules memory) (bucket * step.parts + part)) ∧
      ∀ (bucket : Fin radix) (slot : Nat),
        Blocks.offset (step.shares rules memory) (bucket * step.parts + part) ≤ slot →
        slot < Blocks.offset (step.shares rules memory) (bucket * step.parts + part + 1) →
          Reaches writes slot := by
  have placed := scattered.row part ends line (.inr member)
  have falls : Scatter.Falls (step.key rules) (step.shares rules memory).flatten ends elements :=
    Shares.falls here fun bucket => by
      rw [placed bucket, shaped.length_chunks spans]
      rfl
  obtain ⟨writes, starts, ran, agrees, lowered, reached⟩ := Scatter.falling_exact falls
  have begins (bucket : Fin radix) : starts.get bucket =
      Blocks.offset (step.shares rules memory) (bucket * step.parts + part) := by
    have room := lowered bucket
    rw [placed bucket, share_stop rules shaped spans here bucket] at room
    exact Nat.add_right_cancel room
  simp only [begins, placed] at reached
  exact ⟨writes, starts, ran, agrees, begins, reached⟩

/-- The task of a part that is left scatters its chunk. -/
theorem Scattered.distribute_ensures {left : List Nat}
    (scattered : Scattered rules memory step left) (shaped : Shaped rules total step)
    (excuses : Excuses rules total excused) (spans : memory.Spans step.window) {part : Nat}
    (distinct : left.Nodup) (member : part ∈ left) (valid : part < step.parts) :
    Ensures excused (step.distribute rules.digits memory part) fun next =>
      (∃ table, next.1 = { step with table, left := step.left - 1 }) ∧
        Memory.Elsewhere step.window memory next.2 ∧
        next.2.held step.window = memory.held step.window ∧
        Scattered rules next.2 next.1 (left.erase part) := by
  refine (shaped.elements_ensures excuses spans valid).bind ?_
  intro elements here
  refine (rules.digits.readAll_ensures elements step.depth fun x fault =>
    excuses.refused x step.depth fault shaped.shallow).bind ?_
  intro _ _
  obtain ⟨ends, line⟩ : ∃ ends, step.table[part]? = some ends :=
    ⟨_, Array.getElem?_eq_getElem (scattered.size.symm ▸ valid)⟩
  obtain ⟨writes, starts, ran, agrees, begins, reached⟩ :=
    scattered.falling_exact shaped spans here line member
  have length := shaped.length_shares spans
  obtain ⟨written, wrote, elsewhere, held, shadow⟩ := memory.writeShadow_exact step.window
    fun write member => length ▸ agrees.within member
  have occupied : 0 < step.table.size := by
    rw [scattered.size]
    exact shaped.chunking.parts_pos
  obtain ⟨table, stored, size, firstRow, otherRows⟩ := storeStarts_exact step part starts occupied
  simp only [line]
  refine (Ensures.of_eq_ok ran rfl).bind ?_
  rintro _ rfl
  refine (Ensures.of_eq_ok wrote rfl).bind ?_
  rintro written rfl
  refine Ensures.of_eq_ok (stored _ fun scattered : RadixStep radix =>
    pure ({ scattered with left := scattered.left - 1 }, written)) ?_
  have shares_eq : shares rules written { step with table, left := step.left - 1 } =
      step.shares rules memory := by
    change Shares.blocks _ _ (chunksOf _ (written.held step.window)) = _
    rw [held]
    rfl
  refine ⟨⟨table, rfl⟩, elsewhere, held, ?_, size.trans scattered.size, ?_, ?_, ?_, ?_⟩
  · rw [List.length_erase_of_mem member, ← scattered.number]
  · change rules.Readable (written.held step.window) step.depth
    rw [held]
    exact scattered.readable
  · intro other ends found apart bucket
    rw [shares_eq]
    have kept : ¬(part = 0 ∧ other = 0) := by
      rintro ⟨rfl, rfl⟩
      rcases apart with apart | listed
      · exact apart rfl
      · exact List.Nodup.not_mem_erase distinct listed
    refine scattered.row other ends ((otherRows other kept).symm.trans found) ?_ bucket
    exact apart.imp_right List.mem_of_mem_erase
  · intro row found done bucket
    rw [shares_eq]
    by_cases first : part = 0
    · subst first
      obtain rfl : starts = row := Option.some.inj ((firstRow rfl).symm.trans found)
      exact begins bucket
    · refine scattered.first row
        ((otherRows 0 fun both => first both.1).symm.trans found) ?_ bucket
      exact fun listed => done ((List.mem_erase_of_ne (Ne.symm first)).mpr listed)
  · intro other bucket slot inside done low high
    rw [shares_eq] at low high ⊢
    refine (congrArg (·[step.window.offset + slot]?) shadow).trans ?_
    exact scattered.applyWrites_exact shaped spans agrees reached other bucket slot inside done
      low high

/-- Where the first row holds the starts of some blocks that fill the range, the buckets are
these blocks. -/
theorem buckets_of_starts (step : RadixStep radix) {blocks : List (List α)}
    {starts : Vector Nat radix} (count : blocks.length = radix)
    (total : blocks.flatten.length = step.window.length) (line : step.table[0]? = some starts)
    (placed : ∀ bucket : Fin radix, starts.get bucket = Blocks.offset blocks bucket) :
    step.buckets = .ok (Bucket.ofBlocks 0 blocks) := by
  have boundary : ∀ bucket (inside : bucket < radix + 1),
      (starts.push step.window.length)[bucket] = Blocks.offset blocks bucket := by
    intro bucket inside
    rw [Vector.getElem_push]
    split
    · rename_i valid
      exact placed ⟨bucket, valid⟩
    · rw [Blocks.offset_of_length_le (by omega), total]
  have first : (starts.push step.window.length)[0] = 0 := by
    rw [boundary, Blocks.offset_zero]
  have ordered : nonDecreasing (starts.push step.window.length) = true := by
    rw [nonDecreasing, List.all_eq_true]
    intro bucket _
    rw [boundary, boundary]
    exact decide_eq_true (Blocks.offset_mono _ (Nat.le_succ _))
  simp only [buckets, line, first, ordered, ne_eq, not_true_eq_false, if_false, if_true]
  rw [Bucket.ofBoundaries_exact count boundary]

/-- Once all chunks have been scattered, the first row of the table holds the starts of
the buckets, which lie in the shadow side of the range. -/
theorem Scattered.buckets_exact (scattered : Scattered rules memory step [])
    (shaped : Shaped rules total step) (spans : memory.Spans step.window) :
    step.buckets = .ok (Bucket.ofBlocks 0
        (groupChunks (step.key rules) step.chunkLength (memory.held step.window))) ∧
      memory.held step.window.exchanged =
        (groupChunks (step.key rules) step.chunkLength (memory.held step.window)).flatten := by
  have count := shaped.length_chunks spans
  have length := shaped.length_buckets spans
  obtain ⟨starts, line⟩ : ∃ starts, step.table[0]? = some starts :=
    ⟨_, Array.getElem?_eq_getElem (scattered.size.symm ▸ shaped.chunking.parts_pos)⟩
  constructor
  · apply buckets_of_starts step _ length line
    · intro bucket
      rw [scattered.first starts line (by simp) bucket, ← count]
      exact Shares.offset_first List.reverse (step.key rules) (step.chunks memory)
        (Nat.le_of_lt bucket.isLt)
    · rw [groupChunks_eq, List.length_map, List.length_finRange]
  · rw [← flatten_shares]
    rw [Memory.held_eq_slice, Window.activeSide_exchanged]
    apply slice_eq (shaped.length_shares spans)
    intro slot inside
    rw [← shaped.length_shares spans] at inside
    obtain ⟨part, chunk, bucket, here, low, high⟩ := Shares.exists_share inside
    have valid : part < step.parts := by
      rw [← count]
      exact (List.getElem?_eq_some_iff.mp here).1
    rw [count] at low high
    exact scattered.written part bucket slot valid (by simp) low high

end RadixStep

end RadixSort
