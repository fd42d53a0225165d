import RadixSort.Proofs.Count.Layout
import RadixSort.Proofs.Count.Snake
import RadixSort.Proofs.Partition.Scatter

/-!
# The shares of chunks in buckets

Every chunk has a share in every bucket. The shares are laid out bucket by bucket,
and within a bucket in the order of the chunks; a share keeps the order of its chunk
or reverses it. Laid out so, they are the target of the scatters of all chunks, whose
cursors are the sums over the table of the chunks' counts.
-/
namespace RadixSort.Shares

variable {α : Type} {radix : Nat} {turn : List α → List α} {key : α → Fin radix}
  {chunks : List (List α)}

/-- The shares bucket by bucket and chunk by chunk, each turned in the same way. -/
def blocks (turn : List α → List α) (key : α → Fin radix) (chunks : List (List α)) :
    List (List α) :=
  (List.finRange radix).flatMap fun bucket =>
    chunks.map fun chunk => turn (chunk.filter (key · = bucket))

/-- There is one share for each chunk and bucket. -/
theorem length_blocks (turn : List α → List α) (key : α → Fin radix) (chunks : List (List α)) :
    (blocks turn key chunks).length = chunks.length * radix := by
  simp [blocks, List.length_flatMap, Nat.mul_comm]

/-- The shares of a bucket follow one another in the order of the chunks. -/
theorem getElem?_blocks (turn : List α → List α) (key : α → Fin radix) {row : Nat}
    {chunk : List α} (here : chunks[row]? = some chunk) (bucket : Fin radix) :
    (blocks turn key chunks)[bucket * chunks.length + row]? =
      some (turn (chunk.filter (key · = bucket))) := by
  let lines := (List.finRange radix).map fun bucket =>
    chunks.map fun chunk => turn (chunk.filter (key · = bucket))
  have line : lines[bucket.val]? =
      some (chunks.map fun chunk => turn (chunk.filter (key · = bucket))) := by
    simp [lines]
  have inside : row < chunks.length := (List.getElem?_eq_some_iff.mp here).1
  have found := Blocks.getElem?_uniform (by simp [lines]) line inside
  rw [List.getElem?_map, here] at found
  rw [blocks, List.flatMap_def]
  exact found

/-- How long the share of a chunk in a bucket is. -/
def size (turn : List α → List α) (key : α → Fin radix) (chunks : List (List α))
    (row column : Nat) : Nat :=
  ((blocks turn key chunks).getD (column * chunks.length + row) []).length

/-- The offsets of the shares are the totals of their sizes. -/
theorem totals : CountTable.Totals chunks.length radix (size turn key chunks)
    (Blocks.offset (blocks turn key chunks)) := by
  intro row column rowValid columnValid
  have here := getElem?_blocks turn key (List.getElem?_eq_getElem rowValid)
    ⟨column, columnValid⟩
  rw [Blocks.offset_succ here, size, List.getD_eq_getElem?_getD, here]
  rfl

/-- The counts of the chunks are the sizes of their shares. -/
theorem holds_histograms (key : α → Fin radix) (chunks : List (List α))
    (lengths : ∀ share, (turn share).length = share.length)
    {table : CountTable radix} (count : table.size = chunks.length)
    (counted : ∀ (row : Nat) (chunk : List α), chunks[row]? = some chunk →
      table[row]? = some (histogram key chunk)) :
    CountTable.Holds table chunks.length (size turn key chunks) where
  size := count
  cell row inside column valid := by
    have rowValid : row < chunks.length := count ▸ inside
    have here := List.getElem?_eq_getElem rowValid
    have counts : table[row] = histogram key chunks[row] := by
      have found := counted row _ here
      rw [Array.getElem?_eq_getElem inside] at found
      exact Option.some.inj found
    have counted : (histogram key chunks[row])[column] = _ :=
      get_histogram key chunks[row] ⟨column, valid⟩
    have share := getElem?_blocks turn key here ⟨column, valid⟩
    rw [counts, counted, size, List.getD_eq_getElem?_getD, share, Option.getD_some, lengths,
      List.countP_eq_length_filter]

/-- The last total is the number of all elements. -/
theorem offset_end : Blocks.offset (blocks turn key chunks) (chunks.length * radix) =
    (blocks turn key chunks).flatten.length :=
  Blocks.offset_of_length_le (Nat.le_of_eq (length_blocks turn key chunks))

/-- A cell of a table of sums, for a chunk and a bucket. -/
theorem cell_eq {table : CountTable radix} {total : Nat → Nat → Nat} {row : Nat}
    {entries : Vector Nat radix} (holds : CountTable.Holds table chunks.length total)
    (here : table[row]? = some entries) (bucket : Fin radix) :
    entries.get bucket = total row bucket := by
  obtain ⟨inside, rfl⟩ := Array.getElem?_eq_some_iff.mp here
  exact holds.cell row inside bucket bucket.isLt

/-- The elements of a chunk stand behind the starts of its shares if these keep their
order. -/
theorem rises {row : Nat} {chunk : List α} (here : chunks[row]? = some chunk)
    {starts : Vector Nat radix}
    (placed : ∀ bucket : Fin radix,
      starts.get bucket = Blocks.offset (blocks id key chunks) (bucket * chunks.length + row)) :
    Scatter.Rises key (blocks id key chunks).flatten starts chunk := by
  intro bucket place x found
  have share := getElem?_blocks id key here bucket
  have inside : place < (chunk.filter (key · = bucket)).length :=
    (List.getElem?_eq_some_iff.mp found).1
  rw [placed, Blocks.getElem?_flatten share inside]
  exact found

/-- The elements of a chunk stand before the ends of its shares if these are
reversed. -/
theorem falls {row : Nat} {chunk : List α} (here : chunks[row]? = some chunk)
    {ends : Vector Nat radix}
    (placed : ∀ bucket : Fin radix, ends.get bucket =
      Blocks.offset (blocks List.reverse key chunks) (bucket * chunks.length + row + 1)) :
    Scatter.Falls key (blocks List.reverse key chunks).flatten ends chunk := by
  intro bucket place x found
  have share := getElem?_blocks List.reverse key here bucket
  have inside : place < (chunk.filter (key · = bucket)).length :=
    (List.getElem?_eq_some_iff.mp found).1
  have stop := placed bucket
  rw [Blocks.offset_succ share, List.length_reverse] at stop
  refine ⟨by omega, ?_⟩
  have slot : ends.get bucket - 1 - place =
      Blocks.offset (blocks List.reverse key chunks) (bucket * chunks.length + row) +
        ((chunk.filter (key · = bucket)).length - 1 - place) := by
    omega
  rw [slot, Blocks.getElem?_flatten share (by rw [List.length_reverse]; omega),
    List.getElem?_reverse (by omega)]
  have mirrored : (chunk.filter (key · = bucket)).length - 1 -
      ((chunk.filter (key · = bucket)).length - 1 - place) = place := by
    omega
  rw [mirrored]
  exact found

/-- Every slot lies in the share of some chunk in some bucket. -/
theorem exists_share {slot : Nat} (inside : slot < (blocks turn key chunks).flatten.length) :
    ∃ row, ∃ chunk, ∃ bucket : Fin radix, chunks[row]? = some chunk ∧
      Blocks.offset (blocks turn key chunks) (bucket * chunks.length + row) ≤ slot ∧
      slot < Blocks.offset (blocks turn key chunks) (bucket * chunks.length + row + 1) := by
  obtain ⟨index, block, here, low, high⟩ := Blocks.exists_block inside
  have valid : index < chunks.length * radix := by
    rw [← length_blocks turn key chunks]
    exact (List.getElem?_eq_some_iff.mp here).1
  have rowValid := CountTable.row_lt valid
  have number := CountTable.cell_number chunks.length index
  refine ⟨index % chunks.length, chunks[index % chunks.length],
    ⟨index / chunks.length, CountTable.column_lt valid⟩, List.getElem?_eq_getElem rowValid, ?_, ?_⟩
  · change Blocks.offset _ (index / chunks.length * chunks.length + index % chunks.length) ≤ slot
    rw [number]
    exact low
  · change slot < Blocks.offset _
      (index / chunks.length * chunks.length + index % chunks.length + 1)
    rw [number, Blocks.offset_succ here]
    exact high

/-- The shares of each bucket put together. -/
def buckets (turn : List α → List α) (key : α → Fin radix) (chunks : List (List α)) :
    List (List α) :=
  (List.finRange radix).map fun bucket =>
    chunks.flatMap fun chunk => turn (chunk.filter (key · = bucket))

/-- The shares of each bucket, still apart. -/
def columns (turn : List α → List α) (key : α → Fin radix) (chunks : List (List α)) :
    List (List (List α)) :=
  (List.finRange radix).map fun bucket =>
    chunks.map fun chunk => turn (chunk.filter (key · = bucket))

/-- Putting the shares of each bucket together gives the buckets. -/
theorem map_flatten_columns (turn : List α → List α) (key : α → Fin radix)
    (chunks : List (List α)) :
    (columns turn key chunks).map List.flatten = buckets turn key chunks := by
  simp [columns, buckets, List.flatMap_def, Function.comp_def]

/-- All shares in order are all buckets in order. -/
theorem flatten_blocks (turn : List α → List α) (key : α → Fin radix) (chunks : List (List α)) :
    (blocks turn key chunks).flatten = (buckets turn key chunks).flatten := by
  rw [← map_flatten_columns, ← List.flatten_flatten, blocks, List.flatMap_def]
  rfl

/-- A bucket begins where the share of the first chunk in it begins. -/
theorem offset_first (turn : List α → List α) (key : α → Fin radix) (chunks : List (List α))
    {bucket : Nat} (inside : bucket ≤ radix) :
    Blocks.offset (blocks turn key chunks) (bucket * chunks.length) =
      Blocks.offset (buckets turn key chunks) bucket := by
  have whole : blocks turn key chunks = (columns turn key chunks).flatten := by
    rw [blocks, List.flatMap_def]
    rfl
  have reached : Blocks.offset (columns turn key chunks) bucket = bucket * chunks.length :=
    Blocks.offset_uniform (by simp [columns]) (by simpa [columns] using inside)
  have cut : (columns turn key chunks).flatten.take (bucket * chunks.length) =
      ((columns turn key chunks).take bucket).flatten := by
    have split := congrArg List.flatten (List.take_append_drop bucket (columns turn key chunks))
    rw [← split, List.flatten_append, ← reached, Blocks.offset, List.take_left]
  rw [Blocks.offset, Blocks.offset, whole, cut, List.flatten_flatten, List.map_take,
    map_flatten_columns]

end RadixSort.Shares
