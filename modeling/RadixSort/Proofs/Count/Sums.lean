import RadixSort.Count.Snake
import RadixSort.Proofs.Blocks
import RadixSort.Proofs.Count.Checked
import RadixSort.Proofs.Count.Snake
import RadixSort.Proofs.Intervals
import Mathlib.Algebra.GroupWithZero.Nat
import Mathlib.Order.Monotone.Basic

/-!
# The two sums over a table of counts

A table of counts is read down each column in turn. Before a cell lie the columns before
its own and what stands above it in its own column. The inclusive sums leave in every cell
what has been counted up to and with it, and the exclusive sums leave there what has been
counted before it. So between the two lies the count itself, and the intervals from one to
the other, in the order of the cells, tile the range from zero to the total of all counts.

No sum that is formed on the way exceeds the total, so a machine word that holds the total
holds all of them.
-/
namespace RadixSort.CountTable

variable {radix : Nat}

/-- The columns of a table, one for each bucket. -/
def columns (table : CountTable radix) : List (List Nat) :=
  (List.finRange radix).map fun bucket => table.toList.map (·.get bucket)

/-- The entries of a table, column by column and row by row. -/
def entries (table : CountTable radix) : List Nat := table.columns.flatten

/-- How many elements of a bucket some rows have counted. -/
def inRows (rows : List (Vector Nat radix)) (bucket : Fin radix) : Nat :=
  (rows.map (·.get bucket)).sum

/-- How many elements are counted before a row of a bucket: those of all smaller buckets in
every row, and those of the bucket in the rows before. -/
def before (counts : CountTable radix) (row : Nat) (bucket : Fin radix) : Nat :=
  (((List.finRange radix).take bucket).map (inRows counts.toList)).sum +
    inRows (counts.toList.take row) bucket

section Entries

variable {table : CountTable radix} {row : Nat}

@[simp] theorem length_columns (table : CountTable radix) : table.columns.length = radix := by
  simp [columns]

/-- All columns of a table are equally long. -/
theorem length_column (table : CountTable radix) :
    ∀ column ∈ table.columns, column.length = table.size := by
  simp [columns]

/-- The column of a bucket. -/
theorem getElem?_columns (table : CountTable radix) (bucket : Fin radix) :
    table.columns[bucket.val]? = some (table.toList.map (·.get bucket)) := by
  simp [columns]

/-- There is one entry for each row and bucket. -/
theorem length_entries (table : CountTable radix) :
    table.entries.length = table.size * radix := by
  rw [entries, ← Blocks.offset_of_length_le (Nat.le_refl _),
    Blocks.offset_uniform table.length_column (Nat.le_refl _), length_columns, Nat.mul_comm]

/-- The entry for a row and a bucket. -/
theorem getElem?_entries {line : Vector Nat radix} (here : table[row]? = some line)
    (bucket : Fin radix) :
    table.entries[bucket * table.size + row]? = some (line.get bucket) := by
  have inside : row < table.size := (Array.getElem?_eq_some_iff.mp here).1
  rw [entries, Blocks.getElem?_uniform table.length_column (table.getElem?_columns bucket) inside,
    List.getElem?_map, Array.getElem?_toList, here]
  rfl

/-- The entries before a row of a bucket are what is counted before it. -/
theorem sum_take_entries (table : CountTable radix) (bucket : Fin radix)
    (within : row ≤ table.size) :
    (table.entries.take (bucket * table.size + row)).sum = before table row bucket := by
  rw [entries, Blocks.take_uniform table.length_column (table.getElem?_columns bucket) within,
    List.sum_append, List.sum_flatten, columns, ← List.map_take, ← List.map_take, List.map_map]
  rfl

/-- A table whose cells hold the values of a function of their numbers lists them in order. -/
theorem Holds.entries_eq {rows : Nat} (value : Nat → Nat)
    (holds : Holds table rows fun row column => value (column * rows + row)) :
    table.entries = (List.range (rows * radix)).map value := by
  obtain rfl := holds.size
  apply List.ext_getElem
  · rw [length_entries, List.length_map, List.length_range]
  · intro cell valid _
    have inside : cell < table.size * radix := length_entries table ▸ valid
    have rowValid := row_lt inside
    have columnValid := column_lt inside
    have number := cell_number table.size cell
    have read := getElem?_entries (Array.getElem?_eq_getElem rowValid)
      ⟨cell / table.size, columnValid⟩
    have entry : table[cell % table.size].get ⟨cell / table.size, columnValid⟩ = _ :=
      holds.cell (cell % table.size) rowValid (cell / table.size) columnValid
    rw [entry] at read
    simp only [number] at read
    rw [List.getElem_map, List.getElem_range]
    exact (List.getElem?_eq_some_iff.mp read).2

end Entries

/-- What stands in the cells before one, in the order of the cells. -/
def upTo (counts : CountTable radix) (cell : Nat) : Nat := (counts.entries.take cell).sum

/-- What stands before a cell grows by its entry. -/
theorem upTo_succ (counts : CountTable radix) (cell : Nat) :
    counts.upTo (cell + 1) = counts.upTo cell + counts.entries.getD cell 0 := by
  rw [upTo, upTo, List.take_add_one, List.sum_append, List.getD_eq_getElem?_getD]
  cases counts.entries[cell]? <;> simp

/-- Nothing is taken away on the way through the cells. -/
theorem upTo_mono (counts : CountTable radix) : Monotone counts.upTo :=
  monotone_nat_of_le_succ fun cell => by
    rw [upTo_succ]
    exact Nat.le_add_right _ _

/-- Behind the last cell stands everything. -/
theorem upTo_end (counts : CountTable radix) :
    counts.upTo (counts.size * radix) = counts.entries.sum := by
  rw [upTo, List.take_of_length_le (Nat.le_of_eq counts.length_entries)]

/-- A table holds its own entries. -/
theorem holds_entries (counts : CountTable radix) :
    Holds counts counts.size fun row column =>
      counts.entries.getD (column * counts.size + row) 0 where
  size := rfl
  cell row inside column valid := by
    have read := getElem?_entries (Array.getElem?_eq_getElem inside) ⟨column, valid⟩
    rw [List.getD_eq_getElem?_getD, read]
    rfl

/-- The sums up to the cells grow by what the cells hold. -/
theorem totals_upTo (counts : CountTable radix) :
    Totals counts.size radix
      (fun row column => counts.entries.getD (column * counts.size + row) 0) counts.upTo :=
  fun row column _ _ => upTo_succ counts (column * counts.size + row)

/-- Both sums over one table: the inclusive ones, with their total, hold what stands up to and
with each cell, the exclusive ones what stands before it. -/
theorem holds_sums (counts : CountTable radix) :
    Holds counts.accumulate.1 counts.size
        (fun row column => counts.upTo (column * counts.size + row + 1)) ∧
      counts.accumulate.2 = counts.entries.sum ∧
      Holds counts.offsets counts.size
        (fun row column => counts.upTo (column * counts.size + row)) := by
  have zero : counts.upTo 0 = 0 := rfl
  obtain ⟨ends, total⟩ := accumulate_exact counts.holds_entries zero counts.totals_upTo
  exact ⟨ends, total.trans counts.upTo_end,
    offsets_exact counts.holds_entries zero counts.totals_upTo⟩

/-- The two sums over any table of counts belong together. The total of the inclusive sums is
that of all counts. The cell of a row and a bucket holds the counts of all smaller buckets in
every row and those of the bucket up to and with the row; the exclusive sums lack the count of
the cell itself, and no sum exceeds the total. From the exclusive sum to the inclusive one, each
cell has an interval, and these intervals, bucket by bucket and row by row, tile the range up to
the total. Where a word holds the total, the inclusive sums can be computed in words. -/
theorem sums_tile (counts : CountTable radix) :
    counts.accumulate.2 = counts.entries.sum ∧
    (counts.entries.sum < Word.bound → counts.checkedAccumulate = .ok counts.accumulate) ∧
    counts.accumulate.1.size = counts.size ∧ counts.offsets.size = counts.size ∧
    (∀ row line, counts[row]? = some line →
      ∃ starts ends, counts.offsets[row]? = some starts ∧ counts.accumulate.1[row]? = some ends ∧
        ∀ bucket : Fin radix, ends.get bucket = before counts (row + 1) bucket ∧
          starts.get bucket + line.get bucket = ends.get bucket ∧
          ends.get bucket ≤ counts.accumulate.2) ∧
    Intervals.Tiles 0 counts.accumulate.2
      (counts.offsets.entries.zip counts.accumulate.1.entries) := by
  obtain ⟨ends, total, starts⟩ := counts.holds_sums
  refine ⟨total, fun fits => ?_, ends.size, starts.size, ?_, ?_⟩
  · exact checkedAccumulate_eq (total ▸ fits)
  · intro row line here
    obtain ⟨inside, rfl⟩ := Array.getElem?_eq_some_iff.mp here
    have startInside : row < counts.offsets.size := starts.size ▸ inside
    have endInside : row < counts.accumulate.1.size := ends.size ▸ inside
    refine ⟨_, _, Array.getElem?_eq_getElem startInside, Array.getElem?_eq_getElem endInside,
      fun bucket => ?_⟩
    have start : counts.offsets[row].get bucket = _ :=
      starts.cell row startInside bucket bucket.isLt
    have stop : counts.accumulate.1[row].get bucket = _ :=
      ends.cell row endInside bucket bucket.isLt
    have count : counts[row].get bucket = _ :=
      counts.holds_entries.cell row inside bucket bucket.isLt
    rw [start, stop, count, total, ← counts.upTo_end]
    exact ⟨sum_take_entries counts bucket inside, (upTo_succ counts _).symm,
      counts.upTo_mono (cell_lt inside bucket.isLt)⟩
  · rw [starts.entries_eq, ends.entries_eq fun cell => counts.upTo (cell + 1), List.zip_map', total,
      ← counts.upTo_end]
    exact Intervals.tiles_range counts.upTo fun cell _ => counts.upTo_mono (Nat.le_succ cell)

/-- Two rows of four buckets. -/
example : accumulate #[#v[1, 0, 2, 1], #v[0, 3, 1, 1]] = (#[#v[1, 1, 6, 8], #v[1, 4, 7, 9]], 9) ∧
    offsets #[#v[1, 0, 2, 1], #v[0, 3, 1, 1]] = #[#v[0, 1, 4, 7], #v[1, 1, 6, 8]] := by
  decide +kernel

end RadixSort.CountTable
