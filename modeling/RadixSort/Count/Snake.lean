import RadixSort.Word

/-!
# Sums over a table of counts, bucket by bucket

Several chunks of a range are counted apart, one row of counts per chunk. Their
buckets are laid out together: all chunks' share of bucket 0 in the order of the
chunks, then all shares of bucket 1, and so on. The cells of the table are
therefore visited down each column in turn, cell number `k` being row
`k % rows` of column `k / rows`.

The inclusive sums replace every count, while the table is being read, by the
end of the cell's share. The exclusive sums are written to a second table and
give the start of each share. The checked form of the inclusive sums makes every
addition through `Word.checked`.
-/
namespace RadixSort

/-- One row of bucket counts per chunk. -/
abbrev CountTable (radix : Nat) : Type := Array (Vector Nat radix)

namespace CountTable

variable {radix : Nat}

theorem row_lt {rows cell : Nat} (inside : cell < rows * radix) : cell % rows < rows :=
  Nat.mod_lt _ (Nat.pos_of_ne_zero fun none => by simp [none] at inside)

theorem column_lt {rows cell : Nat} (inside : cell < rows * radix) : cell / rows < radix :=
  Nat.div_lt_of_lt_mul inside

/-- Replace the counts from cell number `cell` on; `sum` is the total before it. -/
def accumulateFrom (table : CountTable radix) (cell sum : Nat) : CountTable radix × Nat :=
  if inside : cell < table.size * radix then
    have := row_lt inside
    have := column_lt inside
    let reached := sum + table[cell % table.size][cell / table.size]
    accumulateFrom
      (table.modify (cell % table.size) fun row => row.set (cell / table.size) reached)
      (cell + 1) reached
  else
    (table, sum)
termination_by table.size * radix - cell
decreasing_by simp only [Array.size_modify]; omega

/-- Inclusive sums, in place, and the total of all counts. -/
def accumulate (table : CountTable radix) : CountTable radix × Nat := accumulateFrom table 0 0

/-- Replace the counts from a cell on by sums that are words. -/
def checkedAccumulateFrom (table : CountTable radix) (cell sum : Nat) :
    Except Fault (CountTable radix × Nat) :=
  if inside : cell < table.size * radix then do
    have := row_lt inside
    have := column_lt inside
    let reached ← Word.checked (sum + table[cell % table.size][cell / table.size])
    checkedAccumulateFrom
      (table.modify (cell % table.size) fun row => row.set (cell / table.size) reached)
      (cell + 1) reached
  else
    .ok (table, sum)
termination_by table.size * radix - cell
decreasing_by simp only [Array.size_modify]; omega

/-- Inclusive sums in words, in place, and the total of all counts. -/
def checkedAccumulate (table : CountTable radix) : Except Fault (CountTable radix × Nat) :=
  checkedAccumulateFrom table 0 0

/-- Fill in the starts from cell number `cell` on; `sum` is the total before it. -/
def offsetsFrom (counts : CountTable radix) (cell sum : Nat) (starts : CountTable radix) :
    CountTable radix :=
  if inside : cell < counts.size * radix then
    have := row_lt inside
    have := column_lt inside
    offsetsFrom counts (cell + 1) (sum + counts[cell % counts.size][cell / counts.size])
      (starts.modify (cell % counts.size) fun row => row.set (cell / counts.size) sum)
  else
    starts
termination_by counts.size * radix - cell

/-- Exclusive sums, as a second table. -/
def offsets (counts : CountTable radix) : CountTable radix :=
  offsetsFrom counts 0 0 (Array.replicate counts.size (Vector.replicate radix 0))

end CountTable

end RadixSort
