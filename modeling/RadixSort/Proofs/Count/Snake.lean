import RadixSort.Count.Snake
import RadixSort.Proofs.Blocks

/-!
# Where the shares of the chunks lie

Cell number `column * rows + row` of a table of counts stands for the share that the
chunk `row` has in the bucket `column`. The sums over the cells in this order are
given here by any function that grows, from each cell to the next, by the count in
it. The inclusive sums are its values behind the cells, the exclusive ones its values
at the cells.
-/
namespace RadixSort.CountTable

variable {radix : Nat}

/-- What the cells of a table hold, by row and column. -/
structure Holds (table : CountTable radix) (rows : Nat) (value : Nat → Nat → Nat) : Prop where
  size : table.size = rows
  cell : ∀ row (inside : row < table.size) column (valid : column < radix),
    table[row][column] = value row column

/-- `total` grows from each cell to the next by the count in the cell. -/
def Totals (rows radix : Nat) (count : Nat → Nat → Nat) (total : Nat → Nat) : Prop :=
  ∀ row column, row < rows → column < radix →
    total (column * rows + row + 1) = total (column * rows + row) + count row column

/-- A cell has the row and column that its number says. -/
theorem cell_number (rows cell : Nat) : cell / rows * rows + cell % rows = cell := by
  rw [Nat.mul_comm]
  exact Nat.div_add_mod cell rows

/-- Cells with one number have one row and one column. -/
theorem cell_injective {rows row other column second : Nat} (first : row < rows)
    (second_row : other < rows) (same : column * rows + row = second * rows + other) :
    row = other ∧ column = second := by
  have rowOf (place line : Nat) (inside : place < rows) : (line * rows + place) % rows = place := by
    rw [Nat.mul_comm, Nat.mul_add_mod, Nat.mod_eq_of_lt inside]
  have rows_equal : row = other := by
    rw [← rowOf row column first, same, rowOf other second second_row]
  subst rows_equal
  exact ⟨rfl, Nat.eq_of_mul_eq_mul_right (by omega) (Nat.add_right_cancel same)⟩

/-- Setting one cell changes the value of that cell alone. -/
theorem Holds.modify {table : CountTable radix} {rows : Nat} {value changed : Nat → Nat → Nat}
    (holds : Holds table rows value) (row column entry : Nat) (valid : column < radix)
    (here : changed row column = entry)
    (elsewhere : ∀ other second, other < rows → ¬(other = row ∧ second = column) →
      changed other second = value other second) :
    Holds (table.modify row fun line => line.set column entry) rows changed where
  size := by rw [Array.size_modify, holds.size]
  cell other inside second secondValid := by
    have within : other < table.size := by simpa using inside
    rw [Array.getElem_modify]
    split
    · rename_i same
      subst same
      rw [Vector.getElem_set]
      split
      · rename_i sameColumn
        rw [← sameColumn, here]
      · rename_i different
        rw [holds.cell row within second secondValid, elsewhere row second (holds.size ▸ within)]
        exact fun both => different both.2.symm
    · rename_i different
      rw [holds.cell other within second secondValid,
        elsewhere other second (holds.size ▸ within)]
      exact fun both => different both.1.symm

/-- Cell numbers are below the number of cells. -/
theorem cell_lt {rows row column : Nat} (inside : row < rows) (valid : column < radix) :
    column * rows + row < rows * radix :=
  calc column * rows + row < column * rows + rows := by omega
    _ = rows * (column + 1) := by rw [Nat.mul_comm column rows, Nat.mul_succ]
    _ ≤ rows * radix := Nat.mul_le_mul_left rows valid

/-- The state of a table whose cells are rewritten in the order of their numbers:
those before `cell` hold their new values, the others their old ones. -/
def rewritten (rows cell : Nat) (new : Nat → Nat) (old : Nat → Nat → Nat)
    (row column : Nat) : Nat :=
  if column * rows + row < cell then new (column * rows + row) else old row column

/-- Rewriting the next cell advances the state of the table by one cell. -/
theorem Holds.advance {table : CountTable radix} {rows cell : Nat} {new : Nat → Nat}
    {old : Nat → Nat → Nat} (holds : Holds table rows (rewritten rows cell new old))
    (rowValid : cell % rows < rows) (columnValid : cell / rows < radix) :
    Holds (table.modify (cell % rows) fun line => line.set (cell / rows) (new cell)) rows
      (rewritten rows (cell + 1) new old) := by
  have number := cell_number rows cell
  apply holds.modify _ _ _ columnValid
  · rw [rewritten, number, if_pos (Nat.lt_succ_self cell)]
  · intro other second otherRow different
    have apart : second * rows + other ≠ cell := by
      intro same
      rw [← number] at same
      obtain ⟨rowSame, columnSame⟩ := cell_injective otherRow rowValid same
      exact different ⟨rowSame, columnSame⟩
    unfold rewritten
    by_cases before : second * rows + other < cell
    · rw [if_pos before, if_pos (by omega)]
    · rw [if_neg before, if_neg (by omega)]

/-- Once all cells have been rewritten, the table holds the new values. -/
theorem Holds.complete {table : CountTable radix} {rows cell : Nat} {new : Nat → Nat}
    {old : Nat → Nat → Nat} (holds : Holds table rows (rewritten rows cell new old))
    (atEnd : cell = rows * radix) :
    Holds table rows (fun row column => new (column * rows + row)) where
  size := holds.size
  cell row inside column valid := by
    rw [holds.cell row inside column valid, rewritten, if_pos]
    rw [atEnd]
    exact cell_lt (holds.size ▸ inside) valid

/-- A table is rewritten from its first cell on. -/
theorem Holds.begin {table : CountTable radix} {rows : Nat} {old : Nat → Nat → Nat}
    (holds : Holds table rows old) (new : Nat → Nat) :
    Holds table rows (rewritten rows 0 new old) where
  size := holds.size
  cell row inside column valid := by
    rw [holds.cell row inside column valid, rewritten, if_neg (Nat.not_lt_zero _)]

/-- Summing from a cell on completes a table whose earlier cells hold their sums.

Induct over the cells still to visit. The value read in the cell visited is still the
count, since only cells before it have been rewritten; the cell then holds the total
behind it, which is the sum that the next cell starts from. -/
theorem accumulateFrom_exact {count : Nat → Nat → Nat} {total : Nat → Nat} {rows : Nat}
    (totals : Totals rows radix count total) (table : CountTable radix) (cell sum : Nat)
    (bounded : cell ≤ rows * radix) (reached : sum = total cell)
    (holds : Holds table rows (rewritten rows cell (fun number => total (number + 1)) count)) :
    Holds (accumulateFrom table cell sum).1 rows
        (fun row column => total (column * rows + row + 1)) ∧
      (accumulateFrom table cell sum).2 = total (rows * radix) := by
  have size := holds.size
  fun_induction accumulateFrom table cell sum with
  | case1 table cell sum inside rowValid columnValid now ih =>
    subst size
    have number := cell_number table.size cell
    have value : now = total (cell + 1) := by
      have step := totals _ _ rowValid columnValid
      rw [number] at step
      rw [show now = sum + table[cell % table.size][cell / table.size] from rfl,
        holds.cell _ rowValid _ columnValid, rewritten, number, if_neg (Nat.lt_irrefl cell),
        step, reached]
    apply ih inside value
    · rw [value]
      exact holds.advance rowValid columnValid
    · exact Array.size_modify
  | case2 table cell sum outside =>
    have atEnd : cell = rows * radix := by rw [← size] at bounded ⊢; omega
    exact ⟨holds.complete atEnd, by rw [reached, atEnd]⟩

/-- Inclusive sums are the totals behind the cells. -/
theorem accumulate_exact {count : Nat → Nat → Nat} {total : Nat → Nat} {rows : Nat}
    {table : CountTable radix} (holds : Holds table rows count) (zero : total 0 = 0)
    (totals : Totals rows radix count total) :
    Holds table.accumulate.1 rows (fun row column => total (column * rows + row + 1)) ∧
      table.accumulate.2 = total (rows * radix) :=
  accumulateFrom_exact totals table 0 0 (Nat.zero_le _) zero.symm (holds.begin _)

/-- Filling in the starts from a cell on completes a table of starts. -/
theorem offsetsFrom_exact {count old : Nat → Nat → Nat} {total : Nat → Nat} {rows : Nat}
    {counts : CountTable radix} (counted : Holds counts rows count)
    (totals : Totals rows radix count total) (cell sum : Nat) (starts : CountTable radix)
    (bounded : cell ≤ rows * radix) (reached : sum = total cell)
    (holds : Holds starts rows (rewritten rows cell total old)) :
    Holds (offsetsFrom counts cell sum starts) rows
      (fun row column => total (column * rows + row)) := by
  have size := counted.size
  fun_induction offsetsFrom counts cell sum starts with
  | case1 cell sum starts inside rowValid columnValid ih =>
    subst size
    have number := cell_number counts.size cell
    apply ih inside
    · have step := totals _ _ rowValid columnValid
      rw [number] at step
      rw [counted.cell _ rowValid _ columnValid, step, reached]
    · rw [reached]
      exact holds.advance rowValid columnValid
  | case2 cell sum starts outside =>
    have atEnd : cell = rows * radix := by rw [← size] at bounded ⊢; omega
    exact holds.complete atEnd

/-- Exclusive sums are the totals at the cells. -/
theorem offsets_exact {count : Nat → Nat → Nat} {total : Nat → Nat} {rows : Nat}
    {counts : CountTable radix} (counted : Holds counts rows count) (zero : total 0 = 0)
    (totals : Totals rows radix count total) :
    Holds counts.offsets rows (fun row column => total (column * rows + row)) := by
  apply offsetsFrom_exact counted totals 0 0 _ (Nat.zero_le _) zero.symm
  refine Holds.begin (?_ : Holds _ rows fun _ _ => 0) total
  refine ⟨by rw [Array.size_replicate, counted.size], ?_⟩
  intro row inside column valid
  simp

end RadixSort.CountTable
