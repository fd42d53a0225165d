import RadixSort.Word
import RadixSort.Count.Histogram

/-!
# Partition in place

Elements are permuted into buckets of known sizes without a second array. Each
bucket has a cursor that starts one past its last slot. The element in the first
slot of the first incomplete bucket is lifted out and put into the slot before its
own bucket's cursor, the element found there is lifted out in its turn, and so on,
until the slot to fill is not above the one where the cycle began: there the lifted
element is put down. Its bucket is then complete, and the next cycle starts behind
it. Once all buckets but the last are complete, so is the last.

Every step moves one cursor down by one, so the sum of the cursors bounds the
number of steps.
-/
namespace RadixSort.Cycle

variable {α : Type} {radix : Nat}

/-- The number of slots that cursors at these positions can still move over. -/
def moves : List Nat → Nat
  | [] => 0
  | cursor :: rest => cursor + moves rest

/-- Lowering a cursor of a list that is not at zero leaves fewer slots. -/
theorem moves_set_pred_lt (cursors : List Nat) (i : Nat) (inside : i < cursors.length)
    (positive : cursors[i] ≠ 0) : moves (cursors.set i (cursors[i] - 1)) < moves cursors := by
  induction cursors generalizing i with
  | nil => simp at inside
  | cons cursor rest ih =>
    cases i with
    | zero =>
      simp only [List.getElem_cons_zero] at positive
      simp only [List.set_cons_zero, List.getElem_cons_zero, moves]
      omega
    | succ i =>
      have := ih i (by simpa using inside) (by simpa using positive)
      simp only [List.set_cons_succ, List.getElem_cons_succ, moves]
      omega

/-- Lowering the cursor of a bucket that is not at zero leaves fewer slots. -/
theorem moves_lower_lt (cursors : Vector Nat radix) (bucket : Fin radix)
    (positive : cursors.get bucket ≠ 0) :
    moves (assign cursors bucket (cursors.get bucket - 1)).toList < moves cursors.toList := by
  have positive : cursors[bucket.val] ≠ 0 := positive
  rw [assign, Vector.toList_set]
  change moves (cursors.toList.set bucket (cursors[bucket.val] - 1)) < moves cursors.toList
  have := moves_set_pred_lt cursors.toList bucket (by simp) (by simpa using positive)
  simpa using this

/-- The data being permuted, and one cursor for each bucket. -/
structure Board (α : Type) (radix : Nat) where
  data : Array α
  cursors : Vector Nat radix

namespace Board

/-- The number of slots that cursors can still move over. -/
def slack (board : Board α radix) : Nat := moves board.cursors.toList

/-- The fault of reaching past the end of the data. -/
def stray (board : Board α radix) (slot : Nat) : Fault :=
  .indexOutOfBounds board.data.size slot

end Board

/-- Put a lifted element where it belongs and go on with the element found there,
until the cycle closes at the slot `first` where it began. The result names the
bucket of the element that is put down there. -/
def close (key : α → Fin radix) (first : Nat) (lifted : α) (board : Board α radix) :
    Except Fault (Board α radix × Fin radix) :=
  let bucket := key lifted
  if exhausted : board.cursors.get bucket = 0 then
    .error .arithmeticOverflow
  else
    let slot := board.cursors.get bucket - 1
    have := moves_lower_lt board.cursors bucket exhausted
    let cursors := assign board.cursors bucket slot
    if slot ≤ first then
      if first < board.data.size then
        .ok (⟨board.data.setIfInBounds first lifted, cursors⟩, bucket)
      else
        .error (board.stray first)
    else
      match board.data[slot]? with
      | some displaced =>
        close key first displaced ⟨board.data.setIfInBounds slot lifted, cursors⟩
      | none => .error (board.stray slot)
termination_by board.slack

/-- One cycle: it begins at the slot `first`, and the next one begins behind the
bucket that it completes. -/
def turn (key : α → Fin radix) (sizes : Vector Nat radix) (first : Nat)
    (board : Board α radix) : Except Fault (Nat × Board α radix) :=
  match board.data[first]? with
  | none => .error (board.stray first)
  | some lifted => do
    let (board, completed) ← close key first lifted board
    let next ← Word.checked (first + sizes.get completed)
    return (next, board)

theorem close_slack_lt {key : α → Fin radix} {first : Nat} {lifted : α}
    {board closed : Board α radix} {bucket : Fin radix}
    (ok : close key first lifted board = .ok (closed, bucket)) :
    closed.slack < board.slack := by
  fun_induction close key first lifted board with
  | case1 => simp at ok
  | case2 lifted board target exhausted slot lower cursors =>
    obtain ⟨rfl, -⟩ := Prod.mk.inj (Except.ok.inj ok)
    exact lower
  | case3 => simp at ok
  | case4 lifted board target exhausted slot lower cursors _ displaced _ ih =>
    exact Nat.lt_trans (ih ok) lower
  | case5 => simp at ok

theorem turn_slack_lt {key : α → Fin radix} {sizes : Vector Nat radix} {first next : Nat}
    {board turned : Board α radix} (ok : turn key sizes first board = .ok (next, turned)) :
    turned.slack < board.slack := by
  unfold turn at ok
  split at ok
  · simp at ok
  · obtain ⟨⟨closed, bucket⟩, closing, rest⟩ := bind_eq_ok.mp ok
    obtain ⟨reached, -, rest⟩ := bind_eq_ok.mp rest
    obtain ⟨-, rfl⟩ := Prod.mk.inj (Except.ok.inj rest)
    exact close_slack_lt closing

/-- Run cycles until one would begin at `limit` or behind it. -/
def walk (key : α → Fin radix) (sizes : Vector Nat radix) (limit first : Nat)
    (board : Board α radix) : Except Fault (Array α) :=
  if first < limit then
    match turned : turn key sizes first board with
    | .error fault => .error fault
    | .ok (next, board) =>
      have := turn_slack_lt turned
      walk key sizes limit next board
  else
    .ok board.data
termination_by board.slack

/-- Permute the data into buckets of the given sizes. -/
def partition (key : α → Fin radix) (sizes : Vector Nat radix) (data : Array α) :
    Except Fault (Array α) := do
  let layout ← Layout.checkedOfSizes sizes
  let limit ← Word.checkedSub data.size (lastSize sizes)
  walk key sizes limit 0 ⟨data, layout.ends sizes⟩

end RadixSort.Cycle
