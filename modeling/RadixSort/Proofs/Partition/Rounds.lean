import RadixSort.Proofs.Partition.Cycle

/-!
# The rounds of a partition in place

A partition in place goes round once for each bucket that it completes. Every round begins in
the first slot of a bucket that is not empty, ends with that bucket filled by its own elements
and goes on behind it. Earlier rounds may have filled a bucket before its turn comes; its
cursor is then at its first slot, and its own round moves nothing.
-/
namespace RadixSort.Cycle

open Zones

variable {α : Type} {radix : Nat} {key : α → Fin radix}

/-- The states of a partition between its rounds, with the slot where the next one begins. -/
inductive Reached (key : α → Fin radix) (sizes : Vector Nat radix) (data : Array α) :
    Nat → Board α radix → Prop where
  | opened : Reached key sizes data 0 ⟨data, (Layout.ofSizes sizes).ends sizes⟩
  | turned {first next : Nat} {board after : Board α radix}
      (reached : Reached key sizes data first board) (before : first < data.size - lastSize sizes)
      (ran : turn key sizes first board = .ok (next, after)) : Reached key sizes data next after

/-- A round that completes a bucket, from the slot and the state where it begins. -/
structure Round (key : α → Fin radix) (sizes : Vector Nat radix) (first : Nat)
    (board : Board α radix) (bucket : Fin radix) (turned : Board α radix) : Prop where
  positive : 0 < sizes.get bucket
  begins : first = (sizes.toList.take bucket).sum
  ran : turn key sizes first board = .ok (first + sizes.get bucket, turned)
  filled : ∀ slot, first ≤ slot → slot < first + sizes.get bucket →
    ∃ x, turned.data[slot]? = some x ∧ key x = bucket
  still : board.cursors.get bucket = first → turned.data = board.data

/-- Sizes that count the elements of each bucket are the histogram. -/
theorem eq_histogram {sizes : Vector Nat radix} {elements : List α}
    (counted : ∀ bucket, sizes.get bucket = elements.countP (key · = bucket)) :
    sizes = histogram key elements := by
  apply Vector.ext
  intro bucket inside
  exact (counted ⟨bucket, inside⟩).trans (get_histogram key elements ⟨bucket, inside⟩).symm

/-- Between rounds, the cursors of the buckets still to come are the marks of filled zones. -/
theorem Reached.resting {data : Array α} {first : Nat} {board : Board α radix}
    (fits : data.size < Word.bound)
    (reached : Reached key (histogram key data.toList) data first board) :
    ∃ mark, Resting key data.toList first board mark := by
  induction reached with
  | opened => exact ⟨_, resting_initially key data⟩
  | turned _ before ran ih =>
    obtain ⟨mark, resting⟩ := ih
    obtain ⟨turned, after, bucket, turning, closed, -⟩ :=
      turn_exact fits resting (Nat.lt_of_lt_of_le before (Nat.sub_le _ _))
    obtain ⟨rfl, rfl⟩ := Prod.mk.inj (Except.ok.inj (turning.symm.trans ran))
    exact ⟨after, closed.resting⟩

/-- Behind a round, every slot of the bucket that it completed holds an element of it. -/
theorem holds_of_closed {input : List α} {first : Nat} {board : Board α radix} {bucket : Fin radix}
    {mark : Fin radix → Nat} (closed : Closed key input first board bucket mark) {slot : Nat}
    (low : first ≤ slot) (high : slot < start key input (bucket + 1)) :
    ∃ x, board.data[slot]? = some x ∧ key x = bucket := by
  have size : board.data.size = input.length := by
    simpa using closed.filled.perm.length_eq
  have inside : slot < board.data.size :=
    size ▸ Nat.lt_of_lt_of_le high (start_le_length key input _)
  have found : board.data[slot]? = some board.data[slot] := Array.getElem?_eq_getElem inside
  exact ⟨_, found, closed.filled.own bucket slot _ (closed.complete ▸ low) high
    (by rw [Array.getElem?_toList]; exact found)⟩

/-- Wherever a partition is between rounds, its next round completes a bucket. -/
theorem Reached.round {data : Array α} {first : Nat} {board : Board α radix}
    (fits : data.size < Word.bound)
    (reached : Reached key (histogram key data.toList) data first board)
    (before : first < data.size - lastSize (histogram key data.toList)) :
    ∃ bucket turned, Round key (histogram key data.toList) first board bucket turned := by
  obtain ⟨mark, resting⟩ := reached.resting fits
  obtain ⟨turned, after, bucket, turning, closed, same⟩ :=
    turn_exact fits resting (Nat.lt_of_lt_of_le before (Nat.sub_le _ _))
  have begins := closed.begins
  have some := closed.some
  have ends : start key data.toList (bucket + 1) =
      first + (histogram key data.toList).get bucket := by
    rw [start_succ, begins, get_histogram]
  have cursor := resting.cursor bucket (Nat.le_of_eq begins.symm)
  exact ⟨bucket, turned, {
    positive := by omega
    begins := by rw [sum_take_histogram, begins]
    ran := ends ▸ turning
    filled := fun slot low high => holds_of_closed closed low (ends ▸ high)
    still := fun complete => same (cursor.symm.trans complete) }⟩

/-- Permuting data in place into buckets whose sizes count their elements succeeds, and so does
every round of it; the length of the data is a word, as it is in a machine. Each round begins in
the first slot of a bucket that is not empty, fills that bucket with its own elements and goes on
behind it, and it moves nothing if earlier rounds filled the bucket. The result has the same
elements, and those of a bucket are exactly in the slots behind all smaller buckets that its size
gives it. -/
theorem partition_rounds (key : α → Fin radix) (sizes : Vector Nat radix) (data : Array α)
    (fits : data.size < Word.bound)
    (counted : ∀ bucket, sizes.get bucket = data.toList.countP (key · = bucket)) :
    lastSize sizes ≤ data.size ∧
    (∀ first board, Reached key sizes data first board → first < data.size - lastSize sizes →
      ∃ bucket turned, Round key sizes first board bucket turned) ∧
    ∃ permuted, partition key sizes data = .ok permuted ∧ permuted.Perm data ∧
      ∀ (bucket : Fin radix) (slot : Nat),
        (∃ x, permuted[slot]? = some x ∧ key x = bucket) ↔
          (sizes.toList.take bucket).sum ≤ slot ∧
            slot < (sizes.toList.take bucket).sum + sizes.get bucket := by
  obtain rfl := eq_histogram counted
  refine ⟨lastSize_le key data.toList, fun first board reached => reached.round fits, ?_⟩
  obtain ⟨permuted, ran, perm, placed⟩ := partition_in_zone key data fits
  refine ⟨permuted, ran, Array.perm_iff_toList_perm.mpr perm, fun bucket slot => ?_⟩
  rw [sum_take_histogram, get_histogram, ← start_succ]
  constructor
  · rintro ⟨x, found, rfl⟩
    exact placed slot x (by rw [Array.getElem?_toList]; exact found)
  · rintro ⟨low, high⟩
    have size : permuted.size = data.toList.length := by simpa using perm.length_eq
    have inside : slot < permuted.size :=
      size ▸ Nat.lt_of_lt_of_le high (start_le_length key data.toList _)
    have found : permuted[slot]? = some permuted[slot] := Array.getElem?_eq_getElem inside
    obtain ⟨ownLow, ownHigh⟩ := placed slot _ (by rw [Array.getElem?_toList]; exact found)
    exact ⟨_, found, zone_unique ownLow ownHigh low high⟩

/-- The first round over these three fills the bucket of the second slot too. Its own round finds
its cursor there and leaves the elements as they are. -/
theorem partition_rounds_filled :
    #[(1 : Fin 3), 0, 2].size < Word.bound ∧
    (∀ bucket, #v[1, 1, 1].get bucket = #[(1 : Fin 3), 0, 2].toList.countP (id · = bucket)) ∧
    ∃ board : Board (Fin 3) 3, Reached id #v[1, 1, 1] #[1, 0, 2] 1 board ∧
      board.cursors.get 1 = 1 ∧ ∃ turned, turn id #v[1, 1, 1] 1 board = .ok (2, turned) ∧
        turned.data = board.data := by
  have counted : ∀ bucket, #v[1, 1, 1].get bucket =
      #[(1 : Fin 3), 0, 2].toList.countP (id · = bucket) := by decide
  have first : turn id #v[1, 1, 1] 0 ⟨#[(1 : Fin 3), 0, 2],
      (Layout.ofSizes #v[1, 1, 1]).ends #v[1, 1, 1]⟩ = .ok (1, ⟨#[0, 1, 2], #v[0, 1, 3]⟩) := by
    with_unfolding_all rfl
  have reached : Reached id #v[1, 1, 1] #[1, 0, 2] 1 ⟨#[0, 1, 2], #v[0, 1, 3]⟩ :=
    .turned .opened (by decide) first
  have second : ∀ bucket : Fin 3, 1 = (#v[1, 1, 1].toList.take bucket).sum → bucket = 1 := by
    decide
  obtain ⟨bucket, turned, round⟩ :=
    (partition_rounds id #v[1, 1, 1] #[1, 0, 2] (by decide) counted).2.1 1 _ reached (by decide)
  obtain rfl := second bucket round.begins
  exact ⟨by decide, counted, _, reached, rfl, turned, round.ran, round.still rfl⟩

end RadixSort.Cycle
