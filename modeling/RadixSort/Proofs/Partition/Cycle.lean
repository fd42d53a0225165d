import RadixSort.Partition.Cycle
import RadixSort.Proofs.Partition.Zones
import RadixSort.Proofs.Partition.Scatter
import RadixSort.Proofs.Count.Checked
import Mathlib.Algebra.GroupWithZero.Nat
import Mathlib.Data.List.Induction
import Mathlib.Data.List.GetD

/-!
# The partition in place sorts by the key

While an element is lifted out of the slot where a cycle began, the data with that
element put back into the slot is a rearrangement of the input, and the cursors of all
buckets that are not complete are the marks of filled zones. The lifted element has
room in its zone, so no cursor ever falls below the start of one, and the slot it is
sent to is the first slot of the cycle or lies behind it.

A bucket may have been completed by earlier cycles when its turn comes. Its cursor is
then at its first slot; the element there is put down where it was found.
-/
namespace RadixSort.Cycle

open Zones

variable {α : Type} {radix : Nat} {key : α → Fin radix} {input : List α}

/-- The state of a cycle that began at `first` and holds an element. -/
structure Lifting (key : α → Fin radix) (input : List α) (first : Nat) (lifted : α)
    (board : Board α radix) (mark : Fin radix → Nat) : Prop where
  filled : Filled key input (board.data.toList.set first lifted) mark
  valid : first < board.data.size
  cursor : ∀ bucket : Fin radix, first ≤ start key input bucket →
    board.cursors.get bucket = mark bucket
  done : ∀ bucket : Fin radix, start key input bucket < first → mark bucket = start key input bucket
  idle : Idle key input mark first

/-- Where the lifted element belongs there is room, and the cursor says where. -/
theorem Lifting.target {first : Nat} {lifted : α} {board : Board α radix} {mark : Fin radix → Nat}
    (lifting : Lifting key input first lifted board mark) :
    first ≤ start key input (key lifted) ∧ start key input (key lifted) < mark (key lifted) ∧
      board.cursors.get (key lifted) = mark (key lifted) := by
  have held : (board.data.toList.set first lifted)[first]? = some lifted := by
    simp [lifting.valid]
  have room := lifting.filled.room held (lifting.idle (key lifted))
  have pending : first ≤ start key input (key lifted) := by
    by_contra early
    have done := lifting.done (key lifted) (by omega)
    omega
  exact ⟨pending, room, lifting.cursor _ pending⟩

/-- Putting the lifted element before its cursor and lifting the one found there keeps
the state of the cycle. -/
theorem Lifting.advance {first slot : Nat} {lifted displaced : α} {board : Board α radix}
    {mark : Fin radix → Nat} (lifting : Lifting key input first lifted board mark)
    (last : board.cursors.get (key lifted) = slot + 1) (behind : first < slot)
    (found : board.data[slot]? = some displaced) :
    Lifting key input first displaced
      ⟨board.data.setIfInBounds slot lifted, assign board.cursors (key lifted) slot⟩
      (Function.update mark (key lifted) slot) := by
  obtain ⟨pending, room, cursor⟩ := lifting.target
  have mark_eq : mark (key lifted) = slot + 1 := cursor.symm.trans last
  have within : start key input (key lifted) ≤ slot := by omega
  have held : (board.data.toList.set first lifted)[first]? = some lifted := by
    simp [lifting.valid]
  have there : (board.data.toList.set first lifted)[slot]? = some displaced := by
    rw [List.getElem?_set_ne (Nat.ne_of_lt behind), Array.getElem?_toList]
    exact found
  have inside : slot < board.data.size := (Array.getElem?_eq_some_iff.mp found).1
  have exchanged := lifting.filled.exchange held there lifting.idle
    (lifting.filled.idle_before mark_eq within)
  have same : ((board.data.toList.set first lifted).set slot lifted).set first displaced =
      (board.data.setIfInBounds slot lifted).toList.set first displaced := by
    rw [Array.toList_setIfInBounds, List.set_comm _ _ (Nat.ne_of_lt behind), List.set_set]
  rw [same] at exchanged
  refine ⟨exchanged.lower ?_ mark_eq within, by simpa using lifting.valid, ?_, ?_, ?_⟩
  · rw [List.getElem?_set_ne (Nat.ne_of_lt behind)]
    simp [inside]
  · intro bucket open_bucket
    by_cases own : bucket = key lifted
    · subst own
      rw [Function.update_self, get_assign_self]
    · rw [Function.update_of_ne own, get_assign_of_ne _ (Ne.symm own)]
      exact lifting.cursor bucket open_bucket
  · intro bucket early
    have other : bucket ≠ key lifted := by
      rintro rfl
      omega
    rw [Function.update_of_ne other]
    exact lifting.done bucket early
  · intro bucket filled
    by_cases own : bucket = key lifted
    · subst own
      rw [Function.update_self] at filled
      omega
    · rw [Function.update_of_ne own] at filled
      exact lifting.idle bucket filled

/-- The state behind a cycle: the data is complete again, the bucket that begins at the
slot of the cycle has been filled, and later buckets are as their cursors say. -/
structure Closed (key : α → Fin radix) (input : List α) (first : Nat) (board : Board α radix)
    (bucket : Fin radix) (mark : Fin radix → Nat) : Prop where
  filled : Filled key input board.data.toList mark
  begins : start key input bucket = first
  some : first < start key input (bucket + 1)
  complete : mark bucket = first
  done : ∀ other : Fin radix, start key input other < first → mark other = start key input other
  cursor : ∀ other : Fin radix, start key input (bucket + 1) ≤ start key input other →
    board.cursors.get other = mark other

/-- A cycle closes without a fault, and completes the bucket in whose first slot it
began. -/
theorem close_exact {first : Nat} {lifted : α} {board : Board α radix} {mark : Fin radix → Nat}
    (lifting : Lifting key input first lifted board mark) :
    ∃ closed bucket after, close key first lifted board = .ok (closed, bucket) ∧
      Closed key input first closed bucket after := by
  fun_induction close key first lifted board generalizing mark with
  | case1 lifted board target =>
    rename_i exhausted
    obtain ⟨-, room, cursor⟩ := lifting.target
    have zero : board.cursors.get (key lifted) = 0 := exhausted
    omega
  | case2 lifted board target exhausted slot lower cursors low =>
    obtain ⟨pending, room, cursor⟩ := lifting.target
    have slot_eq : slot = mark (key lifted) - 1 := by rw [← cursor]
    have begins : start key input (key lifted) = first := by omega
    have top := lifting.filled.high (key lifted)
    have held : (board.data.toList.set first lifted)[first]? = some lifted := by
      simp [lifting.valid]
    have occupied : first < start key input (key lifted + 1) := by omega
    refine ⟨_, _, Function.update mark (key lifted) first, rfl, ?_⟩
    refine ⟨?_, begins, occupied, Function.update_self .., ?_, ?_⟩
    · rw [Array.toList_setIfInBounds]
      exact lifting.filled.lower held (by omega) (by omega)
    · intro other early
      have different : other ≠ key lifted := by
        rintro rfl
        omega
      rw [Function.update_of_ne different]
      exact lifting.done other early
    · intro other late
      have late : start key input (key lifted + 1) ≤ start key input other := late
      have different : other ≠ key lifted := by
        rintro rfl
        omega
      rw [Function.update_of_ne different]
      change (assign board.cursors (key lifted) slot).get other = mark other
      rw [get_assign_of_ne _ (Ne.symm different)]
      exact lifting.cursor other (by omega)
  | case3 lifted board target exhausted slot lower low =>
    rename_i outside
    exact absurd lifting.valid outside
  | case4 lifted board target exhausted slot lower cursors high displaced found =>
    rename_i ih
    have last : board.cursors.get (key lifted) = slot + 1 := by
      have positive : board.cursors.get (key lifted) ≠ 0 := exhausted
      have slot_eq : slot = board.cursors.get (key lifted) - 1 := rfl
      omega
    exact ih (lifting.advance last (by omega) found)
  | case5 lifted board target exhausted slot lower high =>
    rename_i missing
    obtain ⟨-, room, cursor⟩ := lifting.target
    have slot_eq : slot = mark (key lifted) - 1 := by rw [← cursor]
    have size : board.data.size = input.length := by
      have length := lifting.filled.perm.length_eq
      rwa [List.length_set, Array.length_toList] at length
    have top := Nat.le_trans (lifting.filled.high (key lifted))
      (start_le_length key input _)
    have outside := Array.getElem?_eq_none_iff.mp missing
    omega

/-- The state between two cycles, of which the next begins at `first`. -/
structure Resting (key : α → Fin radix) (input : List α) (first : Nat) (board : Board α radix)
    (mark : Fin radix → Nat) : Prop where
  filled : Filled key input board.data.toList mark
  cursor : ∀ bucket : Fin radix, first ≤ start key input bucket →
    board.cursors.get bucket = mark bucket
  done : ∀ bucket : Fin radix, start key input bucket < first → mark bucket = start key input bucket
  boundary : ∀ bucket : Fin radix, start key input bucket < first →
    start key input (bucket + 1) ≤ first
  fresh : first = 0 → ∀ bucket : Fin radix, mark bucket = start key input (bucket + 1)

/-- Behind a cycle, the next one begins behind the bucket that it completed. -/
theorem Closed.resting {first : Nat} {board : Board α radix} {bucket : Fin radix}
    {mark : Fin radix → Nat} (closed : Closed key input first board bucket mark) :
    Resting key input (start key input (bucket + 1)) board mark where
  filled := closed.filled
  cursor := closed.cursor
  done other early := by
    have low := closed.filled.low other
    have high := closed.filled.high other
    rcases Nat.lt_trichotomy other.val bucket.val with before | same | after
    · have ordered := start_mono key input
        (by omega : other.val + 1 ≤ bucket.val)
      have begins := closed.begins
      by_cases earlier : start key input other < first
      · exact closed.done other earlier
      · omega
    · rw [Fin.ext same, closed.complete, closed.begins]
    · have ordered := start_mono key input
        (by omega : bucket.val + 1 ≤ other.val)
      omega
  boundary other early := by
    apply start_mono
    by_contra after
    have ordered := start_mono key input
      (by omega : bucket.val + 1 ≤ other.val)
    omega
  fresh zero := by
    have := closed.some
    omega

/-- A cycle of a bucket that is complete already puts the element down where it was
found. -/
theorem Resting.close_complete {first : Nat} {board : Board α radix} {mark : Fin radix → Nat}
    (resting : Resting key input first board mark) {lifted : α} {home : Fin radix}
    (found : board.data[first]? = some lifted) (begins : start key input home = first)
    (some : first < start key input (home + 1)) (complete : mark home = first) :
    ∃ closed, close key first lifted board = .ok (closed, home) ∧
      Closed key input first closed home mark ∧ closed.data = board.data := by
  have own : key lifted = home := resting.filled.own home first lifted (Nat.le_of_eq complete)
    some (by rw [Array.getElem?_toList]; exact found)
  subst own
  have cursor : board.cursors.get (key lifted) = first :=
    (resting.cursor _ (Nat.le_of_eq begins.symm)).trans complete
  have positive : first ≠ 0 := by
    intro zero
    have := resting.fresh zero (key lifted)
    omega
  have inside : first < board.data.size := (Array.getElem?_eq_some_iff.mp found).1
  have same : board.data.setIfInBounds first lifted = board.data := by
    apply Array.ext_getElem?
    intro slot
    rw [Array.getElem?_setIfInBounds]
    split
    · rename_i equal
      rw [← equal, found]
    · rfl
  refine ⟨⟨board.data.setIfInBounds first lifted, assign board.cursors (key lifted) (first - 1)⟩,
    ?_, ?_, same⟩
  · have low : first - 1 ≤ first := Nat.sub_le _ _
    rw [close]
    simp only [cursor, positive, dite_false, low, if_true, inside]
  · refine ⟨?_, begins, some, complete, resting.done, ?_⟩
    · change Filled key input (board.data.setIfInBounds first lifted).toList mark
      rw [same]
      exact resting.filled
    · intro other late
      have different : key lifted ≠ other := by
        rintro rfl
        omega
      change (assign board.cursors (key lifted) (first - 1)).get other = mark other
      rw [get_assign_of_ne _ different]
      exact resting.cursor other (by omega)

/-- One cycle completes the bucket that begins where the cycle begins. If that bucket is
complete already, the cycle moves nothing. -/
theorem turn_exact {first : Nat} {board : Board α radix} {mark : Fin radix → Nat}
    (fits : input.length < Word.bound) (resting : Resting key input first board mark)
    (inside : first < input.length) :
    ∃ turned after, ∃ bucket : Fin radix,
      turn key (histogram key input) first board = .ok (start key input (bucket + 1), turned) ∧
      Closed key input first turned bucket after ∧
      (mark bucket = first → turned.data = board.data) := by
  obtain ⟨home, low, high⟩ := exists_zone key inside
  have begins : start key input home = first := by
    by_contra different
    have := resting.boundary home (by omega)
    omega
  have size : board.data.size = input.length := by
    simpa using resting.filled.perm.length_eq
  obtain ⟨lifted, found⟩ : ∃ lifted, board.data[first]? = some lifted :=
    ⟨_, Array.getElem?_eq_getElem (by omega)⟩
  have closes : ∃ closed bucket after, close key first lifted board = .ok (closed, bucket) ∧
      Closed key input first closed bucket after ∧
      (mark bucket = first → closed.data = board.data) := by
    by_cases complete : mark home = first
    · obtain ⟨closed, closing, state, same⟩ := resting.close_complete found begins high complete
      exact ⟨closed, home, mark, closing, state, fun _ => same⟩
    · have lifting : Lifting key input first lifted board mark := by
        refine ⟨?_, by omega, resting.cursor, resting.done, ?_⟩
        · have kept : board.data.toList.set first lifted = board.data.toList := by
            obtain ⟨valid, rfl⟩ := Array.getElem?_eq_some_iff.mp found
            rw [← Array.getElem_toList, List.set_getElem_self]
          rw [kept]
          exact resting.filled
        · rintro bucket ⟨markLow, zoneHigh⟩
          have same := zone_unique (Nat.le_trans (resting.filled.low bucket) markLow) zoneHigh low
            high
          subst same
          have := resting.filled.low bucket
          omega
      obtain ⟨closed, bucket, after, closing, state⟩ := close_exact lifting
      have same : bucket = home := zone_unique (Nat.le_of_eq state.begins) state.some low high
      exact ⟨closed, bucket, after, closing, state, fun marked => absurd (same ▸ marked) complete⟩
  obtain ⟨closed, bucket, after, closing, state, same⟩ := closes
  refine ⟨closed, after, bucket, ?_, state, same⟩
  have next : first + (histogram key input).get bucket = start key input (bucket + 1) := by
    rw [get_histogram, start_succ, state.begins]
  have word : Word.checked (first + (histogram key input).get bucket) =
      .ok (start key input (bucket + 1)) :=
    Word.checked_eq_ok_iff.mpr
      ⟨next ▸ Nat.lt_of_le_of_lt (start_le_length key input _) fits, next.symm⟩
  rw [turn, found]
  exact bind_eq_ok.mpr ⟨_, closing, bind_eq_ok.mpr ⟨_, word, rfl⟩⟩

/-- Running cycles up to a limit fills the zones of all buckets that begin before it.

Follow the recursion of the walk: each cycle goes on from a state between cycles, and
the walk ends in one that is at the limit or behind it. -/
theorem walk_exact (limit : Nat) {first : Nat} {board : Board α radix} {mark : Fin radix → Nat}
    (fits : input.length < Word.bound) (resting : Resting key input first board mark)
    (bounded : limit ≤ input.length) :
    ∃ data after, walk key (histogram key input) limit first board = .ok data ∧
      Filled key input data.toList after ∧
      ∀ bucket : Fin radix, start key input bucket < limit →
        after bucket = start key input bucket := by
  fun_induction walk key (histogram key input) limit first board generalizing mark with
  | case1 first board before fault failed =>
    obtain ⟨turned, after, bucket, turning, -⟩ := turn_exact fits resting (by omega)
    rw [turning] at failed
    simp at failed
  | case2 first board before next following turned lighter ih =>
    obtain ⟨other, after, bucket, turning, state, -⟩ := turn_exact fits resting (by omega)
    rw [turning] at turned
    obtain ⟨rfl, rfl⟩ := Prod.mk.inj (Except.ok.inj turned)
    exact ih state.resting
  | case3 first board reached =>
    exact ⟨board.data, mark, rfl, resting.filled, fun bucket early =>
      resting.done bucket (by omega)⟩

/-- Before a list of sizes is used up, the size found last is that of its last entry
that is not zero. -/
theorem last_size (sizes : List Nat) :
    let last := sizes.foldl (fun last size => if 0 < size then size else last) 0
    last ≤ sizes.sum ∧ ∀ first second, first < second → 0 < sizes.getD first 0 →
      0 < sizes.getD second 0 → (sizes.take first).sum < sizes.sum - last := by
  induction sizes using List.reverseRecOn with
  | nil => simp
  | append_singleton sizes size ih =>
    obtain ⟨bounded, before⟩ := ih
    simp only [List.foldl_append, List.foldl_cons, List.foldl_nil, List.sum_append,
      List.sum_singleton]
    have part (first : Nat) (inside : first < sizes.length) :
        (sizes.take first).sum + sizes.getD first 0 ≤ sizes.sum := by
      have whole := congrArg List.sum (List.take_append_drop (first + 1) sizes)
      rw [List.sum_append, List.take_add_one, List.sum_append] at whole
      rw [List.getD_eq_getElem?_getD, List.getElem?_eq_getElem inside] at *
      simp only [Option.toList_some, List.sum_singleton, Option.getD_some] at whole ⊢
      omega
    have inside (index : Nat) (some : 0 < (sizes ++ [size]).getD index 0)
        (earlier : index < sizes.length) : 0 < sizes.getD index 0 := by
      rwa [List.getD_append _ _ _ _ earlier] at some
    have bounds (index : Nat) (some : 0 < (sizes ++ [size]).getD index 0) :
        index < sizes.length + 1 := by
      by_contra outside
      rw [List.getD_eq_default _ _ (by simp; omega)] at some
      omega
    by_cases positive : 0 < size
    · rw [if_pos positive]
      refine ⟨by omega, ?_⟩
      intro first second ordered firstSome secondSome
      have valid : first < sizes.length := by have := bounds second secondSome; omega
      have := part first valid
      have := inside first firstSome valid
      rw [List.take_append_of_le_length (Nat.le_of_lt valid)]
      omega
    · rw [if_neg positive]
      refine ⟨by omega, ?_⟩
      intro first second ordered firstSome secondSome
      have valid : second < sizes.length := by
        have bound := bounds second secondSome
        by_contra outside
        obtain rfl : second = sizes.length := by omega
        rw [List.getD_append_right _ _ _ _ (Nat.le_refl _), Nat.sub_self] at secondSome
        simp at secondSome
        omega
      have := before first second ordered (inside first firstSome (by omega))
        (inside second secondSome valid)
      rw [List.take_append_of_le_length (by omega)]
      omega

/-- The running totals of a histogram are the starts of the zones. -/
theorem sum_take_histogram (bucket : Nat) :
    ((histogram key input).toList.take bucket).sum = start key input bucket := by
  have lengths : (histogram key input).toList = (Recursion.group key input).map List.length := by
    have measured := Layout.measures_group key input
    apply List.ext_getElem
    · rw [Vector.length_toList, List.length_map, measured.count]
    · intro index firstValid secondValid
      rw [Vector.getElem_toList, List.getElem_map]
      exact (measured.length index (by simpa using firstValid) _
        (List.getElem?_eq_getElem _)).symm
  rw [lengths, ← List.map_take, start, Blocks.offset, List.length_flatten]

/-- Of two buckets that are not empty, the first begins before the last one. -/
theorem start_lt_limit {first second : Fin radix} (ordered : first < second)
    (firstSome : start key input first < start key input (first + 1))
    (secondSome : start key input second < start key input (second + 1)) :
    start key input first < input.length - lastSize (histogram key input) := by
  have sizes := last_size (histogram key input).toList
  have total : (histogram key input).toList.sum = input.length := by
    rw [← start_radix key input, ← sum_take_histogram,
      List.take_of_length_le (by rw [Vector.length_toList])]
  have entry (bucket : Fin radix) (some : start key input bucket < start key input (bucket + 1)) :
      0 < (histogram key input).toList.getD bucket 0 := by
    have counted : (histogram key input)[bucket.val] = _ := get_histogram key input bucket
    rw [start_succ] at some
    rw [List.getD_eq_getElem _ _ (by simp), Vector.getElem_toList, counted]
    omega
  have before := sizes.2 first second ordered (entry first firstSome) (entry second secondSome)
  rw [sum_take_histogram, total] at before
  simpa [lastSize] using before

/-- The size of the last bucket is no more than the length of the list. -/
theorem lastSize_le (key : α → Fin radix) (input : List α) :
    lastSize (histogram key input) ≤ input.length := by
  have bounded := (last_size (histogram key input).toList).1
  rw [← start_radix key input, ← sum_take_histogram,
    List.take_of_length_le (by rw [Vector.length_toList])]
  simpa [lastSize] using bounded

/-- Before the first cycle every cursor is at the end of the zone of its bucket. -/
theorem resting_initially (key : α → Fin radix) (data : Array α) :
    Resting key data.toList 0
      ⟨data, (Layout.ofSizes (histogram key data.toList)).ends (histogram key data.toList)⟩
      fun bucket => start key data.toList (bucket + 1) where
  filled := filled_initially (List.Perm.refl _)
  cursor bucket _ := Layout.ends_ofSizes (Layout.measures_group key data.toList) bucket bucket.isLt
  done _ early := absurd early (Nat.not_lt_zero _)
  boundary _ early := absurd early (Nat.not_lt_zero _)
  fresh _ _ := rfl

/-- Once the zones of all buckets that begin before the limit of the walk are filled, all zones
are but one: only the last bucket that is not empty may begin at the limit or behind it. -/
theorem complete_but_last {data : List α} {mark : Fin radix → Nat}
    (filled : Filled key input data mark)
    (done : ∀ bucket : Fin radix,
      start key input bucket < input.length - lastSize (histogram key input) →
        mark bucket = start key input bucket) :
    ∃ last : Option (Fin radix), ∀ bucket, some bucket ≠ last →
      mark bucket = start key input bucket := by
  by_cases late : ∃ bucket : Fin radix,
      input.length - lastSize (histogram key input) ≤ start key input bucket ∧
        start key input bucket < start key input (bucket + 1)
  · obtain ⟨last, behind, lastSome⟩ := late
    refine ⟨some last, fun bucket different => ?_⟩
    have low := filled.low bucket
    have high := filled.high bucket
    by_cases empty : start key input bucket < start key input (bucket + 1)
    · apply done
      rcases Nat.lt_trichotomy bucket.val last.val with before | same | after
      · exact start_lt_limit before empty lastSome
      · exact absurd (congrArg some (Fin.ext same)) different
      · have early := start_lt_limit after lastSome empty
        omega
    · omega
  · refine ⟨none, fun bucket _ => ?_⟩
    have low := filled.low bucket
    have high := filled.high bucket
    by_cases empty : start key input bucket < start key input (bucket + 1)
    · exact done bucket (by
        by_contra behind
        exact late ⟨bucket, by omega, empty⟩)
    · omega

/-- Permuting a list in place into the buckets of its histogram ends without a fault,
and the result is the same elements, each in the zone of its bucket. -/
theorem partition_in_zone (key : α → Fin radix) (data : Array α)
    (fits : data.size < Word.bound) :
    ∃ permuted, partition key (histogram key data.toList) data = .ok permuted ∧
      permuted.toList.Perm data.toList ∧
      ∀ (slot : Nat) (x : α), permuted.toList[slot]? = some x →
        start key data.toList (key x) ≤ slot ∧ slot < start key data.toList (key x + 1) := by
  obtain ⟨permuted, mark, walked, filled, done⟩ :=
    walk_exact (data.toList.length - lastSize (histogram key data.toList)) fits
      (resting_initially key data) (Nat.sub_le _ _)
  obtain ⟨layout, laid, rfl, -⟩ :=
    (Layout.checkedOfSizes_histogram key data.toList (.inl fits)).exists_ok fun _ => id
  have limit : Word.checkedSub data.size (lastSize (histogram key data.toList)) =
      .ok (data.toList.length - lastSize (histogram key data.toList)) :=
    Word.checkedSub_eq_ok_iff.mpr ⟨lastSize_le key data.toList, rfl⟩
  refine ⟨permuted, bind_eq_ok.mpr ⟨_, laid, bind_eq_ok.mpr ⟨_, limit, walked⟩⟩,
    filled.perm, ?_⟩
  obtain ⟨last, others⟩ := complete_but_last filled done
  intro slot x found
  exact filled.in_zone (last.getD (key x)) (fun bucket different => others bucket (by
    rintro rfl
    exact different rfl)) found

/-- Permuting a list in place into the buckets of its histogram ends without a fault,
and the result is the same elements sorted by the key. -/
theorem partition_exact (key : α → Fin radix) (data : Array α)
    (fits : data.size < Word.bound) :
    ∃ permuted, partition key (histogram key data.toList) data = .ok permuted ∧
      permuted.toList.Perm data.toList ∧
      permuted.toList.Pairwise fun x y => key x ≤ key y := by
  obtain ⟨permuted, ran, perm, placed⟩ := partition_in_zone key data fits
  exact ⟨permuted, ran, perm, sorted_of_in_zone placed⟩

/-- Only data whose length is a word is permuted in place; longer data is an overflow. -/
theorem partition_ensures {excused : Fault → Prop} (key : α → Fin radix) (data : Array α)
    (fits : data.size < Word.bound ∨ excused .arithmeticOverflow) :
    Ensures excused (partition key (histogram key data.toList) data) fun permuted =>
      permuted.toList.Perm data.toList ∧
        permuted.toList.Pairwise fun x y => key x ≤ key y := by
  by_cases small : data.size < Word.bound
  · obtain ⟨permuted, ran, exact⟩ := partition_exact key data small
    exact .of_eq_ok ran exact
  · refine (Layout.checkedOfSizes_histogram key data.toList fits).bind ?_
    rintro layout ⟨-, word⟩
    exact absurd word small

end RadixSort.Cycle
