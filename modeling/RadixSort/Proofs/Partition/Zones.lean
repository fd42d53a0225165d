import RadixSort.Proofs.Count.Layout
import Mathlib.Logic.Function.Basic

/-!
# Zones of a partition

The zone of a bucket is the run of slots that the bucket fills once a list has been
partitioned. Partitioning in place fills each zone from its end downwards, down to a
mark. As many elements belong to a bucket as its zone has slots, so an element found
outside the filled part of its zone always has room in it; and if all zones are filled
the list is sorted by the key.
-/
namespace RadixSort.Zones

open Recursion

variable {α : Type} {radix : Nat} {key : α → Fin radix} {input : List α}

/-- The first slot of the zone of a bucket. -/
def start (key : α → Fin radix) (input : List α) (bucket : Nat) : Nat :=
  Blocks.offset (group key input) bucket

/-- A zone has one slot for each element of its bucket. -/
theorem start_succ (key : α → Fin radix) (input : List α) (bucket : Fin radix) :
    start key input (bucket + 1) = start key input bucket + input.countP (key · = bucket) := by
  have here : (group key input)[bucket.val]? = some (input.filter (key · = bucket)) := by
    simp [group]
  rw [start, start, Blocks.offset_succ here, List.countP_eq_length_filter]

theorem start_mono (key : α → Fin radix) (input : List α) {first second : Nat}
    (ordered : first ≤ second) :
    start key input first ≤ start key input second :=
  Blocks.offset_mono _ ordered

/-- The zones end where the list ends. -/
theorem start_radix (key : α → Fin radix) (input : List α) :
    start key input radix = input.length := by
  rw [start, Blocks.offset_of_length_le (by simp [group]), group, ← List.flatMap_def,
    (Classes.flatMap_filter_perm input).length_eq]

/-- The elements up to a bucket are those before it and those in it. -/
theorem countP_lt_succ (key : α → Fin radix) (elements : List α) (bucket : Fin radix) :
    elements.countP (fun x => (key x).val < bucket.val + 1) =
      elements.countP (fun x => (key x).val < bucket.val) + elements.countP (key · = bucket) := by
  induction elements with
  | nil => rfl
  | cons x rest ih =>
    simp only [List.countP_cons, ih, decide_eq_true_eq, Fin.ext_iff]
    split <;> split <;> split <;> omega

/-- A zone starts behind the elements of all smaller buckets. -/
theorem start_eq_countP (key : α → Fin radix) (input : List α) {bucket : Nat}
    (inside : bucket ≤ radix) :
    start key input bucket = input.countP fun x => (key x).val < bucket := by
  induction bucket with
  | zero =>
    rw [start, Blocks.offset_zero]
    exact (List.countP_eq_zero.mpr (by simp)).symm
  | succ bucket ih =>
    rw [start_succ key input ⟨bucket, inside⟩, ih (Nat.le_of_succ_le inside)]
    exact (countP_lt_succ key input ⟨bucket, inside⟩).symm

theorem start_le_length (key : α → Fin radix) (input : List α) (bucket : Nat) :
    start key input bucket ≤ input.length := by
  rcases Nat.lt_or_ge radix bucket with behind | within
  · rw [start, Blocks.offset_of_length_le (by simp [group]; omega), group, ← List.flatMap_def,
      (Classes.flatMap_filter_perm input).length_eq]
  · rw [← start_radix key input]
    exact start_mono key input within

/-- Every slot lies in the zone of some bucket. -/
theorem exists_zone (key : α → Fin radix) {slot : Nat} (inside : slot < input.length) :
    ∃ bucket : Fin radix, start key input bucket ≤ slot ∧ slot < start key input (bucket + 1) := by
  have length : (group key input).flatten.length = input.length := by
    rw [group, ← List.flatMap_def, (Classes.flatMap_filter_perm input).length_eq]
  obtain ⟨index, block, here, low, high⟩ := Blocks.exists_block (length ▸ inside)
  have valid : index < radix := by
    simpa [group] using (List.getElem?_eq_some_iff.mp here).1
  refine ⟨⟨index, valid⟩, low, ?_⟩
  rw [← Blocks.offset_succ here] at high
  exact high

/-- A slot lies in one zone only. -/
theorem zone_unique {slot : Nat} {first second : Fin radix}
    (firstLow : start key input first ≤ slot) (firstHigh : slot < start key input (first + 1))
    (secondLow : start key input second ≤ slot)
    (secondHigh : slot < start key input (second + 1)) : first = second := by
  apply Fin.ext
  rcases Nat.lt_trichotomy first.val second.val with before | same | behind
  · have := start_mono key input (by omega : first.val + 1 ≤ second.val)
    omega
  · exact same
  · have := start_mono key input (by omega : second.val + 1 ≤ first.val)
    omega

/-- Where the buckets of a list lie one after the other, the slots of a zone hold the elements
of its bucket and no others. -/
theorem key_eq_iff {slot : Nat} {x : α} (found : (group key input).flatten[slot]? = some x)
    (bucket : Fin radix) : key x = bucket ↔
      start key input bucket ≤ slot ∧ slot < start key input (bucket + 1) := by
  have inside := (List.getElem?_eq_some_iff.mp found).1
  rw [group, ← List.flatMap_def, (Classes.flatMap_filter_perm input).length_eq] at inside
  obtain ⟨own, low, high⟩ := exists_zone key inside
  have here : (group key input)[own.val]? = some (input.filter (key · = own)) := by
    simp [group]
  have place : slot - start key input own < (input.filter (key · = own)).length := by
    rw [start_succ, List.countP_eq_length_filter] at high
    omega
  have belongs : key x = own := by
    have aims := Blocks.getElem?_flatten here place
    have slotOf : Blocks.offset (group key input) own + (slot - start key input own) = slot :=
      Nat.add_sub_cancel' low
    rw [slotOf, found] at aims
    simpa using (List.mem_filter.mp (List.mem_of_getElem? aims.symm)).2
  constructor
  · rintro rfl
    rw [belongs]
    exact ⟨low, high⟩
  · rintro ⟨bucketLow, bucketHigh⟩
    rw [belongs]
    exact zone_unique low high bucketLow bucketHigh

/-- From its mark on, every zone holds elements of its own bucket. -/
structure Filled (key : α → Fin radix) (input data : List α) (mark : Fin radix → Nat) : Prop where
  perm : data.Perm input
  low : ∀ bucket : Fin radix, start key input bucket ≤ mark bucket
  high : ∀ bucket : Fin radix, mark bucket ≤ start key input (bucket + 1)
  own : ∀ (bucket : Fin radix) (slot : Nat) (x : α), mark bucket ≤ slot →
    slot < start key input (bucket + 1) → data[slot]? = some x → key x = bucket

/-- Nothing is filled while every mark is at the end of its zone. -/
theorem filled_initially {data : List α} (perm : data.Perm input) :
    Filled key input data fun bucket => start key input (bucket + 1) where
  perm := perm
  low _ := start_mono key input (Nat.le_succ _)
  high _ := Nat.le_refl _
  own _ _ _ low high _ := absurd low (Nat.not_le_of_lt high)

/-- A run of elements of one bucket and one more of that bucket outside the run are no
more than there are. -/
theorem run_lt_countP {data : List α} {bucket : Fin radix} {low high slot : Nat} {x : α}
    (ordered : low ≤ high) (inside : high ≤ data.length)
    (run : ∀ place y, low ≤ place → place < high → data[place]? = some y → key y = bucket)
    (found : data[slot]? = some x) (belongs : key x = bucket)
    (outside : ¬(low ≤ slot ∧ slot < high)) :
    high - low < data.countP (key · = bucket) := by
  have split : data = data.take low ++ ((data.drop low).take (high - low) ++ data.drop high) := by
    have rejoin : data.drop high = (data.drop low).drop (high - low) := by
      rw [List.drop_drop, Nat.add_sub_cancel' ordered]
    rw [rejoin, List.take_append_drop, List.take_append_drop]
  have middle : ((data.drop low).take (high - low)).countP (key · = bucket) = high - low := by
    rw [List.countP_eq_length.mpr]
    · rw [List.length_take, List.length_drop]
      omega
    · intro y member
      obtain ⟨place, here⟩ := List.mem_iff_getElem?.mp member
      have valid : place < high - low := by
        have := (List.getElem?_eq_some_iff.mp here).1
        rw [List.length_take] at this
        omega
      rw [List.getElem?_take_of_lt valid, List.getElem?_drop] at here
      simpa using run (low + place) y (Nat.le_add_right _ _) (by omega) here
  have counted := congrArg (List.countP (key · = bucket)) split
  rw [List.countP_append, List.countP_append, middle] at counted
  have extra : 0 < (data.take low).countP (key · = bucket) +
      (data.drop high).countP (key · = bucket) := by
    rcases Nat.lt_or_ge slot low with before | after
    · have member : x ∈ data.take low :=
        List.mem_iff_getElem?.mpr ⟨slot, by rw [List.getElem?_take_of_lt before]; exact found⟩
      have := List.countP_pos_iff (p := (key · = bucket)) |>.mpr
        ⟨x, member, by simpa using belongs⟩
      omega
    · have behind : high ≤ slot := by omega
      have member : x ∈ data.drop high :=
        List.mem_iff_getElem?.mpr ⟨slot - high, by
          rw [List.getElem?_drop, Nat.add_sub_cancel' behind]
          exact found⟩
      have := List.countP_pos_iff (p := (key · = bucket)) |>.mpr
        ⟨x, member, by simpa using belongs⟩
      omega
  omega

/-- An element outside the filled part of its zone has room in its zone. -/
theorem Filled.room {data : List α} {mark : Fin radix → Nat} (filled : Filled key input data mark)
    {slot : Nat} {x : α} (found : data[slot]? = some x)
    (outside : ¬(mark (key x) ≤ slot ∧ slot < start key input (key x + 1))) :
    start key input (key x) < mark (key x) := by
  have length := filled.perm.length_eq
  have run := run_lt_countP (filled.high (key x))
    (by rw [length]; exact start_le_length key input _) (filled.own (key x)) found rfl outside
  rw [filled.perm.countP_eq] at run
  have size := start_succ key input (key x)
  have low := filled.low (key x)
  omega

/-- A slot that is in the filled part of no zone. -/
def Idle (key : α → Fin radix) (input : List α) (mark : Fin radix → Nat) (slot : Nat) : Prop :=
  ∀ bucket : Fin radix, ¬(mark bucket ≤ slot ∧ slot < start key input (bucket + 1))

/-- The slot before a mark is in no filled part. -/
theorem Filled.idle_before {data : List α} {mark : Fin radix → Nat}
    (filled : Filled key input data mark) {bucket : Fin radix} {slot : Nat}
    (last : mark bucket = slot + 1) (within : start key input bucket ≤ slot) :
    Idle key input mark slot := by
  rintro other ⟨low, high⟩
  have top := filled.high bucket
  have same := zone_unique (Nat.le_trans (filled.low other) low) high within (by omega)
  subst same
  omega

/-- Elements at two slots outside the filled parts can be exchanged. -/
theorem Filled.exchange {data : List α} {mark : Fin radix → Nat}
    (filled : Filled key input data mark) {first second : Nat} {x y : α}
    (here : data[first]? = some x) (there : data[second]? = some y)
    (idle : Idle key input mark first) (other : Idle key input mark second) :
    Filled key input ((data.set second x).set first y) mark where
  perm := by
    obtain ⟨firstValid, rfl⟩ := List.getElem?_eq_some_iff.mp here
    obtain ⟨secondValid, rfl⟩ := List.getElem?_eq_some_iff.mp there
    exact (List.set_set_perm secondValid firstValid).trans filled.perm
  low := filled.low
  high := filled.high
  own bucket slot z low high found := by
    have notFirst : first ≠ slot := by
      rintro rfl
      exact idle bucket ⟨low, high⟩
    have notSecond : second ≠ slot := by
      rintro rfl
      exact other bucket ⟨low, high⟩
    rw [List.getElem?_set_ne notFirst, List.getElem?_set_ne notSecond] at found
    exact filled.own bucket slot z low high found

/-- A mark can be lowered by one onto an element of its bucket. -/
theorem Filled.lower {data : List α} {mark : Fin radix → Nat}
    (filled : Filled key input data mark) {slot : Nat} {x : α} (here : data[slot]? = some x)
    (last : mark (key x) = slot + 1) (within : start key input (key x) ≤ slot) :
    Filled key input data (Function.update mark (key x) slot) where
  perm := filled.perm
  low bucket := by
    by_cases same : bucket = key x
    · subst same
      rwa [Function.update_self]
    · rw [Function.update_of_ne same]
      exact filled.low bucket
  high bucket := by
    have top := filled.high bucket
    by_cases same : bucket = key x
    · subst same
      rw [Function.update_self]
      omega
    · rwa [Function.update_of_ne same]
  own bucket place y low high found := by
    by_cases same : bucket = key x
    · subst same
      rw [Function.update_self] at low
      rcases Nat.eq_or_lt_of_le low with rfl | behind
      · rw [here] at found
        rw [Option.some.inj found]
      · exact filled.own _ place y (by omega) high found
    · rw [Function.update_of_ne same] at low
      exact filled.own bucket place y low high found

/-- If the zones of all buckets but one are filled completely, all elements are in
their zones.

An element in another zone than its own would be one more of its bucket than there are,
unless its bucket is the exception; and in the zone of the exception, an element of any
other bucket would be one more. -/
theorem Filled.in_zone {data : List α} {mark : Fin radix → Nat}
    (filled : Filled key input data mark) (last : Fin radix)
    (complete : ∀ bucket, bucket ≠ last → mark bucket = start key input bucket)
    {slot : Nat} {x : α} (found : data[slot]? = some x) :
    start key input (key x) ≤ slot ∧ slot < start key input (key x + 1) := by
  have inside : slot < input.length := by
    rw [← filled.perm.length_eq]
    exact (List.getElem?_eq_some_iff.mp found).1
  obtain ⟨bucket, low, high⟩ := exists_zone key inside
  by_cases other : bucket = last
  · by_cases own : key x = last
    · rw [own, ← other]
      exact ⟨low, high⟩
    · by_contra outside
      have room := filled.room found (by rwa [complete _ own])
      rw [complete _ own] at room
      omega
  · have own := filled.own bucket slot x (by rwa [complete _ other]) high found
    rw [own]
    exact ⟨low, high⟩

/-- A list whose elements are all in their zones is sorted by the key. -/
theorem sorted_of_in_zone {data : List α}
    (placed : ∀ (slot : Nat) (x : α), data[slot]? = some x →
      start key input (key x) ≤ slot ∧ slot < start key input (key x + 1)) :
    data.Pairwise fun x y => key x ≤ key y := by
  rw [List.pairwise_iff_getElem]
  intro first second firstValid secondValid before
  obtain ⟨low, -⟩ := placed first _ (List.getElem?_eq_getElem firstValid)
  obtain ⟨-, high⟩ := placed second _ (List.getElem?_eq_getElem secondValid)
  by_contra reversed
  have apart : (key data[second]).val + 1 ≤ key data[first] := by
    have : ¬(key data[first]).val ≤ (key data[second]).val := reversed
    omega
  have := start_mono key input apart
  omega

end RadixSort.Zones
