import RadixSort.Proofs.Partition.Frame

/-!
# The boundaries of a partitioned range

The boundaries count the elements of smaller buckets, and no strategy has a part in them. A
partition in place and one through the scratch array therefore agree on where each bucket
lies. They differ in the order of the elements within a bucket, which only the second one
keeps, and in the scratch array, which only the first one leaves alone.
-/
namespace RadixSort

open Recursion

variable {α : Type} {radix : Nat}

/-- The slice of a list between the offsets of one of its blocks is that block. -/
theorem Blocks.slice_flatten {blocks : List (List α)} {cells : Array α} {start length index : Nat}
    {block : List α} (content : slice cells start length = blocks.flatten)
    (spans : start + length ≤ cells.size) (here : blocks[index]? = some block) :
    slice cells (start + offset blocks index) block.length = block := by
  have whole := congrArg List.length content
  rw [length_slice spans] at whole
  have inside : offset blocks index + block.length ≤ length := by
    rw [whole, ← offset_succ here]
    exact offset_le_length blocks (index + 1)
  rw [slice_within cells start inside, content, flatten_eq_split here, offset,
    List.drop_left, List.take_left]

namespace Partitioned

/-- Boundaries that say, for each bucket, how many elements the smaller ones have. -/
structure Delimits (key : α → Fin radix) (elements : List α)
    (boundaries : Vector Nat (radix + 1)) : Prop where
  count : ∀ bucket (inside : bucket < radix + 1),
    boundaries[bucket] = elements.countP fun x => (key x).val < bucket
  ordered : ∀ bucket (inside : bucket < radix), boundaries[bucket] ≤ boundaries[bucket + 1]
  last : boundaries[radix] = elements.length

/-- A range holds, between the boundaries of each bucket, the elements of that bucket. -/
structure Separated (key : α → Fin radix) (elements : List α) (boundaries : Vector Nat (radix + 1))
    (content : List α) : Prop where
  perm : content.Perm elements
  own : ∀ (slot : Nat) (x : α), content[slot]? = some x → ∀ bucket (inside : bucket < radix),
    ((key x).val = bucket ↔ boundaries[bucket] ≤ slot ∧ slot < boundaries[bucket + 1])

/-- The starts of the zones delimit the buckets. -/
theorem delimits_of_starts {key : α → Fin radix} {elements : List α}
    {boundaries : Vector Nat (radix + 1)}
    (starts : ∀ bucket (inside : bucket < radix + 1),
      boundaries[bucket] = Zones.start key elements bucket) :
    Delimits key elements boundaries where
  count bucket inside := by
    rw [starts bucket inside, Zones.start_eq_countP key elements (Nat.le_of_lt_succ inside)]
  ordered bucket inside := by
    rw [starts, starts]
    exact Zones.start_mono key elements (Nat.le_succ bucket)
  last := by rw [starts, Zones.start_radix]

namespace Groups

variable {inPlace : Bool} {key : α → Fin radix} {memory : Memory α} {window : Window}
  {partitioned : Partitioned α radix}

/-- The boundaries of a partition are the starts of the zones of what was there. -/
theorem boundary_eq_start (groups : Groups inPlace key memory window partitioned) (bucket : Nat)
    (inside : bucket < radix + 1) :
    partitioned.boundaries[bucket] = Zones.start key (memory.held window) bucket := by
  rw [groups.boundaries bucket inside, offset_group_arrange, Zones.start]

/-- The last bucket ends where the range does. -/
theorem last_bucket (groups : Groups inPlace key memory window partitioned) (some : 0 < radix) :
    partitioned.boundaries[radix - 1] + (histogram key (memory.held window))[radix - 1] =
      (memory.held window).length := by
  have next : radix - 1 + 1 = radix := Nat.sub_add_cancel some
  have size : (histogram key (memory.held window))[radix - 1] = _ :=
    get_histogram key (memory.held window) ⟨radix - 1, by omega⟩
  have whole := Zones.start_succ key (memory.held window) ⟨radix - 1, by omega⟩
  rw [next, Zones.start_radix] at whole
  rw [groups.boundary_eq_start, size, whole]

/-- Whatever the strategy, the elements of a bucket lie between its boundaries. -/
theorem separated (groups : Groups inPlace key memory window partitioned) :
    Separated key (memory.held window) partitioned.boundaries
      (partitioned.memory.held window) where
  perm := by
    rw [groups.held]
    exact (flatten_group_perm key _).trans (arrange_perm inPlace key _)
  own slot x found bucket inside := by
    have zone (index : Nat) (inside : index < radix + 1) : partitioned.boundaries[index] =
        Zones.start key (arrange inPlace key (memory.held window)) index := by
      rw [groups.boundaries index inside, Zones.start]
    rw [groups.held] at found
    rw [zone, zone, ← Zones.key_eq_iff found ⟨bucket, inside⟩]
    exact ⟨fun same => Fin.ext same, congrArg Fin.val⟩

/-- Through the scratch array, each bucket keeps the order of its elements. -/
theorem slice_bucket (groups : Groups false key memory window partitioned)
    (spans : memory.Spans window) (bucket : Nat) (inside : bucket < radix) :
    slice (partitioned.memory.side window.activeSide)
        (window.offset + partitioned.boundaries[bucket])
        (partitioned.boundaries[bucket + 1] - partitioned.boundaries[bucket]) =
      (memory.held window).filter (key · = ⟨bucket, inside⟩) := by
  have here : (group key (memory.held window))[bucket]? =
      some ((memory.held window).filter (key · = ⟨bucket, inside⟩)) := by
    simp [group, inside]
  have start := Zones.start_succ key (memory.held window) ⟨bucket, inside⟩
  have length : partitioned.boundaries[bucket + 1] - partitioned.boundaries[bucket] =
      ((memory.held window).filter (key · = ⟨bucket, inside⟩)).length := by
    rw [groups.boundary_eq_start, groups.boundary_eq_start, start, Nat.add_sub_cancel_left,
      List.countP_eq_length_filter]
  rw [length, groups.boundary_eq_start, Zones.start]
  exact Blocks.slice_flatten groups.held (groups.elsewhere.spans spans _) here

end Groups

/-- A partition in place does not write to the scratch array. -/
theorem ofRange_scratch {rule : DigitRule α radix} {memory : Memory α} {window : Window}
    {depth : Nat} {partitioned : Partitioned α radix} (primary : window.flipped = false)
    (ran : ofRange rule true memory window depth = .ok partitioned) :
    partitioned.memory.scratch = memory.scratch := by
  obtain ⟨-, -, ran⟩ := bind_eq_ok.mp ran
  obtain ⟨sizes, -, ran⟩ := bind_eq_ok.mp ran
  obtain ⟨⟨moved, same⟩, permuted, ran⟩ := bind_eq_ok.mp ran
  obtain ⟨layout, -, ran⟩ := bind_eq_ok.mp ran
  obtain ⟨content, -, stored⟩ := bind_eq_ok.mp permuted
  obtain ⟨rfl, -⟩ := Prod.mk.inj (Except.ok.inj stored)
  have active : window.activeSide = .primary := by
    rw [Window.activeSide, primary]
    rfl
  split at ran
  · obtain rfl := Except.ok.inj ran
    change (memory.fill window.activeSide window content.toList).scratch = memory.scratch
    rw [active]
    rfl
  · cases ran

/-- The valid data of a window that is not flipped is in the primary array. -/
theorem held_of_primary (memory : Memory α) {window : Window} (primary : window.flipped = false) :
    memory.held window = slice memory.primary window.offset window.length := by
  rw [Memory.held_eq_slice, Window.activeSide, primary]
  rfl

/-- Partitioning a range by the digits of a function gives, with either strategy, the same
boundaries, and these delimit the buckets of what was there: the last of the buckets, of which
there is at least one, ends where the range does. The range then holds the elements
of each bucket between its boundaries, in their old order if the scratch array was used;
without its use that array is what it was. The frame is for the same range, with its valid
data in the primary array, and nothing outside the range changes. -/
theorem ofRange_delimited (some : 0 < radix) (digit : α → Nat → Fin radix) {memory : Memory α}
    {window : Window} (depth : Nat) (spans : memory.Spans window) (primary : window.flipped = false)
    (fits : window.length < Word.bound) :
    ∃ boundaries : Vector Nat (radix + 1),
      Delimits (digit · depth) (slice memory.primary window.offset window.length) boundaries ∧
      boundaries[radix - 1] + (histogram (digit · depth)
        (slice memory.primary window.offset window.length))[radix - 1] = window.length ∧
      ∀ inPlace, ∃ partitioned frame,
        ofRange (.ofTotal digit) inPlace memory window depth = .ok partitioned ∧
        partitioned.frame depth = .ok frame ∧
        partitioned.boundaries = boundaries ∧
        Separated (digit · depth) (slice memory.primary window.offset window.length) boundaries
          (slice partitioned.memory.primary window.offset window.length) ∧
        (inPlace = false → ∀ bucket (inside : bucket < radix),
          slice partitioned.memory.primary (window.offset + boundaries[bucket])
              (boundaries[bucket + 1] - boundaries[bucket]) =
            (slice memory.primary window.offset window.length).filter
              (digit · depth = ⟨bucket, inside⟩)) ∧
        (inPlace = true → partitioned.memory.scratch = memory.scratch) ∧
        Memory.Elsewhere window memory partitioned.memory ∧
        frame.window = window ∧ frame.window.flipped = false := by
  let key := (digit · depth)
  have runs (inPlace : Bool) : ∃ partitioned,
      ofRange (.ofTotal digit) inPlace memory window depth = .ok partitioned ∧
        Groups inPlace key memory window partitioned := by
    have ensured : Ensures (fun _ => False)
        (ofRange (.ofTotal digit) inPlace memory window depth) _ :=
      ofRange_ensures (.ofTotal digit) inPlace depth spans primary (.inl fits)
        fun x fault refusal => by cases refusal
    obtain ⟨partitioned, ran, -, groups⟩ := ensured.exists_ok fun _ => id
    exact ⟨partitioned, ran, groups⟩
  obtain ⟨model, -, modelled⟩ := runs false
  rw [← held_of_primary memory primary]
  refine ⟨model.boundaries, delimits_of_starts modelled.boundary_eq_start,
    (modelled.last_bucket some).trans spans.length_held, fun inPlace => ?_⟩
  obtain ⟨partitioned, ran, groups⟩ := runs inPlace
  have same : partitioned.boundaries = model.boundaries := by
    apply Vector.ext
    intro bucket inside
    rw [groups.boundary_eq_start bucket inside, modelled.boundary_eq_start bucket inside]
  have active : window.activeSide = .primary := by
    rw [Window.activeSide, primary]
    rfl
  refine ⟨partitioned, _, ran, frame_exact groups depth, same, ?_, ?_, ?_, groups.elsewhere, rfl,
    primary⟩
  · rw [← same, ← held_of_primary partitioned.memory primary]
    exact groups.separated
  · rintro rfl bucket inside
    have stable := groups.slice_bucket spans bucket inside
    rw [active] at stable
    rw [← same]
    exact stable
  · rintro rfl
    exact ofRange_scratch primary ran

/-- Five values, of which the three in the middle are a range to partition. -/
def middle : Memory Nat := ⟨#[9, 6, 1, 7, 0], #[0, 0, 0, 0, 0]⟩

/-- In the middle of a longer array, the one value below four lies before the two others,
whichever strategy is used. -/
theorem ofRange_delimited_middle :
    0 < 4 ∧ middle.Spans ⟨1, 3, false⟩ ∧ (⟨1, 3, false⟩ : Window).flipped = false ∧ 3 < Word.bound ∧
      ∀ inPlace, ∃ partitioned : Partitioned Nat 4,
        ofRange (.ofTotal fun x _ => Fin.ofNat 4 (x / 4)) inPlace middle ⟨1, 3, false⟩ 0 =
          .ok partitioned ∧
        partitioned.boundaries[1] = 1 ∧ partitioned.boundaries[2] = 3 := by
  have spans : middle.Spans ⟨1, 3, false⟩ := by
    intro side
    cases side <;> decide
  refine ⟨by decide, spans, rfl, by decide, fun inPlace => ?_⟩
  obtain ⟨boundaries, delimits, -, both⟩ :=
    ofRange_delimited (by decide) (fun x _ => Fin.ofNat 4 (x / 4)) 0 spans rfl (by decide)
  obtain ⟨partitioned, -, ran, -, rfl, -⟩ := both inPlace
  exact ⟨partitioned, ran, delimits.count 1 (by decide), delimits.count 2 (by decide)⟩

end Partitioned

end RadixSort
