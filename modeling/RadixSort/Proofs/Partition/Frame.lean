import RadixSort.Engine.Recursion
import RadixSort.Partition.Frame
import RadixSort.Proofs.Ensures
import RadixSort.Proofs.Memory
import RadixSort.Proofs.Partition.Cycle

/-!
# A partitioned range holds its buckets one after the other

Both strategies make a range hold the buckets of its elements one after the other, each
in the order in which the strategy arranges them, and the boundaries that come with it
are the offsets of these buckets. The frame of the range lists the buckets that are not
empty. Nothing outside the range changes.
-/
namespace RadixSort

open Recursion

variable {α : Type} {radix : Nat} {excused : Fault → Prop}

namespace Recursion

/-- Arranging a list before it is grouped loses no element. -/
theorem arrange_perm (inPlace : Bool) (key : α → Fin radix) (elements : List α) :
    (arrange inPlace key elements).Perm elements := by
  cases inPlace with
  | false => exact List.Perm.refl _
  | true =>
    simp only [arrange, if_true]
    split
    · rename_i permuted ran
      have ensured : Ensures (fun _ => True) _ _ :=
        Cycle.partition_ensures key elements.toArray (.inr trivial)
      exact (ensured.of_ok ran).1
    · exact List.Perm.refl _

/-- A partition in place arranges a list as the list of its buckets. -/
theorem partition_arranges (key : α → Fin radix) (data : Array α)
    (fits : data.size < Word.bound ∨ excused .arithmeticOverflow) :
    Ensures excused (Cycle.partition key (histogram key data.toList) data) fun permuted =>
      permuted.toList = arrange true key data.toList ∧
        (group key permuted.toList).flatten = permuted.toList := by
  refine (Cycle.partition_ensures key data fits).known.mono ?_
  rintro permuted ⟨ran, -, sorted⟩
  constructor
  · simp only [arrange, Array.toArray_toList, ran, if_true]
  · rw [group, ← List.flatMap_def]
    exact Classes.flatMap_filter_of_sorted sorted

/-- Arranging a list does not move the boundaries of its buckets. -/
theorem offset_group_arrange (inPlace : Bool) (key : α → Fin radix) (elements : List α)
    (bucket : Nat) : Blocks.offset (group key (arrange inPlace key elements)) bucket =
      Blocks.offset (group key elements) bucket := by
  have lengths : (group key (arrange inPlace key elements)).map List.length =
      (group key elements).map List.length := by
    rw [group, group, List.map_map, List.map_map]
    apply List.map_congr_left
    intro bucket _
    exact ((arrange_perm inPlace key elements).filter _).length_eq
  rw [Blocks.offset, Blocks.offset, List.length_flatten, List.length_flatten, List.map_take,
    List.map_take, lengths]

end Recursion

/-- Narrowing to a part that lies within the window gives that part. -/
theorem Window.sub_ensures {window : Window} {offset length : Nat}
    (fits : window.length < Word.bound ∨ excused .arithmeticOverflow)
    (inside : offset + length ≤ window.length) :
    Ensures excused (window.sub offset length)
      (· = ⟨window.offset + offset, length, window.flipped⟩) := by
  refine (Word.checked_ensures (fits.imp_left (Nat.lt_of_le_of_lt inside))).bind ?_
  rintro stop ⟨rfl, -⟩
  rw [if_pos inside]
  rfl

/-- Exchanging the roles of a part that lies within the window gives that part. -/
theorem Window.flip_ensures {window : Window} {offset length : Nat}
    (fits : window.length < Word.bound ∨ excused .arithmeticOverflow)
    (inside : offset + length ≤ window.length) :
    Ensures excused (window.flip offset length)
      (· = ⟨window.offset + offset, length, !window.flipped⟩) := by
  refine (Word.checked_ensures (fits.imp_left (Nat.lt_of_le_of_lt inside))).bind ?_
  rintro stop ⟨rfl, -⟩
  rw [if_pos inside]
  rfl

/-- Reading a list gives nothing but the knowledge that nobody refused. -/
theorem DigitRule.readAll_ensures (rule : DigitRule α radix) (elements : List α) (depth : Nat)
    (refused : ∀ x fault, rule.refusal? x depth = some fault → excused fault) :
    Ensures excused (rule.readAll elements depth)
      fun _ => ∀ x ∈ elements, rule.refusal? x depth = none := by
  unfold readAll
  cases found : elements.findSome? (rule.refusal? · depth) with
  | none => exact List.findSome?_eq_none_iff.mp found
  | some fault =>
    obtain ⟨x, -, refusal⟩ := List.exists_of_findSome?_eq_some found
    exact refused x fault refusal

namespace Bucket

/-- The blocks that are not empty as buckets, if the blocks follow one another from
`start` on. -/
def ofBlocks (start : Nat) : List (List α) → List Bucket
  | [] => []
  | block :: rest =>
    if block.length = 0 then ofBlocks (start + block.length) rest
    else ⟨start, block.length⟩ :: ofBlocks (start + block.length) rest

/-- The buckets of blocks are those of the first blocks followed by those of the rest. -/
theorem ofBlocks_append (start : Nat) (first second : List (List α)) :
    ofBlocks start (first ++ second) =
      ofBlocks start first ++ ofBlocks (start + first.flatten.length) second := by
  induction first generalizing start with
  | nil => simp [ofBlocks]
  | cons block rest ih =>
    have behind : start + (block :: rest).flatten.length =
        start + block.length + rest.flatten.length := by
      rw [List.flatten_cons, List.length_append, Nat.add_assoc]
    rw [behind, List.cons_append, ofBlocks, ofBlocks, ih]
    split <;> rfl

/-- A bucket of blocks is not empty and lies within them. -/
theorem bounds_of_mem {start : Nat} {blocks : List (List α)} {bucket : Bucket}
    (member : bucket ∈ ofBlocks start blocks) :
    0 < bucket.length ∧ start ≤ bucket.start ∧
      bucket.start + bucket.length ≤ start + blocks.flatten.length := by
  induction blocks generalizing start with
  | nil => simp [ofBlocks] at member
  | cons block rest ih =>
    have total : (block :: rest).flatten.length = block.length + rest.flatten.length := by
      rw [List.flatten_cons, List.length_append]
    have later (present : bucket ∈ ofBlocks (start + block.length) rest) :
        0 < bucket.length ∧ start ≤ bucket.start ∧
          bucket.start + bucket.length ≤ start + (block :: rest).flatten.length := by
      obtain ⟨some, low, high⟩ := ih present
      exact ⟨some, by omega, by omega⟩
    rw [ofBlocks] at member
    split at member
    · exact later member
    · rcases List.mem_cons.mp member with rfl | present
      · refine ⟨Nat.pos_of_ne_zero ‹_›, Nat.le_refl _, ?_⟩
        rw [total]
        exact Nat.add_le_add_left (Nat.le_add_right _ _) start
      · exact later present

/-- Between the offsets of blocks lie the buckets of the blocks.

Induct over the boundaries, which are visited from the last one down. The last block
gives the last bucket, if it is not empty. -/
theorem gather_exact {boundaries : Vector Nat (radix + 1)} {blocks : List (List α)}
    (count : blocks.length = radix)
    (placed : ∀ bucket (inside : bucket < radix + 1),
      boundaries[bucket] = Blocks.offset blocks bucket)
    (reached : Nat) (inside : reached ≤ radix) (listed : List Bucket) :
    gather boundaries reached inside listed =
      .ok (ofBlocks 0 (blocks.take reached) ++ listed) := by
  induction reached generalizing listed with
  | zero => rfl
  | succ reached ih =>
    have valid : reached < blocks.length := by omega
    have here : blocks[reached]? = some blocks[reached] := List.getElem?_eq_getElem valid
    have stop := Blocks.offset_succ here
    have length : Word.checkedSub boundaries[reached + 1] boundaries[reached] =
        .ok blocks[reached].length := by
      rw [Word.checkedSub_eq_ok_iff, placed, placed]
      omega
    have start : 0 + (blocks.take reached).flatten.length = boundaries[reached] := by
      rw [placed, Nat.zero_add]
      rfl
    refine bind_eq_ok.mpr ⟨_, length, ?_⟩
    rw [ih, List.take_add_one, here, Option.toList_some, ofBlocks_append, List.append_assoc, start]
    congr 2
    rw [ofBlocks, ofBlocks]
    split <;> rfl

/-- The buckets between the offsets of blocks are the buckets of the blocks. -/
theorem ofBoundaries_exact {boundaries : Vector Nat (radix + 1)} {blocks : List (List α)}
    (count : blocks.length = radix)
    (placed : ∀ bucket (inside : bucket < radix + 1),
      boundaries[bucket] = Blocks.offset blocks bucket) :
    ofBoundaries boundaries = .ok (ofBlocks 0 blocks) := by
  rw [ofBoundaries, gather_exact count placed, List.take_of_length_le (Nat.le_of_eq count),
    List.append_nil]

end Bucket

/-- Scattering a list with the cursors of its own histogram stores its buckets one after
the other. -/
theorem Scatter.rising_group (key : α → Fin radix) (elements : List α) :
    Agrees (group key elements).flatten
        (rising key (Layout.ofSizes (histogram key elements)).starts elements) ∧
      ∀ slot, slot < (group key elements).flatten.length →
        Reaches (rising key (Layout.ofSizes (histogram key elements)).starts elements) slot := by
  have starts (bucket : Fin radix) : (Layout.ofSizes (histogram key elements)).starts.get bucket =
      Zones.start key elements bucket :=
    Layout.starts_ofSizes (Layout.measures_group key elements) bucket bucket.isLt
  constructor
  · apply agrees_rising
    intro bucket place x found
    have here : (group key elements)[bucket.val]? = some (elements.filter (key · = bucket)) := by
      simp [group]
    have inside : place < (elements.filter (key · = bucket)).length :=
      (List.getElem?_eq_some_iff.mp found).1
    rw [starts, Zones.start, Blocks.getElem?_flatten here inside]
    exact found
  · intro slot inside
    rw [(flatten_group_perm key elements).length_eq] at inside
    obtain ⟨bucket, low, high⟩ := Zones.exists_zone key inside
    rw [Zones.start_succ, List.countP_eq_length_filter] at high
    apply reaches_rising _ _ bucket
    · rwa [starts]
    · rwa [starts]

namespace Partitioned

/-- Moving the elements of a range leaves its buckets one after the other in the range
and changes nothing elsewhere.

In place, the permuted list replaces the valid data. Otherwise the writes of the scatter
store the buckets in the scratch array, from where the range is copied back. -/
theorem move_ensures (inPlace : Bool) (key : α → Fin radix) {memory : Memory α} {window : Window}
    (spans : memory.Spans window) (primary : window.flipped = false)
    (fits : window.length < Word.bound ∨ excused .arithmeticOverflow) :
    Ensures excused (move inPlace key (histogram key (memory.held window)) memory window)
      fun moved => moved.2 = window ∧ Memory.Elsewhere window memory moved.1 ∧
        moved.1.held window = (group key (arrange inPlace key (memory.held window))).flatten := by
  have length : (group key (memory.held window)).flatten.length = window.length := by
    rw [(flatten_group_perm key _).length_eq, spans.length_held]
  cases inPlace with
  | true =>
    have moving := partition_arranges key (memory.active window)
      (fits.imp_left (Nat.lt_of_le_of_lt (Nat.le_of_eq spans.length_held)))
    refine moving.bind ?_
    rintro permuted ⟨arranged, flat⟩
    change permuted.toList = arrange true key (memory.held window) at arranged
    have same : permuted.toList.length = window.length := by
      rw [arranged, (arrange_perm true key _).length_eq, spans.length_held]
    refine ⟨rfl, Memory.elsewhere_fillActive memory window _, ?_⟩
    rw [Memory.held_fillActive spans same, ← arranged, flat]
  | false =>
    obtain ⟨agrees, reached⟩ := Scatter.rising_group key (memory.held window)
    refine (Layout.checkedOfSizes_histogram key (memory.held window)
      (fits.imp_left (Nat.lt_of_le_of_lt (Nat.le_of_eq spans.length_held)))).bind ?_
    rintro layout ⟨rfl, -⟩
    refine (Scatter.checkedRising_histogram key (memory.held window)
      (fits.imp_left (Nat.lt_of_le_of_lt (Nat.le_of_eq spans.length_held)))).bind ?_
    rintro writes rfl
    obtain ⟨written, wrote, elsewhere, -, shadow⟩ := memory.writeShadow_exact window
      fun write member => length ▸ agrees.within member
    have stored : Ensures excused (memory.writeShadow window
        (Scatter.rising key (Layout.ofSizes (histogram key (memory.held window))).starts
          (memory.active window).toList)) (· = written) := Ensures.of_eq_ok wrote rfl
    refine stored.bind ?_
    rintro written rfl
    have inside : 0 + window.length ≤ window.length := by omega
    refine (Window.flip_ensures fits inside).bind ?_
    rintro flipped rfl
    have settled : (⟨window.offset + 0, window.length, !window.flipped⟩ : Window).settled =
        window := by
      rw [Window.settled, ← primary, Nat.add_zero]
    have side : window.shadowSide = .scratch := by
      simp [Window.shadowSide, Window.activeSide, primary, Side.other]
    have content : written.held ⟨window.offset + 0, window.length, !window.flipped⟩ =
        (group key (memory.held window)).flatten := by
      rw [Memory.held_eq_slice]
      simp only [Window.activeSide, primary, Bool.not_false, if_true, Nat.add_zero]
      rw [side] at shadow
      rw [shadow, ← length]
      exact slice_applyWrites (by rw [length]; exact spans .scratch) agrees reached
    have kept := Memory.elsewhere_copyBack written
      ⟨window.offset + 0, window.length, !window.flipped⟩
    refine ⟨settled, elsewhere.trans (kept.widen (by simp)), ?_⟩
    have copied := Memory.held_copyBack (elsewhere.spans spans :
      written.Spans ⟨window.offset + 0, window.length, !window.flipped⟩)
    rw [settled, content] at copied
    exact copied

/-- What a partition of a range leaves behind. -/
structure Groups (inPlace : Bool) (key : α → Fin radix) (memory : Memory α) (window : Window)
    (partitioned : Partitioned α radix) : Prop where
  window_eq : partitioned.window = window
  elsewhere : Memory.Elsewhere window memory partitioned.memory
  held : partitioned.memory.held window =
    (group key (arrange inPlace key (memory.held window))).flatten
  boundaries : ∀ bucket (inside : bucket < radix + 1), partitioned.boundaries[bucket] =
    Blocks.offset (group key (arrange inPlace key (memory.held window))) bucket

/-- Partitioning a range reads all its elements and leaves its buckets one after the
other, with their boundaries. -/
theorem ofRange_ensures (rule : DigitRule α radix) (inPlace : Bool) {memory : Memory α}
    {window : Window} (depth : Nat) (spans : memory.Spans window)
    (primary : window.flipped = false)
    (fits : window.length < Word.bound ∨ excused .arithmeticOverflow)
    (refused : ∀ x fault, rule.refusal? x depth = some fault → excused fault) :
    Ensures excused (ofRange rule inPlace memory window depth) fun partitioned =>
      (∀ x ∈ memory.held window, rule.refusal? x depth = none) ∧
        Groups inPlace (rule.digit · depth) memory window partitioned := by
  let key := (rule.digit · depth)
  have counted : (memory.held window).length < Word.bound ∨ excused .arithmeticOverflow :=
    fits.imp_left (Nat.lt_of_le_of_lt (Nat.le_of_eq spans.length_held))
  refine (rule.readAll_ensures (memory.held window) depth refused).bind ?_
  intro _ readable
  refine (checkedHistogram_ensures key counted).bind ?_
  rintro sizes rfl
  refine (move_ensures inPlace key spans primary fits).bind ?_
  rintro ⟨moved, same⟩ ⟨rfl, elsewhere, held⟩
  refine (Layout.checkedOfSizes_histogram key (memory.held same) counted).bind ?_
  rintro layout ⟨rfl, -⟩
  have measured := Layout.measures_group key (memory.held same)
  have length : (group key (memory.held same)).flatten.length = same.length := by
    rw [(flatten_group_perm key _).length_eq, spans.length_held]
  have total : (Layout.ofSizes (histogram key (memory.held same))).total = same.length := by
    rw [Layout.total_ofSizes measured, length]
  rw [if_pos total]
  refine ⟨readable, rfl, elsewhere, held, ?_⟩
  intro bucket inside
  rw [offset_group_arrange, ← Layout.boundaries_ofSizes measured bucket inside, length]

/-- The frame of a partitioned range lists the buckets that are not empty. -/
theorem frame_exact {inPlace : Bool} {key : α → Fin radix} {memory : Memory α} {window : Window}
    {partitioned : Partitioned α radix} (groups : Groups inPlace key memory window partitioned)
    (depth : Nat) : partitioned.frame depth = .ok ⟨window, depth,
      Bucket.ofBlocks 0 (group key (arrange inPlace key (memory.held window)))⟩ := by
  have count : (group key (arrange inPlace key (memory.held window))).length = radix := by
    simp [group]
  have buckets := Bucket.ofBoundaries_exact count groups.boundaries
  refine bind_eq_ok.mpr ⟨_, buckets, ?_⟩
  rw [groups.window_eq]
  rfl

end Partitioned

end RadixSort
