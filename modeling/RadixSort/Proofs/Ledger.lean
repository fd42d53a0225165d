import RadixSort.Engine.Recursion
import RadixSort.Proofs.Engine.Sorts
import RadixSort.Proofs.Memory
import RadixSort.Proofs.Partition.Frame

/-!
# Ledgers of the work that is left

A range is sorted by many tasks, each of which sorts or divides a part of it. A ledger
keeps, between any two of them, which windows are still to be sorted and what was
promised for what they hold, which windows are finished, and what the sort has cost so
far. Its law is that the windows tile the range, and that the goal of the whole range is
reached by any array that has kept the finished windows as they are and holds, in every
other window, a result that was promised for it. A finished window is a single element, or it
holds what has been given back for its elements.

Carrying out a part of the work replaces one obligation by those of a ledger for its own
window. The law of the whole survives, since nothing outside that window changes. The law
says nothing of the order in which the obligations are met.
-/
namespace RadixSort

open Recursion

variable {α : Type}

/-- A window that is still to be sorted, and what may become of the values it holds. -/
structure Obligation (α : Type) where
  window : Window
  promise : List α → Result α → Prop

/-- In every window of the list, an array holds a result that was promised for what the
window holds now. The counters are those of all results together. -/
def Redeemed (memory : Memory α) (final : Array α) : List (Obligation α) → Counts → Prop
  | [], counts => counts = 0
  | obligation :: rest, counts => ∃ result later,
      obligation.promise (memory.held obligation.window) result ∧
        slice final obligation.window.offset obligation.window.length = result.elements ∧
        Redeemed memory final rest later ∧ counts = result.counts + later

namespace Redeemed

variable {memory after : Memory α} {final : Array α}

/-- Two lists of obligations are met together exactly if each of them is. -/
theorem append_iff {first second : List (Obligation α)} {counts : Counts} :
    Redeemed memory final (first ++ second) counts ↔
      ∃ before later, Redeemed memory final first before ∧ Redeemed memory final second later ∧
        counts = before + later := by
  induction first generalizing counts with
  | nil =>
    constructor
    · intro met
      exact ⟨0, counts, rfl, met, (zero_add counts).symm⟩
    · rintro ⟨before, later, rfl, met, rfl⟩
      rw [zero_add]
      exact met
  | cons obligation rest ih =>
    constructor
    · rintro ⟨result, later, kept, held, met, rfl⟩
      obtain ⟨inner, outer, metInner, metOuter, rfl⟩ := ih.mp met
      exact ⟨result.counts + inner, outer, ⟨result, inner, kept, held, metInner, rfl⟩, metOuter,
        (add_assoc _ _ _).symm⟩
    · rintro ⟨before, outer, ⟨result, inner, kept, held, metInner, rfl⟩, metOuter, rfl⟩
      exact ⟨result, inner + outer, kept, held, ih.mpr ⟨inner, outer, metInner, metOuter, rfl⟩,
        add_assoc _ _ _⟩

/-- The order of the obligations does not matter. -/
theorem perm {first second : List (Obligation α)} (same : first.Perm second) {counts : Counts}
    (met : Redeemed memory final first counts) : Redeemed memory final second counts := by
  induction same generalizing counts with
  | nil => exact met
  | cons obligation _ ih =>
    obtain ⟨result, later, kept, held, rest, rfl⟩ := met
    exact ⟨result, later, kept, held, ih rest, rfl⟩
  | swap x y rest =>
    obtain ⟨first, _, firstKept, firstHeld, ⟨second, later, kept, held, rest, rfl⟩, rfl⟩ := met
    exact ⟨second, _, kept, held, ⟨first, later, firstKept, firstHeld, rest, rfl⟩,
      add_left_comm _ _ _⟩
  | trans _ _ first second => exact second (first met)

/-- Obligations on windows that hold the same in another memory are met there too. -/
theorem congr {pending : List (Obligation α)} {counts : Counts}
    (same : ∀ obligation ∈ pending,
      after.held obligation.window = memory.held obligation.window)
    (met : Redeemed after final pending counts) : Redeemed memory final pending counts := by
  induction pending generalizing counts with
  | nil => exact met
  | cons obligation rest ih =>
    obtain ⟨result, later, kept, held, rest, rfl⟩ := met
    rw [same _ List.mem_cons_self] at kept
    exact ⟨result, later, kept, held,
      ih (fun other member => same other (List.mem_cons_of_mem _ member)) rest, rfl⟩

end Redeemed

/-- The slots of some windows, one window after the other. -/
def slotsOf (windows : List Window) : List Nat := windows.flatMap Window.slots

@[simp] theorem slotsOf_cons (window : Window) (rest : List Window) :
    slotsOf (window :: rest) = window.slots ++ slotsOf rest := List.flatMap_cons

@[simp] theorem slotsOf_append (first second : List Window) :
    slotsOf (first ++ second) = slotsOf first ++ slotsOf second := List.flatMap_append

/-- A slot of one of the windows is one of their slots. -/
theorem mem_slotsOf {windows : List Window} {window : Window} {cell : Nat}
    (member : window ∈ windows) (inside : cell ∈ window.slots) : cell ∈ slotsOf windows :=
  List.mem_flatMap.mpr ⟨window, member, inside⟩

/-- Windows have as many slots as they are long. -/
theorem length_slotsOf (windows : List Window) :
    (slotsOf windows).length = (windows.map Window.length).sum := by
  simp [slotsOf, List.length_flatMap]

/-- The state of the work on the window `root`. A window of several elements is finished when it
holds something that `gave` allows. -/
structure Ledger (gave : List α → Prop) (root : Window) (goal : List α → Counts → Prop)
    (memory : Memory α) (pending : List (Obligation α)) (finished : List Window)
    (counts : Counts) : Prop where
  tiles : (slotsOf (pending.map Obligation.window ++ finished)).Perm root.slots
  settles : ∀ (final : Array α) (later : Counts),
    (∀ cell ∈ slotsOf finished, final[cell]? = memory.primary[cell]?) →
    Redeemed memory final pending later →
    goal (slice final root.offset root.length) (counts + later)
  given : ∀ window ∈ finished,
    window.length = 1 ∨ gave (slice memory.primary window.offset window.length)

/-- The part of a window that a bucket covers. -/
def Window.part (window : Window) (bucket : Bucket) : Window :=
  ⟨window.offset + bucket.start, bucket.length, window.flipped⟩

/-- One obligation for each bucket of a window, with the same promise for all of them. -/
def bucketObligations (window : Window) (promise : List α → Result α → Prop)
    (buckets : List Bucket) : List (Obligation α) :=
  buckets.map fun bucket => ⟨window.part bucket, promise⟩

/-- The buckets of blocks cover the slots of the blocks. -/
theorem slotsOf_ofBlocks (window : Window) (start : Nat) (blocks : List (List α)) :
    slotsOf ((Bucket.ofBlocks start blocks).map window.part) =
      List.range' (window.offset + start) blocks.flatten.length := by
  induction blocks generalizing start with
  | nil => rfl
  | cons block rest ih =>
    have joined : List.range' (window.offset + start) block.length ++
        List.range' (window.offset + start + block.length) rest.flatten.length =
        List.range' (window.offset + start) (block :: rest).flatten.length := by
      rw [List.flatten_cons, List.length_append, ← List.range'_append, Nat.one_mul]
    rw [← joined, Nat.add_assoc, ← ih, Bucket.ofBlocks]
    split
    · rename_i empty
      rw [empty, List.range'_zero, List.nil_append]
    · rfl

/-- Cells that hold blocks one after the other hold the first block in front and all others
behind it. -/
theorem slice_flatten_cons {cells : Array α} {start : Nat} {block : List α}
    {rest : List (List α)}
    (held : slice cells start (block :: rest).flatten.length = (block :: rest).flatten) :
    slice cells start block.length = block ∧
      slice cells (start + block.length) rest.flatten.length = rest.flatten := by
  have total : (block :: rest).flatten.length = block.length + rest.flatten.length := by
    rw [List.flatten_cons, List.length_append]
  constructor
  · have cut := slice_within cells start
      (by omega : 0 + block.length ≤ block.length + rest.flatten.length)
    rw [← total, held] at cut
    simpa using cut
  · have cut := slice_within cells start (Nat.le_of_eq total.symm)
    rwa [held, List.flatten_cons, List.drop_left, List.take_length] at cut

/-- The bucket of a block holds the block, where a window holds blocks one after the other. -/
theorem held_bucket {memory : Memory α} {window : Window} {start : Nat}
    {blocks : List (List α)} {bucket : Bucket}
    (held : slice (memory.side window.activeSide) (window.offset + start) blocks.flatten.length =
      blocks.flatten) (member : bucket ∈ Bucket.ofBlocks start blocks) :
    memory.held (window.part bucket) ∈ blocks := by
  induction blocks generalizing start with
  | nil => cases member
  | cons block rest ih =>
    obtain ⟨here, behind⟩ := slice_flatten_cons held
    rw [Nat.add_assoc] at behind
    rw [Bucket.ofBlocks] at member
    split at member
    · exact List.mem_cons_of_mem block (ih behind member)
    · rcases List.mem_cons.mp member with rfl | later
      · rw [Memory.held_eq_slice]
        exact List.mem_cons.mpr (.inl here)
      · exact List.mem_cons_of_mem block (ih behind later)

/-- An array that meets the obligations of all buckets holds, over all their slots, one
result after the other, one for each block.

Induct over the blocks. An empty block has no bucket, and its result is empty. -/
theorem Redeemed.blocks {memory : Memory α} {final : Array α} {window : Window}
    {promise : List α → Result α → Prop} (empty : promise [] ⟨[], 0⟩) {start : Nat}
    {blocks : List (List α)} {counts : Counts}
    (held : slice (memory.side window.activeSide) (window.offset + start) blocks.flatten.length =
      blocks.flatten)
    (met : Redeemed memory final
      (bucketObligations window promise (Bucket.ofBlocks start blocks)) counts) :
    ∃ results, List.Forall₂ promise blocks results ∧
      slice final (window.offset + start) blocks.flatten.length =
        results.flatMap Result.elements ∧
      counts = (results.map Result.counts).sum := by
  induction blocks generalizing start counts with
  | nil => exact ⟨[], .nil, slice_zero _ _, met⟩
  | cons block rest ih =>
    have total : (block :: rest).flatten.length = block.length + rest.flatten.length := by
      rw [List.flatten_cons, List.length_append]
    obtain ⟨here, behind⟩ := slice_flatten_cons held
    rw [Nat.add_assoc] at behind
    rw [total, slice_add, Nat.add_assoc window.offset]
    rw [Bucket.ofBlocks] at met
    split at met
    · rename_i none
      obtain ⟨results, kept, slices, rfl⟩ := ih behind met
      obtain rfl := List.length_eq_zero_iff.mp none
      refine ⟨⟨[], 0⟩ :: results, .cons empty kept, ?_, ?_⟩
      · rw [List.length_nil, slice_zero, List.nil_append, List.flatMap_cons, List.nil_append]
        exact slices
      · rw [List.map_cons, List.sum_cons, zero_add]
    · obtain ⟨result, later, promised, slot, others, rfl⟩ := met
      obtain ⟨results, kept, slices, rfl⟩ := ih behind others
      refine ⟨result :: results, .cons ?_ kept, ?_, ?_⟩
      · rw [Memory.held_eq_slice] at promised
        rw [← here]
        exact promised
      · rw [List.flatMap_cons, ← slices]
        congr 1
      · rw [List.map_cons, List.sum_cons]

namespace Ledger

variable {gave : List α → Prop} {root : Window} {goal : List α → Counts → Prop}
  {memory after : Memory α} {pending rest children : List (Obligation α)}
  {finished settled : List Window} {counts cost : Counts} {obligation : Obligation α}

/-- What a window's own ledger has to reach. -/
def aim (obligation : Obligation α) (memory : Memory α) (elements : List α) (counts : Counts) :
    Prop :=
  obligation.promise (memory.held obligation.window) ⟨elements, counts⟩

/-- The order of the obligations does not matter. -/
theorem perm {reordered : List (Obligation α)} (same : pending.Perm reordered)
    (ledger : Ledger gave root goal memory pending finished counts) :
    Ledger gave root goal memory reordered finished counts where
  tiles := by
    refine List.Perm.trans ?_ ledger.tiles
    rw [slotsOf_append, slotsOf_append]
    exact (((same.map Obligation.window).flatMap_right _).symm).append_right _
  settles final later kept met := ledger.settles final later kept (met.perm same.symm)
  given := ledger.given

/-- No slot belongs to two windows of a ledger. -/
theorem nodup (ledger : Ledger gave root goal memory pending finished counts) :
    (slotsOf (pending.map Obligation.window) ++ slotsOf finished).Nodup := by
  rw [← slotsOf_append]
  exact ledger.tiles.nodup_iff.mpr List.nodup_range'

/-- The windows of a ledger are together as long as its root. -/
theorem total_length (ledger : Ledger gave root goal memory pending finished counts) :
    ((pending.map Obligation.window).map Window.length).sum +
      (finished.map Window.length).sum = root.length := by
  have length := ledger.tiles.length_eq
  rwa [slotsOf_append, List.length_append, length_slotsOf, length_slotsOf, Window.length_slots]
    at length

/-- The windows that are left are together no longer than the root. -/
theorem sum_length_le (ledger : Ledger gave root goal memory pending finished counts) :
    (pending.map fun obligation => obligation.window.length).sum ≤ root.length := by
  have total := ledger.total_length
  rw [List.map_map] at total
  exact Nat.le_of_add_right_le (Nat.le_of_eq total)

/-- A window that is not empty lies within a root whose slots include its own. -/
theorem bounds_of_slots {window : Window} (some : 0 < window.length)
    (part : ∀ cell ∈ window.slots, cell ∈ root.slots) :
    root.offset ≤ window.offset ∧
      window.offset + window.length ≤ root.offset + root.length := by
  have first := Window.mem_slots.mp (part window.offset (by simp [some]))
  have last := Window.mem_slots.mp (part (window.offset + (window.length - 1)) (by simp; omega))
  omega

/-- The window of an obligation is a part of the root. -/
theorem part_of_mem (ledger : Ledger gave root goal memory pending finished counts)
    (member : obligation ∈ pending) : ∀ cell ∈ obligation.window.slots, cell ∈ root.slots := by
  intro cell inside
  apply ledger.tiles.mem_iff.mp
  exact mem_slotsOf (List.mem_append_left _ (List.mem_map_of_mem member)) inside

/-- The window of an obligation, if not empty, reaches past the end of neither array. -/
theorem spans_of_mem (ledger : Ledger gave root goal memory pending finished counts)
    (spans : memory.Spans root) (member : obligation ∈ pending)
    (some : 0 < obligation.window.length) : memory.Spans obligation.window := by
  intro side
  have inside := spans side
  have bounds := bounds_of_slots some (ledger.part_of_mem member)
  omega

/-- The window of the first obligation shares no slot with any other window. -/
theorem apart (ledger : Ledger gave root goal memory (obligation :: rest) finished counts) :
    (∀ other ∈ rest, ∀ cell ∈ other.window.slots, cell ∉ obligation.window.slots) ∧
      ∀ cell ∈ slotsOf finished, cell ∉ obligation.window.slots := by
  have distinct := ledger.nodup
  rw [List.map_cons, slotsOf_cons, List.append_assoc] at distinct
  have disjoint := (List.nodup_append.mp distinct).2.2
  constructor
  · intro other member cell inside own
    exact disjoint cell own cell
      (List.mem_append_left _ (mem_slotsOf (List.mem_map_of_mem member) inside)) rfl
  · intro cell inside own
    exact disjoint cell own cell (List.mem_append_right _ inside) rfl

/-- Work on a window begins with one obligation, its own. -/
theorem opened (gave : List α → Prop) (obligation : Obligation α) (memory : Memory α) :
    Ledger gave obligation.window (aim obligation memory) memory [obligation] [] 0 where
  tiles := by simp [slotsOf]
  settles final later _ met := by
    obtain ⟨result, others, kept, held, rfl, rfl⟩ := met
    rw [zero_add, add_zero, held]
    exact kept
  given := by simp

/-- An obligation is replaced by those of a ledger for its own window, if the memory
changed nowhere else.

An array that meets the new obligations holds, in the window of the old one, a result
that was promised for it, since it meets the ledger of that window; and it meets all the
other obligations, whose windows hold what they held. -/
theorem refine (ledger : Ledger gave root goal memory (obligation :: rest) finished counts)
    (elsewhere : Memory.Elsewhere obligation.window memory after)
    (part : Ledger gave obligation.window (aim obligation memory) after children settled cost) :
    Ledger gave root goal after (children ++ rest) (settled ++ finished) (counts + cost) where
  tiles := by
    have outer := ledger.tiles
    have inner := part.tiles
    simp only [List.map_cons, List.map_append, slotsOf_cons, slotsOf_append] at outer inner ⊢
    refine List.Perm.trans ?_ outer
    rw [List.append_assoc, List.append_assoc]
    refine (List.Perm.append_left _ (List.perm_append_comm_assoc _ _ _)).trans ?_
    rw [← List.append_assoc]
    exact inner.append_right _
  settles final later kept met := by
    obtain ⟨othersApart, finishedApart⟩ := ledger.apart
    obtain ⟨inner, outer, metInner, metOuter, rfl⟩ := Redeemed.append_iff.mp met
    have reached := part.settles final inner (fun cell inside => kept cell (by
      rw [slotsOf_append]
      exact List.mem_append_left _ inside)) metInner
    have others : Redeemed memory final rest outer :=
      metOuter.congr fun other member => elsewhere.held_eq (othersApart other member)
    have whole := ledger.settles final (cost + inner + outer) (by
      intro cell inside
      rw [kept cell (by
        rw [slotsOf_append]
        exact List.mem_append_right _ inside)]
      exact elsewhere.cell .primary cell (finishedApart cell inside))
      ⟨_, outer, reached, rfl, others, rfl⟩
    have regrouped : counts + cost + (inner + outer) = counts + (cost + inner + outer) := by
      simp only [add_assoc]
    rw [regrouped]
    exact whole
  given window member := by
    rcases List.mem_append.mp member with inner | outer
    · exact part.given window inner
    · have same : slice after.primary window.offset window.length =
          slice memory.primary window.offset window.length := by
        apply slice_congr
        intro cell low high
        have inside : cell ∈ slotsOf finished :=
          mem_slotsOf outer (Window.mem_slots.mpr ⟨low, high⟩)
        exact elsewhere.cell .primary cell (ledger.apart.2 cell inside)
      rw [same]
      exact ledger.given window outer

/-- A window whose valid data is in the primary array is finished once it holds what was
aimed at, if it is a single element or this has been given back. -/
theorem of_settled {window : Window} (primary : window.flipped = false)
    (given : window.length = 1 ∨ gave (memory.held window))
    (met : goal (memory.held window) counts) :
    Ledger gave window goal memory [] [window] counts where
  tiles := by simp [slotsOf]
  settles final later kept nothing := by
    obtain rfl : later = 0 := nothing
    have side : window.activeSide = .primary := by simp [Window.activeSide, primary]
    have same : slice final window.offset window.length = memory.held window := by
      rw [Memory.held_eq_slice, side]
      apply slice_congr
      intro cell low high
      exact kept cell (mem_slotsOf List.mem_cons_self (Window.mem_slots.mpr ⟨low, high⟩))
    rw [same, add_zero]
    exact met
  given other member := by
    rw [List.mem_singleton.mp member]
    rw [Memory.held_eq_slice] at given
    have side : window.activeSide = .primary := by simp [Window.activeSide, primary]
    rwa [side] at given

/-- A window is finished by copying it back once it holds what was aimed at, if it is a single
element or this has been given back. -/
theorem of_copyBack {window : Window} (spans : memory.Spans window)
    (given : window.length = 1 ∨ gave (memory.held window))
    (met : goal (memory.held window) counts) :
    Ledger gave window goal (memory.copyBack window) [] [window.settled] counts := by
  rw [← Memory.held_copyBack spans] at met given
  have settled : Ledger gave window.settled goal (memory.copyBack window) [] [window.settled]
      counts := of_settled rfl given met
  exact ⟨settled.tiles, settled.settles, settled.given⟩

/-- The work on a window is handed on as a whole. -/
theorem of_single (child : Obligation α)
    (met : ∀ result, child.promise (memory.held child.window) result →
      goal result.elements (counts + result.counts)) :
    Ledger gave child.window goal memory [child] [] counts where
  tiles := by simp [slotsOf]
  settles final later _ redeemed := by
    obtain ⟨result, others, kept, held, rfl, rfl⟩ := redeemed
    rw [held, add_zero]
    exact met result kept
  given := by simp

/-- The work on a window that holds blocks one after the other is divided into the work
on the blocks. -/
theorem of_blocks {window : Window} {promise : List α → Result α → Prop}
    {blocks : List (List α)} (held : memory.held window = blocks.flatten)
    (length : blocks.flatten.length = window.length) (empty : promise [] ⟨[], 0⟩)
    (met : ∀ results, List.Forall₂ promise blocks results →
      goal (results.flatMap Result.elements) (counts + (results.map Result.counts).sum)) :
    Ledger gave window goal memory
      (bucketObligations window promise (Bucket.ofBlocks 0 blocks)) [] counts where
  tiles := by
    have windows : (bucketObligations window promise (Bucket.ofBlocks 0 blocks)).map
        Obligation.window = (Bucket.ofBlocks 0 blocks).map window.part := by
      simp [bucketObligations]
    rw [windows, List.append_nil, slotsOf_ofBlocks, length]
    exact List.Perm.refl _
  settles final later _ redeemed := by
    rw [Memory.held_eq_slice, ← length] at held
    obtain ⟨results, kept, slices, rfl⟩ := redeemed.blocks empty held
    rw [← length, ← Nat.add_zero window.offset, slices]
    exact met results kept
  given := by simp

end Ledger

end RadixSort
