import RadixSort.Lsd.Block
import RadixSort.Proofs.Partition.Scatter
import Mathlib.Logic.Function.Basic

/-!
# What a scatter through blocks writes

A block stands for the list of elements it holds, which are still to be sent. The
elements held for a bucket come before those of the bucket that are still to be read,
and together they stand in the target from the bucket's cursor on. A block is sent
before it could overflow, so it never holds a full block of elements between two
elements of the scatter.
-/
namespace RadixSort.Lsd

variable {α : Type} {radix : Nat}

namespace Block

/-- The filled slots of a block hold these elements. -/
structure Stores (block : Block α) (held : List α) : Prop where
  fill : block.fill = held.length
  slots : block.slots.toList.take held.length = held.map some

/-- An empty block holds nothing. -/
theorem stores_empty : (empty : Block α).Stores [] := ⟨rfl, rfl⟩

/-- A block that has been reset holds nothing, whatever its slots remember. -/
theorem stores_reset (block : Block α) : block.reset.Stores [] := ⟨rfl, rfl⟩

/-- A block with a free slot takes one more element. -/
theorem put_exact {block : Block α} {held : List α} (stores : block.Stores held)
    (room : held.length < blockSlots) (x : α) :
    ∃ filled, block.put x = .ok filled ∧ filled.Stores (held ++ [x]) := by
  have free : block.fill < blockSlots := by rw [stores.fill]; exact room
  refine ⟨⟨block.slots.set block.fill (some x), block.fill + 1⟩, dif_pos free, ?_, ?_⟩
  · simp [stores.fill]
  · have kept := stores.slots
    simp only [stores.fill, Vector.toList_set, List.length_append, List.length_singleton,
      List.map_append, List.map_cons, List.map_nil]
    rw [List.take_add_one, List.take_set_of_le (Nat.le_refl _), kept]
    simp [room]

/-- Sending a block writes the elements it holds to consecutive slots. -/
theorem mem_send_iff {block : Block α} {held : List α} (stores : block.Stores held)
    (start slot : Nat) (x : α) :
    (slot, x) ∈ block.send start ↔ start ≤ slot ∧ held[slot - start]? = some x := by
  simp only [send, stores.fill, stores.slots, List.mem_filterMap, Option.map_eq_some_iff,
    Prod.exists, Prod.mk.injEq]
  constructor
  · rintro ⟨cell, target, member, y, rfl, rfl, rfl⟩
    obtain ⟨low, found⟩ := List.mk_mem_zipIdx_iff_le_and_getElem?_sub.mp member
    exact ⟨low, by simpa using found⟩
  · rintro ⟨low, found⟩
    exact ⟨some x, slot, List.mk_mem_zipIdx_iff_le_and_getElem?_sub.mpr ⟨low, by simp [found]⟩,
      x, rfl, rfl, rfl⟩

end Block

namespace Outgoing

variable {key : α → Fin radix} {target : List α} {next : Vector Nat radix}
  {held : Fin radix → List α}

/-- Every block holds the elements listed for its bucket. -/
def Stores (blocks : Vector (Block α) radix) (held : Fin radix → List α) : Prop :=
  ∀ bucket : Fin radix, (blocks.get bucket).Stores (held bucket)

/-- What is held for a bucket, and after it what is still to come, stands in the
target from the bucket's cursor on. -/
def Stands (key : α → Fin radix) (target : List α) (next : Vector Nat radix)
    (held : Fin radix → List α) (elements : List α) : Prop :=
  ∀ (bucket : Fin radix) (place : Nat) (x : α),
    (held bucket ++ elements.filter (key · = bucket))[place]? = some x →
      target[next.get bucket + place]? = some x

/-- One past the last slot that a bucket will be sent to. -/
def extent (key : α → Fin radix) (next : Vector Nat radix) (held : Fin radix → List α)
    (elements : List α) (bucket : Fin radix) : Nat :=
  next.get bucket + (held bucket ++ elements.filter (key · = bucket)).length

/-- Changing one block changes what is held for its bucket alone. -/
theorem Stores.set {blocks : Vector (Block α) radix} (stores : Stores blocks held)
    {bucket : Fin radix} {block : Block α} {kept : List α} (stored : block.Stores kept) :
    Stores (assign blocks bucket block) (Function.update held bucket kept) := by
  intro other
  by_cases same : other = bucket
  · subst same
    simpa using stored
  · rw [get_assign_of_ne _ (Ne.symm same), Function.update_of_ne same]
    exact stores other

/-- Keeping the next element in its block changes nothing about where it goes. -/
theorem kept_append (held : Fin radix → List α) (x : α) (rest : List α) (bucket : Fin radix) :
    Function.update held (key x) (held (key x) ++ [x]) bucket ++ rest.filter (key · = bucket) =
      held bucket ++ (x :: rest).filter (key · = bucket) := by
  by_cases same : key x = bucket
  · subst same
    rw [Function.update_self, Scatter.filter_cons_own, List.append_assoc, List.singleton_append]
  · rw [Function.update_of_ne (Ne.symm same), Scatter.filter_cons_other rest same]

/-- What is held for a bucket can be sent to the slots from its cursor on. -/
theorem Stands.agrees_send {elements : List α} (stands : Stands key target next held elements)
    {bucket : Fin radix} {block : Block α} (stored : block.Stores (held bucket)) :
    Agrees target (block.send (next.get bucket)) := by
  intro write member
  obtain ⟨low, found⟩ := (Block.mem_send_iff stored _ _ _).mp member
  have here := stands bucket (write.1 - next.get bucket) write.2 (by
    rw [List.getElem?_append_left (List.getElem?_eq_some_iff.mp found).1]
    exact found)
  rwa [Nat.add_sub_cancel' low] at here

/-- Sending what is held reaches one slot for each of the elements. -/
theorem reaches_send {block : Block α} {kept : List α} (stored : block.Stores kept)
    {start slot : Nat} (low : start ≤ slot) (high : slot < start + kept.length) :
    Reaches (block.send start) slot := by
  have found := List.getElem?_eq_getElem (l := kept) (i := slot - start) (by omega)
  exact ⟨_, (Block.mem_send_iff stored _ _ _).mpr ⟨low, found⟩⟩

/-- After a block has been sent, what is still to come stands behind it. -/
theorem Stands.sent {elements : List α} (stands : Stands key target next held elements)
    (bucket : Fin radix) :
    Stands key target (assign next bucket (next.get bucket + (held bucket).length))
      (Function.update held bucket []) elements := by
  intro other place x found
  by_cases same : other = bucket
  · subst same
    rw [Function.update_self, List.nil_append] at found
    rw [get_assign_self, Nat.add_assoc]
    apply stands
    rw [List.getElem?_append_right (Nat.le_add_right _ _), Nat.add_sub_cancel_left]
    exact found
  · rw [Function.update_of_ne same] at found
    rw [get_assign_of_ne _ (Ne.symm same)]
    exact stands other place x found

/-- Sending a block does not change where its bucket ends. -/
theorem extent_sent (elements : List α) (bucket other : Fin radix) :
    extent key (assign next bucket (next.get bucket + (held bucket).length))
      (Function.update held bucket []) elements other = extent key next held elements other := by
  unfold extent
  by_cases same : other = bucket
  · subst same
    rw [Function.update_self, get_assign_self, List.nil_append, List.length_append, Nat.add_assoc]
  · rw [Function.update_of_ne same, get_assign_of_ne _ (Ne.symm same)]

/-- Feeding an element keeps it in its block, or sends the block that it fills. What
is sent agrees with the target and reaches the slots that the cursors pass. -/
theorem feed_exact {blocks : Vector (Block α) radix} {x : α} {rest : List α}
    (stores : Stores blocks held) (room : ∀ bucket, (held bucket).length < blockSlots)
    (stands : Stands key target next held (x :: rest)) :
    ∃ writes after kept, feed key ⟨next, blocks⟩ x = .ok (writes, after) ∧
      Stores after.blocks kept ∧ (∀ bucket, (kept bucket).length < blockSlots) ∧
      Stands key target after.next kept rest ∧ Agrees target writes ∧
      (∀ bucket, extent key after.next kept rest bucket = extent key next held (x :: rest) bucket) ∧
      ∀ (bucket : Fin radix) (slot : Nat), next.get bucket ≤ slot → slot < after.next.get bucket →
        Reaches writes slot := by
  obtain ⟨filled, put, stored⟩ := Block.put_exact (stores (key x)) (room (key x)) x
  let grown := Function.update held (key x) (held (key x) ++ [x])
  have own : grown (key x) = held (key x) ++ [x] := Function.update_self ..
  have standing : Stands key target next grown rest := by
    intro bucket place y found
    exact stands bucket place y (kept_append held x rest bucket ▸ found)
  have unchanged (bucket : Fin radix) :
      extent key next grown rest bucket = extent key next held (x :: rest) bucket := by
    rw [extent, kept_append]
    rfl
  by_cases full : filled.fill = blockSlots
  · have length : (grown (key x)).length = blockSlots := by rw [own, ← stored.fill, full]
    refine ⟨filled.send (next.get (key x)), ⟨assign next (key x) (next.get (key x) + blockSlots),
      assign blocks (key x) filled.reset⟩, Function.update grown (key x) [],
      ?_, ?_, ?_, ?_, ?_, ?_, ?_⟩
    · exact bind_eq_ok.mpr ⟨filled, put, by simp [full]; rfl⟩
    · rw [Function.update_idem]
      exact stores.set (Block.stores_reset filled)
    · intro bucket
      rw [Function.update_idem]
      by_cases same : bucket = key x
      · simp [same, blockSlots]
      · simpa [same] using room bucket
    · rw [← length]
      exact standing.sent (key x)
    · exact standing.agrees_send (own ▸ stored)
    · intro bucket
      have same := @extent_sent _ _ key next grown rest (key x) bucket
      rw [length] at same
      exact same.trans (unchanged bucket)
    · intro bucket slot low high
      by_cases same : bucket = key x
      · subst same
        rw [get_assign_self, ← length] at high
        exact reaches_send (own ▸ stored) low high
      · rw [get_assign_of_ne _ (Ne.symm same)] at high
        omega
  · refine ⟨[], ⟨next, assign blocks (key x) filled⟩, grown, ?_, ?_, ?_, standing, by simp [Agrees],
      unchanged, ?_⟩
    · exact bind_eq_ok.mpr ⟨filled, put, by simp [full]; rfl⟩
    · exact stores.set stored
    · intro bucket
      by_cases same : bucket = key x
      · subst same
        have before := room (key x)
        have now := stored.fill
        rw [own]
        simp only [List.length_append, List.length_singleton] at now ⊢
        omega
      · simpa [grown, same] using room bucket
    · intro bucket slot low high
      exact absurd low (Nat.not_le_of_lt high)

/-- A scatter through blocks ends without a fault, agrees with a target in which its
elements stand, and reaches one slot for each of them.

Induct over the elements still to be fed. Feeding one keeps all that the blocks hold
and all that is to come standing in the target, and leaves the extent of each bucket
as it was; so the slots passed now and the slots reached later make up the extent. -/
theorem scatter_exact {blocks : Vector (Block α) radix} {elements : List α}
    (stores : Stores blocks held) (room : ∀ bucket, (held bucket).length < blockSlots)
    (stands : Stands key target next held elements) :
    ∃ writes, scatter key ⟨next, blocks⟩ elements = .ok writes ∧ Agrees target writes ∧
      ∀ (bucket : Fin radix) (slot : Nat), next.get bucket ≤ slot →
        slot < extent key next held elements bucket → Reaches writes slot := by
  induction elements generalizing next blocks held with
  | nil =>
    refine ⟨_, rfl, ?_, ?_⟩
    · intro write member
      obtain ⟨bucket, -, sent⟩ := List.mem_flatMap.mp member
      exact stands.agrees_send (stores bucket) write sent
    · intro bucket slot low high
      rw [extent, List.filter_nil, List.append_nil] at high
      obtain ⟨x, sent⟩ := reaches_send (stores bucket) low high
      exact ⟨x, List.mem_flatMap.mpr ⟨bucket, List.mem_finRange _, sent⟩⟩
  | cons x rest ih =>
    obtain ⟨writes, after, kept, fed, stored, space, standing, agrees, extents, reached⟩ :=
      feed_exact stores room stands
    obtain ⟨later, ran, laterAgrees, laterReached⟩ := ih stored space standing
    refine ⟨writes ++ later, ?_, ?_, ?_⟩
    · exact bind_eq_ok.mpr ⟨_, fed, bind_eq_ok.mpr ⟨_, ran, rfl⟩⟩
    · intro write member
      rcases List.mem_append.mp member with here | there
      · exact agrees write here
      · exact laterAgrees write there
    · intro bucket slot low high
      rcases Nat.lt_or_ge slot (after.next.get bucket) with passed | ahead
      · obtain ⟨y, member⟩ := reached bucket slot low passed
        exact ⟨y, List.mem_append_left _ member⟩
      · obtain ⟨y, member⟩ := laterReached bucket slot ahead (extents bucket ▸ high)
        exact ⟨y, List.mem_append_right _ member⟩

/-- A scatter that begins with empty blocks reaches exactly as far as one that sends
every element straight to its slot. -/
theorem scatter_opened_exact {starts : Vector Nat radix} {elements : List α}
    (stands : Scatter.Rises key target starts elements) :
    ∃ writes, scatter key (opened starts) elements = .ok writes ∧ Agrees target writes ∧
      ∀ (bucket : Fin radix) (slot : Nat), starts.get bucket ≤ slot →
        slot < starts.get bucket + (elements.filter (key · = bucket)).length →
          Reaches writes slot := by
  apply @scatter_exact _ _ key target starts fun _ => []
  · intro bucket
    have empty : (Vector.replicate radix (Block.empty : Block α)).get bucket = .empty :=
      Vector.getElem_replicate bucket.isLt
    rw [empty]
    exact Block.stores_empty
  · intro bucket
    simp [blockSlots]
  · exact stands

end Outgoing

end RadixSort.Lsd
