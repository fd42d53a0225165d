import RadixSort.Proofs.Classes
import RadixSort.Proofs.Lsd.Block

/-!
# How full the blocks are

Between two elements of a scatter, each block holds the elements of its bucket that were
read since it was last sent. A block is sent at every 32nd element of its bucket, so what it
holds is the remainder of a division by 32, and the elements before that have gone, in their
order, to the first slots of the bucket's share. In the end a scatter through blocks has sent
each bucket's elements to where a scatter without blocks would have sent them.
-/
namespace RadixSort

variable {α : Type} {radix : Nat}

/-- The writes of values to consecutive slots from `start` on. -/
def placed (start : Nat) (values : List α) : List (SlotWrite α) :=
  (values.zipIdx start).map Prod.swap

/-- More values go to the slots behind. -/
theorem placed_append (start : Nat) (first second : List α) :
    placed start (first ++ second) =
      placed start first ++ placed (start + first.length) second := by
  simp only [placed, List.zipIdx_append, List.map_append]

/-- The slots are consecutive, and each stores the value in its place. -/
theorem mem_placed_iff {start slot : Nat} {values : List α} {x : α} :
    (slot, x) ∈ placed start values ↔ start ≤ slot ∧ values[slot - start]? = some x := by
  rw [← List.mk_mem_zipIdx_iff_le_and_getElem?_sub]
  constructor
  · intro member
    obtain ⟨⟨y, target⟩, found, same⟩ := List.mem_map.mp member
    obtain ⟨rfl, rfl⟩ := Prod.mk.inj same
    exact found
  · intro found
    exact List.mem_map.mpr ⟨(x, slot), found, rfl⟩

/-- The writes of values of one bucket are writes of that bucket. -/
theorem filter_placed_own {key : α → Fin radix} {bucket : Fin radix} {start : Nat}
    {values : List α} (own : ∀ x ∈ values, key x = bucket) :
    (placed start values).filter (key ·.2 = bucket) = placed start values := by
  apply List.filter_eq_self.mpr
  rintro ⟨slot, x⟩ member
  obtain ⟨-, found⟩ := mem_placed_iff.mp member
  simpa using own x (List.mem_of_getElem? found)

/-- The writes of values of one bucket are writes of no other. -/
theorem filter_placed_other {key : α → Fin radix} {bucket other : Fin radix} {start : Nat}
    {values : List α} (own : ∀ x ∈ values, key x = bucket) (different : bucket ≠ other) :
    (placed start values).filter (key ·.2 = other) = [] := by
  apply List.filter_eq_nil_iff.mpr
  rintro ⟨slot, x⟩ member
  obtain ⟨-, found⟩ := mem_placed_iff.mp member
  simpa [own x (List.mem_of_getElem? found)] using different

/-- The writes for each bucket send its elements, in their order, to consecutive slots from
the start of the bucket on. -/
def Places (key : α → Fin radix) (starts : Vector Nat radix) (elements : List α)
    (writes : List (SlotWrite α)) : Prop :=
  ∀ bucket : Fin radix, writes.filter (key ·.2 = bucket) =
    placed (starts.get bucket) (elements.filter (key · = bucket))

/-- A scatter with rising cursors places its elements. -/
theorem Scatter.places_rising (key : α → Fin radix) (starts : Vector Nat radix)
    (elements : List α) : Places key starts elements (rising key starts elements) := by
  induction elements generalizing starts with
  | nil => intro bucket; rfl
  | cons x rest ih =>
    intro bucket
    have later := ih (assign starts (key x) (starts.get (key x) + 1)) bucket
    by_cases same : key x = bucket
    · subst same
      rw [get_assign_self] at later
      rw [rising, List.filter_cons_of_pos (by simp), later, filter_cons_own]
      rfl
    · rw [get_assign_of_ne starts same] at later
      rw [rising, List.filter_cons_of_neg (by simpa using same), later,
        filter_cons_other rest same]

namespace Lsd

/-- A block sends the elements that it holds, and no other slot of it. -/
theorem Block.send_eq {block : Block α} {held : List α} (stores : block.Stores held)
    (start : Nat) : block.send start = placed start held := by
  have each : (fun entry : Option α × Nat => entry.1.map fun x => (entry.2, x)) ∘
      Prod.map some id = fun entry : α × Nat => some entry.swap := rfl
  rw [send, stores.fill, stores.slots, List.zipIdx_map, List.filterMap_map, each,
    List.filterMap_eq_map', placed]

/-- The elements of a bucket, among those read, that have been sent. -/
def flushed (key : α → Fin radix) (read : List α) (bucket : Fin radix) : Nat :=
  read.countP (key · = bucket) / blockSlots * blockSlots

/-- The elements of a bucket that were read since its block was last sent. -/
def unsent (key : α → Fin radix) (read : List α) (bucket : Fin radix) : List α :=
  (read.filter (key · = bucket)).drop (flushed key read bucket)

section Unsent

variable {key : α → Fin radix} {read : List α} {x : α} {bucket : Fin radix}

/-- What was read since a block was last sent is less than a block. -/
theorem length_unsent (key : α → Fin radix) (read : List α) (bucket : Fin radix) :
    (unsent key read bucket).length = read.countP (key · = bucket) % blockSlots := by
  have parts := Nat.div_add_mod (read.countP (key · = bucket)) blockSlots
  rw [unsent, List.length_drop, ← List.countP_eq_length_filter, flushed, Nat.mul_comm]
  omega

theorem own_of_mem_unsent (member : x ∈ unsent key read bucket) : key x = bucket := by
  simpa using (List.mem_filter.mp (List.mem_of_mem_drop member)).2

theorem filter_concat_own (key : α → Fin radix) (read : List α) (x : α) :
    (read ++ [x]).filter (key · = key x) = read.filter (key · = key x) ++ [x] := by
  simp

theorem filter_concat_other (different : key x ≠ bucket) :
    (read ++ [x]).filter (key · = bucket) = read.filter (key · = bucket) := by
  simp [different]

/-- Reading an element of another bucket sends nothing of this one. -/
theorem flushed_concat_other (different : key x ≠ bucket) :
    flushed key (read ++ [x]) bucket = flushed key read bucket := by
  rw [flushed, List.countP_append, List.countP_singleton, if_neg (by simpa using different)]
  rfl

/-- Reading an element of another bucket leaves what is unsent of this one. -/
theorem unsent_concat_other (different : key x ≠ bucket) :
    unsent key (read ++ [x]) bucket = unsent key read bucket := by
  rw [unsent, flushed_concat_other different, filter_concat_other different, unsent]

/-- As long as a block has room for more, reading an element of its bucket sends nothing. -/
theorem flushed_concat (room : read.countP (key · = key x) % blockSlots + 1 < blockSlots) :
    flushed key (read ++ [x]) (key x) = flushed key read (key x) := by
  have count : (read ++ [x]).countP (key · = key x) = read.countP (key · = key x) + 1 := by
    simp
  rw [flushed, flushed, count]
  unfold blockSlots at room ⊢
  omega

/-- An element that fills a block has the whole block sent. -/
theorem flushed_concat_full (full : read.countP (key · = key x) % blockSlots + 1 = blockSlots) :
    flushed key (read ++ [x]) (key x) = flushed key read (key x) + blockSlots := by
  have count : (read ++ [x]).countP (key · = key x) = read.countP (key · = key x) + 1 := by
    simp
  rw [flushed, flushed, count]
  unfold blockSlots at full ⊢
  omega

/-- What has been sent of a bucket was read. -/
theorem flushed_le (key : α → Fin radix) (read : List α) (bucket : Fin radix) :
    flushed key read bucket ≤ (read.filter (key · = bucket)).length := by
  rw [← List.countP_eq_length_filter]
  exact Nat.div_mul_le_self _ _

@[simp] theorem unsent_nil (key : α → Fin radix) (bucket : Fin radix) :
    unsent key [] bucket = [] := by
  simp [unsent]

/-- An element belongs to the block that holds it, or is put into it. -/
theorem own_of_mem_concat : ∀ y ∈ unsent key read (key x) ++ [x], key y = key x := by
  intro y member
  rcases List.mem_append.mp member with before | last
  · exact own_of_mem_unsent before
  · rw [List.mem_singleton.mp last]

end Unsent

namespace Outgoing

variable {key : α → Fin radix} {starts : Vector Nat radix} {read : List α}
  {sent : List (SlotWrite α)} {outgoing : Outgoing α radix}

/-- After some elements have been read, each block holds those of its bucket that were read
since it was last sent, and those before have been sent to the first slots of the bucket's
share, up to its cursor. -/
structure Fed (key : α → Fin radix) (starts : Vector Nat radix) (read : List α)
    (sent : List (SlotWrite α)) (outgoing : Outgoing α radix) : Prop where
  stores : Stores outgoing.blocks (unsent key read)
  next : ∀ bucket : Fin radix,
    outgoing.next.get bucket = starts.get bucket + flushed key read bucket
  sent : ∀ bucket : Fin radix, sent.filter (key ·.2 = bucket) =
    placed (starts.get bucket) ((read.filter (key · = bucket)).take (flushed key read bucket))

/-- Between two elements no block is full. -/
theorem Fed.fill_lt (fed : Fed key starts read sent outgoing) (bucket : Fin radix) :
    (outgoing.blocks.get bucket).fill < blockSlots := by
  rw [(fed.stores bucket).fill, length_unsent]
  exact Nat.mod_lt _ (by decide)

/-- What a block would send are the elements that it was given since it was last sent. -/
theorem Fed.send_eq (fed : Fed key starts read sent outgoing) (bucket : Fin radix) :
    (outgoing.blocks.get bucket).send (outgoing.next.get bucket) =
      placed (outgoing.next.get bucket) (unsent key read bucket) :=
  Block.send_eq (fed.stores bucket) _

/-- Before the first element all blocks are empty and nothing has been sent. -/
theorem fed_opened (key : α → Fin radix) (starts : Vector Nat radix) :
    Fed key starts [] [] (opened starts) where
  stores bucket := by
    have empty : (Vector.replicate radix (Block.empty : Block α)).get bucket = .empty :=
      Vector.getElem_replicate bucket.isLt
    change Block.Stores ((Vector.replicate radix Block.empty).get bucket) _
    rw [empty, unsent_nil]
    exact Block.stores_empty
  next bucket := by simp [flushed, opened]
  sent bucket := by simp [placed]

/-- There is room for one more element in its block. -/
theorem Fed.put (fed : Fed key starts read sent outgoing) (x : α) :
    ∃ filled, (outgoing.blocks.get (key x)).put x = .ok filled ∧
      filled.Stores (unsent key read (key x) ++ [x]) ∧
      filled.fill = read.countP (key · = key x) % blockSlots + 1 := by
  have room : (unsent key read (key x)).length < blockSlots := by
    rw [length_unsent]
    exact Nat.mod_lt _ (by decide)
  obtain ⟨filled, put, stored⟩ := Block.put_exact (fed.stores (key x)) room x
  refine ⟨filled, put, stored, ?_⟩
  rw [stored.fill, List.length_append, length_unsent, List.length_singleton]

/-- A block that is filled by an element is sent, and its cursor moves on by a whole block. -/
theorem Fed.full (fed : Fed key starts read sent outgoing) {x : α} {filled : Block α}
    (stored : filled.Stores (unsent key read (key x) ++ [x])) (full : filled.fill = blockSlots)
    (fill : filled.fill = read.countP (key · = key x) % blockSlots + 1) :
    Fed key starts (read ++ [x])
      (sent ++ placed (outgoing.next.get (key x)) (unsent key read (key x) ++ [x]))
      ⟨assign outgoing.next (key x) (outgoing.next.get (key x) + blockSlots),
        assign outgoing.blocks (key x) filled.reset⟩ := by
  have whole : (read ++ [x]).filter (key · = key x) =
      (read.filter (key · = key x)).take (flushed key read (key x)) ++
        (unsent key read (key x) ++ [x]) := by
    rw [filter_concat_own, ← List.append_assoc, unsent, List.take_append_drop]
  have passed := flushed_concat_full (fill.symm.trans full)
  have before : ((read.filter (key · = key x)).take (flushed key read (key x))).length =
      flushed key read (key x) := List.length_take_of_le (flushed_le key read _)
  have all : flushed key (read ++ [x]) (key x) =
      ((read ++ [x]).filter (key · = key x)).length := by
    rw [passed, whole, List.length_append, before, ← stored.fill, full]
  constructor
  · intro bucket
    by_cases same : key x = bucket
    · subst same
      rw [get_assign_self, unsent, all, List.drop_length]
      exact Block.stores_reset filled
    · rw [get_assign_of_ne _ same, unsent_concat_other same]
      exact fed.stores bucket
  · intro bucket
    by_cases same : key x = bucket
    · subst same
      rw [get_assign_self, passed, fed.next, Nat.add_assoc]
    · rw [get_assign_of_ne _ same, flushed_concat_other same]
      exact fed.next bucket
  · intro bucket
    by_cases same : key x = bucket
    · subst same
      rw [List.filter_append, fed.sent, filter_placed_own own_of_mem_concat, fed.next, all,
        List.take_length, whole, placed_append _ (List.take _ _), before]
    · rw [List.filter_append, fed.sent, filter_placed_other own_of_mem_concat same,
        List.append_nil, flushed_concat_other same, filter_concat_other same]

/-- A block with more room keeps an element, and no cursor moves. -/
theorem Fed.kept (fed : Fed key starts read sent outgoing) {x : α} {filled : Block α}
    (stored : filled.Stores (unsent key read (key x) ++ [x]))
    (more : read.countP (key · = key x) % blockSlots + 1 < blockSlots) :
    Fed key starts (read ++ [x]) sent
      ⟨outgoing.next, assign outgoing.blocks (key x) filled⟩ := by
  have still := flushed_concat more
  constructor
  · intro bucket
    by_cases same : key x = bucket
    · subst same
      rw [get_assign_self, unsent, still, filter_concat_own,
        List.drop_append_of_le_length (flushed_le key read _)]
      exact stored
    · rw [get_assign_of_ne _ same, unsent_concat_other same]
      exact fed.stores bucket
  · intro bucket
    by_cases same : key x = bucket
    · subst same
      rw [still]
      exact fed.next _
    · rw [flushed_concat_other same]
      exact fed.next bucket
  · intro bucket
    by_cases same : key x = bucket
    · subst same
      rw [fed.sent, still, filter_concat_own,
        List.take_append_of_le_length (flushed_le key read _)]
    · rw [fed.sent, flushed_concat_other same, filter_concat_other same]

/-- Feeding one more element keeps it in its block, or sends the block that it fills; what is
sent then are the elements that the block was given since it was last sent. -/
theorem Fed.feed (fed : Fed key starts read sent outgoing) (x : α) :
    ∃ writes after, Outgoing.feed key outgoing x = .ok (writes, after) ∧
      Fed key starts (read ++ [x]) (sent ++ writes) after ∧
      (writes = [] ∨
        writes = placed (outgoing.next.get (key x)) (unsent key read (key x) ++ [x])) := by
  obtain ⟨filled, put, stored, fill⟩ := fed.put x
  by_cases full : filled.fill = blockSlots
  · refine ⟨_, _, bind_eq_ok.mpr ⟨filled, put, ?_⟩, fed.full stored full fill, .inr rfl⟩
    rw [if_pos full, ← Block.send_eq stored]
    rfl
  · have more : read.countP (key · = key x) % blockSlots + 1 < blockSlots := by
      have short := Nat.mod_lt (read.countP (key · = key x)) (by decide : 0 < blockSlots)
      omega
    have grown := fed.kept stored more
    rw [← List.append_nil sent] at grown
    refine ⟨[], _, bind_eq_ok.mpr ⟨filled, put, ?_⟩, grown, .inl rfl⟩
    rw [if_neg full]
    rfl

/-- Feed elements one after the other. The result lists what is sent meanwhile. -/
def feedAll (key : α → Fin radix) :
    Outgoing α radix → List α → Except Fault (List (SlotWrite α) × Outgoing α radix)
  | outgoing, [] => .ok ([], outgoing)
  | outgoing, x :: rest => do
    let (writes, outgoing) ← outgoing.feed key x
    let (later, outgoing) ← feedAll key outgoing rest
    return (writes ++ later, outgoing)

/-- Feeding more elements ends without a fault.

Induct over the elements to come. What has been read grows by one element at a time. -/
theorem Fed.feedAll (fed : Fed key starts read sent outgoing) (elements : List α) :
    ∃ writes after, Outgoing.feedAll key outgoing elements = .ok (writes, after) ∧
      Fed key starts (read ++ elements) (sent ++ writes) after := by
  induction elements generalizing read sent outgoing with
  | nil =>
    refine ⟨[], outgoing, rfl, ?_⟩
    rwa [List.append_nil, List.append_nil]
  | cons x rest ih =>
    obtain ⟨writes, after, ran, grown, -⟩ := fed.feed x
    obtain ⟨later, final, continued, complete⟩ := ih grown
    refine ⟨writes ++ later, final, ?_, ?_⟩
    · exact bind_eq_ok.mpr ⟨_, ran, bind_eq_ok.mpr ⟨_, continued, rfl⟩⟩
    · rwa [List.append_assoc, List.append_assoc, List.singleton_append] at complete

/-- A scatter through blocks feeds all elements and then sends what is left. -/
theorem scatter_of_feedAll {elements : List α} {writes : List (SlotWrite α)}
    {after : Outgoing α radix}
    (ran : Outgoing.feedAll key outgoing elements = .ok (writes, after)) :
    scatter key outgoing elements = .ok (writes ++ after.sendRest) := by
  induction elements generalizing outgoing writes with
  | nil =>
    obtain ⟨rfl, rfl⟩ := Prod.mk.inj (Except.ok.inj ran)
    rfl
  | cons x rest ih =>
    obtain ⟨⟨first, next⟩, fed, ran⟩ := bind_eq_ok.mp ran
    obtain ⟨⟨later, final⟩, continued, ran⟩ := bind_eq_ok.mp ran
    obtain ⟨rfl, rfl⟩ := Prod.mk.inj (Except.ok.inj ran)
    refine bind_eq_ok.mpr ⟨_, fed, bind_eq_ok.mpr ⟨_, ih continued, ?_⟩⟩
    rw [List.append_assoc]
    rfl

/-- What is left in the blocks of a bucket goes to the slots from its cursor on. -/
theorem Fed.filter_sendRest (fed : Fed key starts read sent outgoing) (bucket : Fin radix) :
    outgoing.sendRest.filter (key ·.2 = bucket) =
      placed (outgoing.next.get bucket) (unsent key read bucket) := by
  have own (other : Fin radix) : ∀ write ∈ (outgoing.blocks.get other).send
      (outgoing.next.get other), key write.2 = other := by
    rintro ⟨slot, x⟩ member
    rw [fed.send_eq other] at member
    exact own_of_mem_unsent (List.mem_of_getElem? (mem_placed_iff.mp member).2)
  rw [sendRest, Classes.filter_flatMap _ own bucket, fed.send_eq]

/-- A scatter through blocks that begins with empty ones places its elements. -/
theorem places_scatter (key : α → Fin radix) (starts : Vector Nat radix) (elements : List α) :
    ∃ writes, scatter key (opened starts) elements = .ok writes ∧
      Places key starts elements writes := by
  obtain ⟨writes, after, ran, fed⟩ := (fed_opened key starts).feedAll elements
  rw [List.nil_append, List.nil_append] at fed
  refine ⟨_, scatter_of_feedAll ran, fun bucket => ?_⟩
  have passed : ((elements.filter (key · = bucket)).take (flushed key elements bucket)).length =
      flushed key elements bucket := List.length_take_of_le (flushed_le key elements bucket)
  have split := placed_append (starts.get bucket)
    ((elements.filter (key · = bucket)).take (flushed key elements bucket))
    (unsent key elements bucket)
  rw [unsent, List.take_append_drop, passed] at split
  rw [List.filter_append, fed.sent, fed.filter_sendRest, fed.next, split, unsent]

end Outgoing

end Lsd

end RadixSort
