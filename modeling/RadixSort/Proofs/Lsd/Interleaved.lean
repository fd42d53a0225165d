import RadixSort.Interleaving
import RadixSort.Proofs.Lsd.Feeding
import RadixSort.Proofs.Lsd.Outcome
import Mathlib.Data.List.Forall2
import Mathlib.Data.List.Perm.Subperm

/-!
# The chunks of a pass at the same time

The tasks of a pass scatter their chunks at the same time. What a task writes depends on its
chunk alone, so an interleaving of the tasks is an interleaving of their writes, taken one by
one or a block at a time. Each task keeps to the shares of its chunk, and all tasks together
write each slot of the output once. The output is therefore the same in every interleaving:
the input grouped by its bytes, each group in the order of the input.
-/
namespace RadixSort

/-- An interleaving takes all actions of all lists.

Induct over the interleaving. Its first action is the first one of some list. -/
theorem Interleaving.perm {β : Type} {lists : List (List β)} {merged : List β}
    (interleaved : Interleaving lists merged) : merged.Perm lists.flatten := by
  induction interleaved with
  | done lists empty =>
    rw [List.flatten_eq_nil_iff.mpr empty]
  | next lists position action rest merged here later ih =>
    have inside : position < lists.length := (List.getElem?_eq_some_iff.mp here).1
    have whole := Blocks.flatten_eq_split here
    have shortened := Blocks.flatten_eq_split (List.getElem?_set_self inside (a := rest))
    rw [List.take_set_of_le (Nat.le_refl position), List.drop_set_of_lt (by omega)] at shortened
    rw [shortened] at ih
    rw [whole]
    exact (ih.cons action).trans List.perm_middle.symm

namespace Lsd

variable {α V : Type}

/-- Computations that all succeed are carried out one by one. -/
theorem forall₂_of_mapM {β γ : Type} {compute : β → Except Fault γ} {inputs : List β}
    {results : List γ} (ran : inputs.mapM compute = .ok results) :
    List.Forall₂ (fun input result => compute input = .ok result) inputs results := by
  induction inputs generalizing results with
  | nil =>
    obtain rfl := Except.ok.inj ran
    exact .nil
  | cons input rest ih =>
    rw [List.mapM_cons] at ran
    obtain ⟨result, computed, ran⟩ := bind_eq_ok.mp ran
    obtain ⟨later, continued, ran⟩ := bind_eq_ok.mp ran
    obtain rfl := Except.ok.inj ran
    exact .cons computed (ih continued)

/-- The scatter of one chunk with the starts of its shares. -/
def scatterChunk (variant : Variant) (byte : α → Fin 256) (starts : Vector Nat 256)
    (chunk : List α) : Except Fault (List (SlotWrite α)) :=
  match variant with
  | .cached | .recompute => .ok (Scatter.rising byte starts chunk)
  | .writeBack => Outgoing.scatter byte (.opened starts) chunk

/-- The writes of a pass are those of its chunks. -/
theorem chunkWrites_eq_mapM (variant : Variant) (byte : α → Fin 256) (chunks : List (List α)) :
    chunkWrites variant byte chunks =
      ((shares byte chunks).zip chunks).mapM fun (starts, chunk) =>
        scatterChunk variant byte starts chunk := by
  cases variant with
  | cached =>
    rw [chunkWrites_cached]
    exact (mapM_ok (Scatter.rising byte) _ _).symm
  | recompute => exact (mapM_ok (Scatter.rising byte) _ _).symm
  | writeBack => rfl

/-- In every variant a chunk's elements go to consecutive slots of their buckets. -/
theorem places_of_scatterChunk {variant : Variant} {byte : α → Fin 256}
    {starts : Vector Nat 256} {chunk : List α} {own : List (SlotWrite α)}
    (ran : scatterChunk variant byte starts chunk = .ok own) :
    Places byte starts chunk own := by
  cases variant with
  | cached =>
    obtain rfl := Except.ok.inj ran
    exact Scatter.places_rising byte starts chunk
  | recompute =>
    obtain rfl := Except.ok.inj ran
    exact Scatter.places_rising byte starts chunk
  | writeBack =>
    obtain ⟨writes, scattered, places⟩ := Outgoing.places_scatter byte starts chunk
    obtain rfl := Except.ok.inj (scattered.symm.trans ran)
    exact places

/-- A chunk writes each of its elements once, and each within the share of the chunk in the
bucket of that element. -/
structure KeepsToShares (byte : α → Fin 256) (starts : Vector Nat 256) (chunk : List α)
    (own : List (SlotWrite α)) : Prop where
  elements : (own.map Prod.snd).Perm chunk
  within : ∀ write ∈ own, starts.get (byte write.2) ≤ write.1 ∧
    write.1 < starts.get (byte write.2) + chunk.countP (byte · = byte write.2)

/-- What goes to consecutive slots keeps to the shares. -/
theorem keepsToShares_of_places {byte : α → Fin 256} {starts : Vector Nat 256} {chunk : List α}
    {own : List (SlotWrite α)} (places : Places byte starts chunk own) :
    KeepsToShares byte starts chunk own where
  elements := by
    have each (bucket : Fin 256) : (own.filter (byte ·.2 = bucket)).map Prod.snd =
        chunk.filter (byte · = bucket) := by
      rw [places bucket, placed, List.map_map]
      exact List.zipIdx_map_fst _ _
    have writes : ((List.finRange 256).flatMap fun bucket =>
        own.filter (byte ·.2 = bucket)).Perm own := Classes.flatMap_filter_perm own
    have values : ((List.finRange 256).flatMap fun bucket =>
        chunk.filter (byte · = bucket)).Perm chunk := Classes.flatMap_filter_perm chunk
    have same : ((List.finRange 256).flatMap fun bucket =>
          own.filter (byte ·.2 = bucket)).map Prod.snd =
        (List.finRange 256).flatMap fun bucket => chunk.filter (byte · = bucket) := by
      rw [List.map_flatMap]
      exact List.flatMap_congr fun bucket _ => each bucket
    exact ((writes.map Prod.snd).symm.trans (List.Perm.of_eq same)).trans values
  within := by
    rintro ⟨slot, x⟩ member
    have filtered : (slot, x) ∈ own.filter (byte ·.2 = byte x) :=
      List.mem_filter.mpr ⟨member, by simp⟩
    rw [places, mem_placed_iff] at filtered
    obtain ⟨low, found⟩ := filtered
    have high := (List.getElem?_eq_some_iff.mp found).1
    rw [← List.countP_eq_length_filter] at high
    refine ⟨low, ?_⟩
    change slot < starts.get (byte x) + chunk.countP (byte · = byte x)
    omega

/-- Where a scatter through blocks stands between two elements of its chunk: what it has sent
comes first among all its writes; every block has room for one more element; and a block
would send, now or when the next element fills it, only what it was given since it was last
sent. -/
structure Midway (byte : α → Fin 256) (starts : Vector Nat 256) (read : List α)
    (own sent : List (SlotWrite α)) (outgoing : Outgoing α 256) : Prop where
  ran : Outgoing.feedAll byte (.opened starts) read = .ok (sent, outgoing)
  first : sent <+: own
  fed : Outgoing.Fed byte starts read sent outgoing
  room : ∀ bucket : Fin 256, (outgoing.blocks.get bucket).fill < blockSlots
  unsent : ∀ bucket : Fin 256, (outgoing.blocks.get bucket).send (outgoing.next.get bucket) =
    placed (outgoing.next.get bucket) (unsent byte read bucket)
  feeds : ∀ x, ∃ writes after, outgoing.feed byte x = .ok (writes, after) ∧
    (writes = [] ∨
      writes = placed (outgoing.next.get (byte x)) (Lsd.unsent byte read (byte x) ++ [x]))

/-- Feeding some elements and then others feeds all of them. -/
theorem Outgoing.feedAll_append {radix : Nat} {key : α → Fin radix}
    {outgoing middle after : Outgoing α radix} {first second : List α}
    {sent later : List (SlotWrite α)}
    (before : Outgoing.feedAll key outgoing first = .ok (sent, middle))
    (behind : Outgoing.feedAll key middle second = .ok (later, after)) :
    Outgoing.feedAll key outgoing (first ++ second) = .ok (sent ++ later, after) := by
  induction first generalizing outgoing sent with
  | nil =>
    obtain ⟨rfl, rfl⟩ := Prod.mk.inj (Except.ok.inj before)
    exact behind
  | cons x rest ih =>
    obtain ⟨⟨writes, next⟩, fed, before⟩ := bind_eq_ok.mp before
    obtain ⟨⟨more, last⟩, continued, before⟩ := bind_eq_ok.mp before
    obtain ⟨rfl, rfl⟩ := Prod.mk.inj (Except.ok.inj before)
    refine bind_eq_ok.mpr ⟨_, fed, bind_eq_ok.mpr ⟨_, ih continued, ?_⟩⟩
    rw [List.append_assoc]
    rfl

/-- Between any two elements a scatter through blocks stands midway. -/
theorem midway_of_scatter {byte : α → Fin 256} {starts : Vector Nat 256} {read rest : List α}
    {own : List (SlotWrite α)}
    (ran : Outgoing.scatter byte (.opened starts) (read ++ rest) = .ok own) :
    ∃ sent outgoing, Midway byte starts read own sent outgoing := by
  obtain ⟨sent, outgoing, before, fed⟩ := (Outgoing.fed_opened byte starts).feedAll read
  obtain ⟨later, after, behind, -⟩ := fed.feedAll rest
  rw [List.nil_append, List.nil_append] at fed
  have scattered := Outgoing.scatter_of_feedAll (Outgoing.feedAll_append before behind)
  obtain rfl := Except.ok.inj (scattered.symm.trans ran)
  refine ⟨sent, outgoing, before, ?_, fed, fed.fill_lt, fed.send_eq, fun x => ?_⟩
  · rw [List.append_assoc]
    exact List.prefix_append _ _
  · obtain ⟨writes, next, stepped, -, only⟩ := fed.feed x
    exact ⟨writes, next, stepped, only⟩

/-- As many writes as there are slots, which reach every slot, reach each of them once. -/
theorem slots_perm_range {writes : List (SlotWrite α)} {count : Nat}
    (length : writes.length = count) (reached : ∀ slot < count, Reaches writes slot) :
    (writes.map Prod.fst).Perm (List.range count) := by
  have covered : List.range count ⊆ writes.map Prod.fst := by
    intro slot member
    obtain ⟨x, written⟩ := reached slot (List.mem_range.mp member)
    exact List.mem_map.mpr ⟨_, written, rfl⟩
  have fewer := List.subperm_of_subset List.nodup_range covered
  refine (fewer.perm_of_length_le ?_).symm
  rw [List.length_map, List.length_range, length]

/-- The elements grouped by a byte in ascending order, each group in the order of the input. -/
def grouped (byte : α → Fin 256) (input : Array α) : Array α :=
  ((List.finRange 256).flatMap fun bucket => input.toList.filter (byte · = bucket)).toArray

section Chunks

variable {variant : Variant} {byte : α → Fin 256} {chunks : List (List α)}
  {writes : List (List (SlotWrite α))}

/-- Each chunk's writes are the scatter of that chunk with the starts of its shares. -/
theorem scatterChunk_of_chunkWrites (written : chunkWrites variant byte chunks = .ok writes)
    {part : Nat} {starts : Vector Nat 256} {chunk : List α}
    (line : (shares byte chunks)[part]? = some starts) (here : chunks[part]? = some chunk) :
    ∃ own, writes[part]? = some own ∧ scatterChunk variant byte starts chunk = .ok own := by
  rw [chunkWrites_eq_mapM] at written
  have each := forall₂_of_mapM written
  have pair : ((shares byte chunks).zip chunks)[part]? = some (starts, chunk) :=
    List.getElem?_zip_eq_some.mpr ⟨line, here⟩
  obtain ⟨valid, same⟩ := List.getElem?_eq_some_iff.mp pair
  have inside : part < writes.length := each.length_eq ▸ valid
  have ran := each.get valid inside
  rw [List.get_eq_getElem, same] at ran
  exact ⟨_, List.getElem?_eq_getElem inside, ran⟩

/-- All chunks together write as often as they have elements. -/
theorem length_chunkWrites (written : chunkWrites variant byte chunks = .ok writes) :
    writes.flatten.length = chunks.flatten.length := by
  rw [chunkWrites_eq_mapM] at written
  have each : List.Forall₂ (fun pair own => (own.map Prod.snd).Perm (Prod.snd pair))
      ((shares byte chunks).zip chunks) writes :=
    (forall₂_of_mapM written).imp fun pair own ran =>
      (keepsToShares_of_places (places_of_scatterChunk ran)).elements
  have lengths : writes.map List.length =
      (((shares byte chunks).zip chunks).map Prod.snd).map List.length := by
    rw [List.map_map, ← List.forall₂_eq_eq_eq, List.forall₂_map_left_iff,
      List.forall₂_map_right_iff]
    exact each.flip.imp fun own pair perm => by
      simpa using perm.length_eq
  rw [List.map_snd_zip (Nat.le_of_eq (length_shares byte chunks).symm)] at lengths
  rw [List.length_flatten, List.length_flatten, lengths]

end Chunks

/-- In any interleaving of the chunks' steps, each of which makes some of the chunk's writes,
every slot is written once and the output ends up grouped. -/
theorem interleaved_exact {variant : Variant} {byte : α → Fin 256} {chunkLength : Nat}
    {input output : Array α} (positive : 0 < chunkLength) (same : output.size = input.size)
    {writes : List (List (SlotWrite α))}
    (written : chunkWrites variant byte (chunksOf chunkLength input.toList) = .ok writes)
    {steps : List (List (List (SlotWrite α)))} {merged : List (List (SlotWrite α))}
    (divided : steps.map List.flatten = writes) (interleaved : Interleaving steps merged) :
    (merged.flatten.map Prod.fst).Perm (List.range input.size) ∧
      applyWrites output 0 merged.flatten = grouped byte input := by
  obtain ⟨others, again, agrees, reached⟩ :=
    chunkWrites_exact variant byte (chunksOf chunkLength input.toList)
  obtain rfl := Except.ok.inj (again.symm.trans written)
  have target := flatten_blocks byte (chunksOf chunkLength input.toList)
  rw [flatten_chunksOf positive] at target
  have length : (Shares.blocks id byte (chunksOf chunkLength input.toList)).flatten.length =
      input.size := by
    rw [target, (Classes.flatMap_filter_perm input.toList).length_eq, Array.length_toList]
  have perm : merged.flatten.Perm others.flatten := by
    rw [← divided, ← List.flatten_flatten]
    exact interleaved.perm.flatten
  have count : merged.flatten.length = input.size := by
    rw [perm.length_eq, length_chunkWrites written, flatten_chunksOf positive,
      Array.length_toList]
  have reaches (slot : Nat) (inside : slot < input.size) : Reaches merged.flatten slot := by
    obtain ⟨x, member⟩ := reached slot (length.symm ▸ inside)
    exact ⟨x, perm.mem_iff.mpr member⟩
  constructor
  · exact slots_perm_range count reaches
  · apply Array.toList_inj.mp
    have inside : 0 + (Shares.blocks id byte (chunksOf chunkLength input.toList)).flatten.length ≤
        output.size := by
      rw [length, same, Nat.zero_add]
    have stored := slice_applyWrites inside
      (fun write member => agrees write (perm.mem_iff.mp member))
      (fun slot within => reaches slot (length ▸ within))
    rw [length, ← same, ← size_applyWrites output 0 merged.flatten, slice_all] at stored
    rw [stored, target]
    rfl

/-- A pass by one byte of the keys, in any variant and with any chunks, is one stable counting
sort. Each chunk keeps to its shares. However the tasks' writes are divided into steps and
these interleaved, every slot of the output is written once and no other, and the output is the
input grouped by the byte; so it is in the pass as a whole, which leaves its input as it was.
In the variant with blocks, no block is ever full between two elements, and what is sent of a
block is what it was given since it was last sent. -/
theorem pass_interleaved (variant : Variant) {format : KeyFormat V} (narrow : format.bytes ≤ 16)
    {number : Nat} (within : number < format.bytes) (key : α → V) {chunkLength : Nat}
    (positive : 0 < chunkLength) {input output : Array α} (same : output.size = input.size) :
    ∃ byte : α → Fin 256, (∀ x, format.lsdByte (key x) number = .ok (byte x)) ∧
      ∃ writes, chunkWrites variant byte (chunksOf chunkLength input.toList) = .ok writes ∧
        writes.length = (chunksOf chunkLength input.toList).length ∧
        (∀ (part : Nat) (starts : Vector Nat 256) (chunk : List α),
          (shares byte (chunksOf chunkLength input.toList))[part]? = some starts →
          (chunksOf chunkLength input.toList)[part]? = some chunk →
          ∃ own, writes[part]? = some own ∧ KeepsToShares byte starts chunk own ∧
            (variant = .writeBack → ∀ read rest, chunk = read ++ rest →
              ∃ sent outgoing, Midway byte starts read own sent outgoing)) ∧
        (∀ (steps : List (List (List (SlotWrite α)))) (merged : List (List (SlotWrite α))),
          steps.map List.flatten = writes → Interleaving steps merged →
            (merged.flatten.map Prod.fst).Perm (List.range input.size) ∧
            applyWrites output 0 merged.flatten = grouped byte input) ∧
        pass variant (keyBytes format fun x => .ok (key x)) chunkLength number input output =
          .ok (grouped byte input) ∧
        (number % 2 = 0 → passes variant (keyBytes format fun x => .ok (key x)) chunkLength 1
          number ⟨input, output⟩ = .ok ⟨input, grouped byte input⟩) ∧
        (number % 2 = 1 → passes variant (keyBytes format fun x => .ok (key x)) chunkLength 1
          number ⟨output, input⟩ = .ok ⟨grouped byte input, input⟩) := by
  let byte (x : α) : Fin 256 := Fin.ofNat 256 (format.number (key x) / 256 ^ number)
  have read (x : α) : format.lsdByte (key x) number = .ok (byte x) :=
    KeyFormat.lsdByte_eq_ok (key x) narrow within
  have digit (x : α) : (keyBytes format fun x => .ok (key x)).digit x number = byte x := by
    have given : (do format.lsdByte (← (.ok (key x) : Except Fault V)) number) = .ok (byte x) :=
      read x
    simp only [keyBytes, DigitRule.ofChecked, given]
  have passed : pass variant (keyBytes format fun x => .ok (key x)) chunkLength number input
      output = .ok (grouped byte input) := by
    rw [pass_exact variant _ number positive same fun x _ =>
      keyBytes_readable narrow within rfl]
    simp only [digit, grouped]
  obtain ⟨writes, written, -⟩ :=
    chunkWrites_exact variant byte (chunksOf chunkLength input.toList)
  have count : writes.length = (chunksOf chunkLength input.toList).length := by
    have each := written
    rw [chunkWrites_eq_mapM] at each
    rw [← (forall₂_of_mapM each).length_eq, List.length_zip, length_shares, Nat.min_self]
  refine ⟨byte, read, writes, written, count, ?_, ?_, passed, ?_, ?_⟩
  · intro part starts chunk line here
    obtain ⟨own, found, ran⟩ := scatterChunk_of_chunkWrites written line here
    refine ⟨own, found, keepsToShares_of_places (places_of_scatterChunk ran), ?_⟩
    rintro rfl read rest rfl
    exact midway_of_scatter ran
  · intro steps merged divided interleaved
    exact interleaved_exact positive same written divided interleaved
  · intro even
    rw [passes, if_pos even, passed]
    rfl
  · intro odd
    rw [passes, if_neg (by omega), passed]
    rfl

/-- Numbers read as keys of one byte. -/
def lowByte : KeyFormat Nat := ⟨1, BitVec.ofNat 128⟩

/-- Three numbers in chunks of two, sent through blocks: two of them share a byte although the
numbers differ. -/
theorem pass_interleaved_three : lowByte.bytes ≤ 16 ∧ 0 < lowByte.bytes ∧ 0 < 2 ∧
    (#[0, 0, 0] : Array Nat).size = (#[258, 1, 2] : Array Nat).size ∧
    ∃ byte : Nat → Fin 256, byte 258 = 2 ∧ byte 1 = 1 ∧ byte 2 = 2 ∧
      pass .writeBack (keyBytes lowByte fun x => .ok x) 2 0 #[258, 1, 2] #[0, 0, 0] =
        .ok (grouped byte #[258, 1, 2]) := by
  have same : (#[0, 0, 0] : Array Nat).size = (#[258, 1, 2] : Array Nat).size := rfl
  refine ⟨by decide, by decide, by decide, same, ?_⟩
  obtain ⟨byte, read, writes, -, -, -, -, passed, -⟩ :=
    pass_interleaved .writeBack (by decide : lowByte.bytes ≤ 16) (by decide : 0 < lowByte.bytes)
      (fun x : Nat => x) (by decide : 0 < 2) same
  have byteOf {x : Nat} {value : Fin 256} (known : lowByte.lsdByte x 0 = .ok value) :
      byte x = value := Except.ok.inj ((read x).symm.trans known)
  exact ⟨byte, byteOf rfl, byteOf rfl, byteOf rfl, passed⟩

end Lsd

end RadixSort
