import RadixSort.Lsd.Pass
import RadixSort.Proofs.Lsd.Block
import RadixSort.Proofs.Count.Shares
import RadixSort.Proofs.Ensures

/-!
# A pass is a stable grouping

Whatever the variant and the chunks, the writes of all chunks agree with the list of
the buckets in ascending order, each in the order of the input, and they reach every
slot of it. The output of a pass is that list.
-/
namespace RadixSort.Lsd

variable {α : Type}

/-- How one variant scatters one chunk: without a fault, in agreement with any target
in which the elements stand, and reaching one slot for each element. -/
def Faithful (key : α → Fin 256)
    (scatter : Vector Nat 256 → List α → Except Fault (List (SlotWrite α))) : Prop :=
  ∀ (starts : Vector Nat 256) (chunk target : List α), Scatter.Rises key target starts chunk →
    ∃ writes, scatter starts chunk = .ok writes ∧ Agrees target writes ∧
      ∀ (bucket : Fin 256) (slot : Nat), starts.get bucket ≤ slot →
        slot < starts.get bucket + (chunk.filter (key · = bucket)).length → Reaches writes slot

/-- A scatter that sends every element straight to its slot is faithful. -/
theorem faithful_rising (key : α → Fin 256) :
    Faithful key fun starts chunk => .ok (Scatter.rising key starts chunk) :=
  fun starts chunk _ stands => ⟨_, rfl, Scatter.agrees_rising stands,
    Scatter.reaches_rising starts chunk⟩

/-- A scatter through blocks is faithful. -/
theorem faithful_blocks (key : α → Fin 256) :
    Faithful key fun starts chunk => Outgoing.scatter key (.opened starts) chunk :=
  fun _ _ _ stands => Outgoing.scatter_opened_exact stands

/-- Carrying out computations that all succeed gives their results and no others. -/
theorem mapM_eq_ok {β γ : Type} {compute : β → Except Fault γ} {holds : β → γ → Prop}
    (inputs : List β) (each : ∀ x ∈ inputs, ∃ y, compute x = .ok y ∧ holds x y) :
    ∃ results, inputs.mapM compute = .ok results ∧ (∀ y ∈ results, ∃ x ∈ inputs, holds x y) ∧
      ∀ x ∈ inputs, ∃ y ∈ results, holds x y := by
  induction inputs with
  | nil => exact ⟨[], rfl, by simp, by simp⟩
  | cons x rest ih =>
    obtain ⟨y, computed, kept⟩ := each x List.mem_cons_self
    obtain ⟨results, ran, origins, images⟩ :=
      ih fun other member => each other (List.mem_cons_of_mem _ member)
    refine ⟨y :: results, ?_, ?_, ?_⟩
    · rw [List.mapM_cons]
      exact bind_eq_ok.mpr ⟨y, computed, bind_eq_ok.mpr ⟨results, ran, rfl⟩⟩
    · intro z member
      rcases List.mem_cons.mp member with rfl | later
      · exact ⟨x, List.mem_cons_self, kept⟩
      · obtain ⟨w, present, related⟩ := origins z later
        exact ⟨w, List.mem_cons_of_mem _ present, related⟩
    · intro z member
      rcases List.mem_cons.mp member with rfl | later
      · exact ⟨y, List.mem_cons_self, kept⟩
      · obtain ⟨w, present, related⟩ := images z later
        exact ⟨w, List.mem_cons_of_mem _ present, related⟩

/-- A function of pairs that cannot fail gives the list of its values. -/
theorem mapM_ok {β γ δ : Type} (combine : β → γ → δ) (first : List β) (second : List γ) :
    ((first.zip second).mapM fun pair => (.ok (combine pair.1 pair.2) : Except Fault δ)) =
      .ok (first.zipWith combine second) := by
  rw [mapM_eq_map _ fun _ _ => rfl, List.map_zip_eq_zipWith]
  rfl

/-- The starts of the shares are the offsets of the shares as blocks. -/
theorem holds_shares (key : α → Fin 256) (chunks : List (List α)) :
    CountTable.Holds (shares key chunks).toArray chunks.length fun row column =>
      Blocks.offset (Shares.blocks id key chunks) (column * chunks.length + row) := by
  have counted : CountTable.Holds (chunks.map (histogram key)).toArray chunks.length
      (Shares.size id key chunks) := by
    apply Shares.holds_histograms key chunks fun _ => rfl
    · simp
    · intro row chunk here
      simp [here]
  simpa [shares] using CountTable.offsets_exact counted (Blocks.offset_zero _) Shares.totals

/-- Each chunk's elements stand behind its starts. -/
theorem rises_shares {key : α → Fin 256} {chunks : List (List α)} {row : Nat}
    {starts : Vector Nat 256} {chunk : List α} (line : (shares key chunks)[row]? = some starts)
    (here : chunks[row]? = some chunk) :
    Scatter.Rises key (Shares.blocks id key chunks).flatten starts chunk :=
  Shares.rises here fun bucket =>
    Shares.cell_eq (holds_shares key chunks) (by simpa using line) bucket

/-- There is one list of starts for each chunk. -/
theorem length_shares (key : α → Fin 256) (chunks : List (List α)) :
    (shares key chunks).length = chunks.length := by
  simpa using (holds_shares key chunks).size

/-- Faithful scatters of all chunks agree with the list of all shares and reach every
slot of it. -/
theorem scatters_exact {key : α → Fin 256}
    {scatter : Vector Nat 256 → List α → Except Fault (List (SlotWrite α))}
    (faithful : Faithful key scatter) (chunks : List (List α)) :
    ∃ writes, ((shares key chunks).zip chunks).mapM (fun pair => scatter pair.1 pair.2) =
        .ok writes ∧
      Agrees (Shares.blocks id key chunks).flatten writes.flatten ∧
      ∀ slot, slot < (Shares.blocks id key chunks).flatten.length →
        Reaches writes.flatten slot := by
  let target := (Shares.blocks id key chunks).flatten
  have each : ∀ pair ∈ (shares key chunks).zip chunks,
      ∃ writes, scatter pair.1 pair.2 = .ok writes ∧ Agrees target writes ∧
        ∀ (bucket : Fin 256) (slot : Nat), pair.1.get bucket ≤ slot →
          slot < pair.1.get bucket + (pair.2.filter (key · = bucket)).length →
            Reaches writes slot := by
    intro pair member
    obtain ⟨row, found⟩ := List.mem_iff_getElem?.mp member
    obtain ⟨line, here⟩ := List.getElem?_zip_eq_some.mp found
    exact faithful pair.1 pair.2 _ (rises_shares line here)
  obtain ⟨writes, ran, origins, images⟩ := mapM_eq_ok _ each
  refine ⟨writes, ran, ?_, ?_⟩
  · intro write member
    obtain ⟨share, present, inside⟩ := List.mem_flatten.mp member
    obtain ⟨pair, -, agrees, -⟩ := origins share present
    exact agrees write inside
  · intro slot inside
    obtain ⟨row, chunk, bucket, here, low, high⟩ := Shares.exists_share inside
    have valid : row < (shares key chunks).length := by
      rw [length_shares]
      exact (List.getElem?_eq_some_iff.mp here).1
    have line : (shares key chunks)[row]? = some (shares key chunks)[row] :=
      List.getElem?_eq_getElem valid
    have start := Shares.cell_eq (holds_shares key chunks)
      ((List.getElem?_toArray ..).trans line) bucket
    obtain ⟨share, present, -, reached⟩ := images ((shares key chunks)[row], chunk)
      (List.mem_iff_getElem?.mpr ⟨row, List.getElem?_zip_eq_some.mpr ⟨line, here⟩⟩)
    rw [Blocks.offset_succ (Shares.getElem?_blocks id key here bucket)] at high
    obtain ⟨x, member⟩ := reached bucket slot (start ▸ low) (start ▸ high)
    exact ⟨x, List.mem_flatten.mpr ⟨share, present, member⟩⟩

/-- Reading the labels of labelled elements is reading the keys. -/
theorem histogram_labelled (key : α → Fin 256) (chunk : List α) :
    histogram Prod.fst (chunk.map fun x => (key x, x)) = histogram key chunk := by
  simp [histogram, List.foldl_map]

/-- Scattering labelled elements writes them where their keys say. -/
theorem rising_labelled (key : α → Fin 256) (starts : Vector Nat 256) (chunk : List α) :
    (Scatter.rising Prod.fst starts (chunk.map fun x => (key x, x))).map
        (fun write => (write.1, write.2.2)) = Scatter.rising key starts chunk := by
  induction chunk generalizing starts with
  | nil => rfl
  | cons x rest ih =>
    simp only [List.map_cons, Scatter.rising]
    rw [ih]

/-- Keeping the bytes that were read does not change what is written. -/
theorem chunkWrites_cached (key : α → Fin 256) (chunks : List (List α)) :
    chunkWrites .cached key chunks = chunkWrites .recompute key chunks := by
  have counted : shares Prod.fst (chunks.map (List.map fun x => (key x, x))) =
      shares key chunks := by
    simp [shares, Function.comp_def, histogram_labelled]
  simp only [chunkWrites, counted, List.map_zipWith, List.zipWith_map_right, rising_labelled]

/-- In every variant the writes of all chunks agree with the list of all shares and
reach every slot of it. -/
theorem chunkWrites_exact (variant : Variant) (key : α → Fin 256) (chunks : List (List α)) :
    ∃ writes, chunkWrites variant key chunks = .ok writes ∧
      Agrees (Shares.blocks id key chunks).flatten writes.flatten ∧
      ∀ slot, slot < (Shares.blocks id key chunks).flatten.length →
        Reaches writes.flatten slot := by
  have straight := scatters_exact (faithful_rising key) chunks
  rw [mapM_ok (Scatter.rising key)] at straight
  cases variant with
  | cached =>
    rw [chunkWrites_cached]
    exact straight
  | recompute => exact straight
  | writeBack => exact scatters_exact (faithful_blocks key) chunks

/-- The shares of all chunks in their order are the buckets of the whole. -/
theorem flatten_blocks (key : α → Fin 256) (chunks : List (List α)) :
    (Shares.blocks id key chunks).flatten =
      (List.finRange 256).flatMap fun bucket => chunks.flatten.filter (key · = bucket) := by
  rw [Shares.blocks, List.flatMap_def, List.flatten_flatten, List.map_map, List.flatMap_def]
  congr 1
  apply List.map_congr_left
  intro bucket _
  simp [List.filter_flatten]

/-- A pass over elements that all give their byte groups them by it, each bucket in
the order of the input. -/
theorem pass_exact (variant : Variant) (rule : DigitRule α 256) {chunkLength : Nat} (number : Nat)
    {input output : Array α} (positive : 0 < chunkLength) (same : output.size = input.size)
    (readable : ∀ x ∈ input.toList, rule.refusal? x number = none) :
    pass variant rule chunkLength number input output =
      .ok ((List.finRange 256).flatMap fun bucket =>
        input.toList.filter (rule.digit · number = bucket)).toArray := by
  let key := (rule.digit · number)
  let chunks := chunksOf chunkLength input.toList
  obtain ⟨writes, written, agrees, reached⟩ := chunkWrites_exact variant key chunks
  have target : (Shares.blocks id key chunks).flatten =
      (List.finRange 256).flatMap fun bucket => input.toList.filter (key · = bucket) := by
    rw [flatten_blocks, flatten_chunksOf positive]
  have length : output.size = (Shares.blocks id key chunks).flatten.length := by
    rw [target, (Classes.flatMap_filter_perm input.toList).length_eq, same, Array.length_toList]
  have read := (rule.readAll_eq_ok_iff input.toList number).mpr readable
  refine bind_eq_ok.mpr ⟨(), read, bind_eq_ok.mpr ⟨writes, written, ?_⟩⟩
  have fits : ∀ write ∈ writes.flatten, write.1 < output.size :=
    fun write member => length ▸ agrees.within member
  have stored : applyWrites output 0 writes.flatten =
      (Shares.blocks id key chunks).flatten.toArray := by
    apply Array.toList_inj.mp
    rw [← slice_all, size_applyWrites, length]
    exact slice_applyWrites (by omega) agrees reached
  rw [strayWrite_eq_none fits, stored, target]
  rfl

end RadixSort.Lsd
