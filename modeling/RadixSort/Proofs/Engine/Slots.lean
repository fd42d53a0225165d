import RadixSort.Engine.StepProtocol
import RadixSort.Proofs.Engine.Pieces
import RadixSort.Proofs.Engine.RadixStep

/-!
# Where a partition puts the elements of its pieces

The share of a piece in a bucket is written from its end downwards, so it is found
reversed. What the slots hold in the end, and with it what a bucket holds when it is handed
on, follows from the pieces alone, and not from the order in which the tasks write.
-/
namespace RadixSort.StepProtocol

variable {α : Type} {radix : Nat} {key : α → Fin radix} {elements : List α}
  {origin : RadixStep radix}

/-- The first slot of the share of a part in a bucket. -/
def shareStart (key : α → Fin radix) (elements : List α) (origin : RadixStep radix) (part : Nat)
    (bucket : Fin radix) : Nat :=
  Shares.start key (origin.pieces elements) part bucket

/-- The range once it has been partitioned: the shares of the pieces in the buckets, each
reversed. -/
def target (key : α → Fin radix) (elements : List α) (origin : RadixStep radix) : List α :=
  (Shares.blocks List.reverse key (origin.pieces elements)).flatten

section Slots

/-- The share of a part has a slot for each element of its piece in the bucket. -/
theorem shareStart_succ (key : α → Fin radix) (elements : List α) {part : Nat}
    (valid : part < origin.parts) (bucket : Fin radix) :
    shareStart key elements origin (part + 1) bucket =
      shareStart key elements origin part bucket +
        (between elements (origin.begins part) (origin.stops part)).countP (key · = bucket) :=
  Shares.start_succ (RadixStep.getElem?_pieces valid elements) bucket

/-- The shares are laid out from their first slots on. -/
theorem offset_eq_shareStart {part : Nat} (within : part ≤ origin.parts) (bucket : Fin radix) :
    Blocks.offset (Shares.blocks List.reverse key (origin.pieces elements))
      (bucket * origin.parts + part) = shareStart key elements origin part bucket := by
  have placed := Shares.offset_blocks (fun share : List α => share.length_reverse) key
    (show part ≤ (origin.pieces elements).length by rwa [RadixStep.length_pieces]) bucket
  rwa [RadixStep.length_pieces] at placed

/-- The partitioned range has as many elements as the range. -/
theorem length_target (key : α → Fin radix) (cut : origin.Cut)
    (length : elements.length = origin.window.length) :
    (target key elements origin).length = elements.length := by
  have bucket (bucket : Fin radix) : ((origin.pieces elements).flatMap fun piece =>
      (piece.filter (key · = bucket)).reverse).Perm (elements.filter (key · = bucket)) := by
    have whole : elements.filter (key · = bucket) =
        (origin.pieces elements).flatMap (List.filter (key · = bucket)) := by
      rw [List.flatMap_def, ← List.filter_flatten, cut.flatten_pieces length]
    rw [whole]
    exact List.Perm.flatMap_left _ fun piece _ => List.reverse_perm _
  rw [target, Shares.flatten_blocks, Shares.buckets, ← List.flatMap_def]
  exact (Classes.flatMap_perm bucket).length_eq

/-- A share lies within the range. -/
theorem shareStart_le (key : α → Fin radix) (cut : origin.Cut)
    (length : elements.length = origin.window.length)
    {part : Nat} (within : part ≤ origin.parts) (bucket : Fin radix) :
    shareStart key elements origin part bucket ≤ origin.window.length := by
  rw [← offset_eq_shareStart within, ← length, ← length_target key cut length]
  exact Blocks.offset_le_length _ _

/-- An element of a piece stands in the share of the piece before those of its bucket that
come later in the piece. -/
theorem target_of_piece {part : Nat} (valid : part < origin.parts) {taken rest : List α} {x : α}
    (split : between elements (origin.begins part) (origin.stops part) = taken ++ x :: rest) :
    (target key elements origin)[shareStart key elements origin part (key x) +
      rest.countP (key · = key x)]? = some x := by
  have here := RadixStep.getElem?_pieces valid elements
  have share := Shares.getElem?_blocks List.reverse key here (key x)
  rw [RadixStep.length_pieces, split] at share
  have place : ((taken ++ x :: rest).filter (key · = key x)).reverse[
      rest.countP (key · = key x)]? = some x := by
    rw [List.filter_append, List.filter_cons_of_pos (by simp), List.reverse_append,
      List.reverse_cons, List.append_assoc, List.countP_eq_length_filter,
      List.getElem?_append_right (by simp)]
    simp
  rw [target, ← offset_eq_shareStart (Nat.le_of_lt valid),
    Blocks.getElem?_flatten share (List.getElem?_eq_some_iff.mp place).1]
  exact place

/-- Every slot lies in the share of some part in some bucket. -/
theorem exists_share (key : α → Fin radix) {slot : Nat} (cut : origin.Cut)
    (length : elements.length = origin.window.length) (inside : slot < origin.window.length) :
    ∃ part < origin.parts, ∃ bucket : Fin radix,
      shareStart key elements origin part bucket ≤ slot ∧
        slot < shareStart key elements origin (part + 1) bucket := by
  have inside : slot < (target key elements origin).length := by
    rw [length_target key cut length, length]
    exact inside
  obtain ⟨part, piece, bucket, here, low, high⟩ := Shares.exists_share inside
  have valid : part < origin.parts := by
    have := (List.getElem?_eq_some_iff.mp here).1
    rwa [RadixStep.length_pieces] at this
  rw [RadixStep.length_pieces, offset_eq_shareStart (Nat.le_of_lt valid)] at low
  rw [RadixStep.length_pieces, Nat.add_assoc, offset_eq_shareStart valid] at high
  exact ⟨part, valid, bucket, low, high⟩

end Slots

section Buckets

/-- The digits that elements have, in order. -/
def digits (key : α → Fin radix) (elements : List α) : List (Fin radix) :=
  (List.finRange radix).filter fun bucket => elements.countP (key · = bucket) ≠ 0

/-- The place of a bucket, behind all smaller ones. -/
def place (key : α → Fin radix) (elements : List α) (bucket : Fin radix) : Bucket :=
  ⟨elements.countP fun x => (key x).val < bucket.val, elements.countP (key · = bucket)⟩

/-- A bucket as it is handed on: what each piece holds of it, piece by piece, reversed. -/
def share (key : α → Fin radix) (elements : List α) (origin : RadixStep radix)
    (bucket : Fin radix) : Handed α :=
  ⟨place key elements bucket,
    (origin.pieces elements).flatMap fun piece => (piece.filter (key · = bucket)).reverse⟩

/-- The buckets of a range as they are to be handed on. -/
def shares (key : α → Fin radix) (elements : List α) (origin : RadixStep radix) :
    List (Handed α) :=
  (digits key elements).map (share key elements origin)

/-- The buckets that are not empty are those of the digits that elements have. -/
theorem filled_eq (key : α → Fin radix) (elements : List α) :
    Bucket.filled key elements = (digits key elements).map (place key elements) := by
  rw [Bucket.filled, digits]
  induction List.finRange radix with
  | nil => rfl
  | cons bucket rest ih =>
    by_cases none : elements.countP (key · = bucket) = 0
    · rw [List.filterMap_cons, if_pos none, List.filter_cons_of_neg (by simpa using none), ih]
    · rw [List.filterMap_cons, if_neg none, List.filter_cons_of_pos (by simpa using none),
        List.map_cons, ih, place]

/-- No digit is listed twice. -/
theorem digits_nodup (key : α → Fin radix) (elements : List α) : (digits key elements).Nodup :=
  (List.nodup_finRange radix).filter _

/-- There are no more buckets than digits. -/
theorem length_digits_le (key : α → Fin radix) (elements : List α) :
    (digits key elements).length ≤ radix := by
  have few := List.length_filter_le (fun bucket => elements.countP (key · = bucket) ≠ 0)
    (List.finRange radix)
  rwa [List.length_finRange] at few

/-- The slots of a bucket. -/
def InBucket (bucket : Bucket) (slot : Nat) : Prop :=
  bucket.start ≤ slot ∧ slot < bucket.start + bucket.length

/-- A bucket ends before any larger one starts. -/
theorem place_lt (key : α → Fin radix) (elements : List α) {low high : Fin radix}
    (ordered : low < high) :
    (place key elements low).start + (place key elements low).length ≤
      (place key elements high).start := by
  refine Nat.le_trans (Nat.le_of_eq (Zones.countP_lt_succ key elements low).symm) ?_
  apply List.countP_mono_left
  intro x _ small
  have bound : low.val < high.val := ordered
  simp only [decide_eq_true_eq] at small ⊢
  omega

/-- A slot lies in one bucket at most. -/
theorem place_unique {first second : Fin radix} {slot : Nat}
    (one : InBucket (place key elements first) slot)
    (other : InBucket (place key elements second) slot) : first = second := by
  obtain ⟨low, high⟩ := one
  obtain ⟨otherLow, otherHigh⟩ := other
  rcases Nat.lt_trichotomy first.val second.val with before | same | behind
  · have := place_lt key elements before
    omega
  · exact Fin.ext same
  · have := place_lt key elements behind
    omega

/-- The buckets lie within the range. -/
theorem place_le (key : α → Fin radix) (elements : List α) (bucket : Fin radix) :
    (place key elements bucket).start + (place key elements bucket).length ≤ elements.length := by
  refine Nat.le_trans (Nat.le_of_eq (Zones.countP_lt_succ key elements bucket).symm) ?_
  exact List.countP_le_length

/-- Where the first row holds the starts of the buckets, the buckets are found between
them. -/
theorem buckets_exact (cut : origin.Cut) (length : elements.length = origin.window.length)
    (left : Nat) {table : CountTable radix} {row : Vector Nat radix} (here : table[0]? = some row)
    (starts : ∀ bucket : Fin radix, row.get bucket = shareStart key elements origin 0 bucket) :
    ({ origin with left, table } : RadixStep radix).buckets =
      .ok ((digits key elements).map (place key elements)) := by
  have lengths : ∀ share : List α, share.reverse.length = share.length :=
    fun share => share.length_reverse
  have total : (Shares.buckets List.reverse key (origin.pieces elements)).flatten.length =
      origin.window.length := by
    rw [← length, ← length_target key cut length, target, Shares.flatten_blocks]
  have placed (bucket : Fin radix) : row.get bucket =
      Blocks.offset (Shares.buckets List.reverse key (origin.pieces elements)) bucket := by
    rw [starts bucket, Shares.offset_buckets lengths key _ (Nat.le_of_lt bucket.isLt)]
    simp [shareStart, Shares.start]
  have found := RadixStep.buckets_of_starts { origin with left, table }
    (by simp [Shares.buckets]) total here placed
  rw [found, Shares.ofBlocks_buckets lengths, cut.flatten_pieces length, filled_eq]

/-- Cells that hold the partitioned range in the slots of a bucket hold what the pieces hold
of it. -/
theorem slice_place (cut : origin.Cut) (length : elements.length = origin.window.length)
    {cells : Array α} {start : Nat} (bucket : Fin radix)
    (stored : ∀ slot, InBucket (place key elements bucket) slot →
      cells[start + slot]? = (target key elements origin)[slot]?) :
    slice cells (start + (place key elements bucket).start) (place key elements bucket).length =
      (share key elements origin bucket).held := by
  have lengths (share : List α) : share.reverse.length = share.length := share.length_reverse
  have here := Shares.getElem?_buckets List.reverse key (origin.pieces elements) bucket
  have count := Shares.length_bucket lengths key (origin.pieces elements) bucket
  have behind := Shares.offset_buckets lengths key (origin.pieces elements)
    (Nat.le_of_lt bucket.isLt)
  rw [cut.flatten_pieces length] at count behind
  refine slice_eq count fun slot valid => ?_
  have aims := Blocks.getElem?_flatten here (Nat.lt_of_lt_of_eq valid count.symm)
  rw [behind] at aims
  rw [Nat.add_assoc, stored _ ⟨Nat.le_add_right _ _, Nat.add_lt_add_left valid _⟩, target,
    Shares.flatten_blocks]
  exact aims

end Buckets

end RadixSort.StepProtocol
