import RadixSort.Lsd
import RadixSort.Proofs.Lsd.Pass
import RadixSort.Proofs.StableSort
import RadixSort.Proofs.Key.Byte
import RadixSort.Proofs.Chunks

/-!
# Sorting from the least significant byte is stable sorting

After some number of passes, the array that the next pass reads is the stable sort of
the input by as many low bytes of the keys. The arrays change roles with every pass,
so the last result is in the caller's array after an even number of passes and in the
auxiliary one after an odd number, from where it is copied.
-/
namespace RadixSort.Lsd

variable {α V : Type}

/-- The key of an element, reduced to its low bytes. -/
def lowBytes (format : KeyFormat V) (key : α → V) (count : Nat) (x : α) : Nat :=
  format.number (key x) % 256 ^ count

/-- The array that the pass of this number reads. -/
def source (buffers : Buffers α) (number : Nat) : Array α :=
  if number % 2 = 0 then buffers.data else buffers.auxiliary

/-- An element that gives its key gives every byte of it. -/
theorem keyBytes_eq {format : KeyFormat V} (key : α → V) {number : Nat}
    (narrow : format.bytes ≤ 16) (within : number < format.bytes) (x : α) :
    (keyBytes format fun x => .ok (key x)).refusal? x number = none ∧
      (keyBytes format fun x => .ok (key x)).digit x number =
        Fin.ofNat 256 (format.number (key x) / 256 ^ number) := by
  have read : (do format.lsdByte (← (Except.ok (key x) : Except Fault V)) number) =
      .ok (Fin.ofNat 256 (format.number (key x) / 256 ^ number)) :=
    KeyFormat.lsdByte_eq_ok (key x) narrow within
  simp [keyBytes, DigitRule.ofChecked, read]

/-- The byte that a pass reads and the low bytes sorted before make up one more low
byte. -/
theorem lowBytes_succ (format : KeyFormat V) (key : α → V) (count : Nat) (x : α) :
    lowBytes format key (count + 1) x =
      (Fin.ofNat 256 (format.number (key x) / 256 ^ count)).val * 256 ^ count +
        lowBytes format key count x := by
  rw [lowBytes, lowBytes, Nat.mod_pow_succ, Fin.val_ofNat, Nat.add_comm, Nat.mul_comm]

/-- A pass takes a stable sort by some low bytes to one by one more. -/
theorem pass_stable (variant : Variant) {format : KeyFormat V} (key : α → V)
    {chunkLength number : Nat} {elements : List α} {input : Array α} (output : Array α)
    (positive : 0 < chunkLength) (narrow : format.bytes ≤ 16) (within : number < format.bytes)
    (same : output.size = input.size)
    (stable : StableSort (lowBytes format key number) elements input.toList) :
    ∃ next, pass variant (keyBytes format fun x => .ok (key x)) chunkLength number input output =
        .ok next ∧ next.size = input.size ∧
      StableSort (lowBytes format key (number + 1)) elements next.toList := by
  have read := @keyBytes_eq α V format key number narrow within
  have done := pass_exact variant (keyBytes format fun x => .ok (key x)) number positive same
    fun x _ => (read x).1
  simp only [fun x => (read x).2] at done
  refine ⟨_, done, ?_, ?_⟩
  · rw [List.size_toArray, (Classes.flatMap_filter_perm input.toList).length_eq,
      Array.length_toList]
  · rw [List.toList_toArray, show lowBytes format key (number + 1) = _ from
      funext (lowBytes_succ format key number)]
    have bounded : ∀ x, lowBytes format key number x < 256 ^ number :=
      fun x => Nat.mod_lt _ (Nat.pow_pos (by decide))
    exact stable.regroup (fun x => Fin.ofNat 256 (format.number (key x) / 256 ^ number)) bounded

/-- Passes from some number on take a stable sort by that many low bytes to one by as
many more as there are passes.

Induct over the passes. The pass reads the array whose turn it is and writes the other
one, which is then the array whose turn it is. -/
theorem passes_stable (variant : Variant) {format : KeyFormat V} (key : α → V)
    {chunkLength : Nat} {elements : List α} (positive : 0 < chunkLength)
    (narrow : format.bytes ≤ 16) (count number : Nat) (buffers : Buffers α)
    (within : number + count ≤ format.bytes) (same : buffers.auxiliary.size = buffers.data.size)
    (stable : StableSort (lowBytes format key number) elements (source buffers number).toList) :
    ∃ last, passes variant (keyBytes format fun x => .ok (key x)) chunkLength count number buffers =
        .ok last ∧
      StableSort (lowBytes format key (number + count)) elements
        (source last (number + count)).toList := by
  induction count generalizing number buffers with
  | zero => exact ⟨buffers, rfl, stable⟩
  | succ count ih =>
    obtain ⟨data, auxiliary⟩ := buffers
    rw [(by omega : number + (count + 1) = number + 1 + count)] at within ⊢
    by_cases even : number % 2 = 0
    · have odd : ¬(number + 1) % 2 = 0 := by omega
      rw [source, if_pos even] at stable
      obtain ⟨next, passed, size, refined⟩ := pass_stable variant key auxiliary
        positive narrow (by omega) same stable
      obtain ⟨last, ran, sorted⟩ := ih (number + 1) ⟨data, next⟩ (by omega) size (by
        rw [source, if_neg odd]
        exact refined)
      refine ⟨last, ?_, sorted⟩
      rw [passes, if_pos even]
      exact bind_eq_ok.mpr ⟨next, passed, ran⟩
    · have nextEven : (number + 1) % 2 = 0 := by omega
      rw [source, if_neg even] at stable
      obtain ⟨next, passed, size, refined⟩ := pass_stable variant key data
        positive narrow (by omega) same.symm stable
      obtain ⟨last, ran, sorted⟩ := ih (number + 1) ⟨next, auxiliary⟩ (by omega) size.symm (by
        rw [source, if_pos nextEven]
        exact refined)
      refine ⟨last, ?_, sorted⟩
      rw [passes, if_neg even]
      exact bind_eq_ok.mpr ⟨next, passed, ran⟩

/-- Sorting by keys from the least significant byte on is stable sorting by the numbers
of the keys, in every variant and for every number of threads.

A sequence of at most one element is its own stable sort. For longer ones the passes
start from the input, which is a stable sort by no bytes at all, and end with a stable
sort by all bytes of the keys; there is only one, and merge sort gives it. -/
theorem sort_eq_mergeSort (variant : Variant) {threads : Nat} (some : 0 < threads)
    {resources : Resources} (auxiliary : resources.grants .auxiliary = true)
    (cache : variant = .cached → resources.grants .digitCache = true)
    {format : KeyFormat V} (narrow : format.bytes ≤ 16) (key : α → V) (data : Array α) :
    sort variant threads resources format (fun x => .ok (key x)) data =
      .sorted (data.toList.mergeSort fun x y =>
        decide (format.number (key x) ≤ format.number (key y))).toArray () := by
  have granted : ¬(missing? variant resources).isSome := by
    simp only [missing?, auxiliary]
    by_cases cached : variant = .cached
    · simp [cached, cache cached]
    · simp [cached]
  rw [sort, if_neg (Nat.ne_of_gt some)]
  by_cases short : data.size ≤ 1
  · rw [if_pos short]
    have alone : data.toList.Pairwise fun x y =>
        decide (format.number (key x) ≤ format.number (key y)) = true := by
      rcases data with ⟨_ | ⟨x, _ | ⟨y, rest⟩⟩⟩
      · simp
      · simp
      · simp at short
    rw [List.mergeSort_of_pairwise alone]
  · rw [if_neg short, if_neg granted]
    have initial : StableSort (lowBytes format key 0) data.toList
        (source ⟨data, data⟩ 0).toList :=
      StableSort.of_constant 0 (fun x => by simp [lowBytes, Nat.mod_one]) _
    obtain ⟨last, ran, stable⟩ := passes_stable variant key
      (Word.ceilDiv_pos (by omega : 0 < data.size) some) narrow format.bytes 0 ⟨data, data⟩
      (by omega) rfl initial
    rw [Nat.zero_add] at stable
    have whole : lowBytes format key format.bytes = fun x => format.number (key x) :=
      funext fun x => Nat.mod_eq_of_lt (format.number_lt (key x))
    rw [whole] at stable
    have result := stable.unique (StableSort.mergeSort _ _)
    simp only [ran]
    rw [← result]
    by_cases odd : format.bytes % 2 = 1
    · simp [odd, source]
    · have even : format.bytes % 2 = 0 := by omega
      simp [even, source]

/-- Three numbers by their lower two bytes, whatever lies above them, by three threads in
blocks. -/
theorem sort_eq_mergeSort_three :
    sort .writeBack 3 {} (⟨2, BitVec.ofNat 128⟩ : KeyFormat Nat) (fun x => .ok x)
      #[258, 65536, 513] =
      .sorted ([258, 65536, 513].mergeSort fun x y => decide
        ((⟨2, BitVec.ofNat 128⟩ : KeyFormat Nat).number x ≤
          (⟨2, BitVec.ofNat 128⟩ : KeyFormat Nat).number y)).toArray () :=
  sort_eq_mergeSort .writeBack (by decide) rfl (fun _ => rfl)
    (by decide : (⟨2, BitVec.ofNat 128⟩ : KeyFormat Nat).bytes ≤ 16) (fun x => x)
    #[258, 65536, 513]

end RadixSort.Lsd
