import RadixSort.Lsd
import RadixSort.Proofs.Lsd.Sort

/-!
# How a least-significant-first call ends

Three checks come before the first pass: for the number of threads, for an array that
needs no sorting, and for the buffers. A call that a check ends has not asked for a
single key. Behind the checks the first pass reads the key of every element, so a key
that cannot be given abandons the call there, if there is a pass at all; once all keys
are known to be given, no later pass can fail.
-/
namespace RadixSort.Lsd

variable {α V : Type} {variant : Variant} {threads : Nat} {resources : Resources}
  {format : KeyFormat V} {key : α → Except Fault V} {data : Array α}

/-- A buffer that the variant needs is withheld. Only the cached variant needs more than
the auxiliary array. -/
def Withheld (variant : Variant) (resources : Resources) : Prop :=
  resources.grants .auxiliary = false ∨
    (variant = .cached ∧ resources.grants .digitCache = false)

/-- A call that gets past all checks. -/
structure Proceeds (variant : Variant) (threads : Nat) (resources : Resources)
    (length : Nat) : Prop where
  some : 0 < threads
  many : 2 ≤ length
  granted : ¬Withheld variant resources

/-- Every element gives its key. -/
def Readable (key : α → Except Fault V) (elements : List α) : Prop :=
  ∀ x ∈ elements, ∃ value, key x = .ok value

/-- An element that gives its key gives each byte of it. -/
theorem keyBytes_readable {x : α} {value : V} {number : Nat} (narrow : format.bytes ≤ 16)
    (within : number < format.bytes) (given : key x = .ok value) :
    (keyBytes format key).refusal? x number = none := by
  have read : (do format.lsdByte (← key x) number) =
      .ok (Fin.ofNat 256 (format.number value / 256 ^ number)) := by
    rw [given]
    exact KeyFormat.lsdByte_eq_ok value narrow within
  simp [keyBytes, DigitRule.ofChecked, read]

/-- A byte is refused, within the width of the keys, with the fault of the key. -/
theorem keyBytes_refuses {x : α} {fault : Fault} {number : Nat} (narrow : format.bytes ≤ 16)
    (within : number < format.bytes)
    (refused : (keyBytes format key).refusal? x number = some fault) : key x = .error fault := by
  cases given : key x with
  | ok value =>
    rw [keyBytes_readable narrow within given] at refused
    cases refused
  | error other =>
    simp only [keyBytes, DigitRule.ofChecked, given] at refused
    exact congrArg _ (Option.some.inj refused)

/-- A pass over elements that all give their keys rearranges them. -/
theorem pass_perm (variant : Variant) {chunkLength number : Nat} {input : Array α}
    (output : Array α) (positive : 0 < chunkLength) (narrow : format.bytes ≤ 16)
    (within : number < format.bytes) (same : output.size = input.size)
    (readable : Readable key input.toList) :
    ∃ next, pass variant (keyBytes format key) chunkLength number input output = .ok next ∧
      next.toList.Perm input.toList := by
  refine ⟨_, pass_exact variant (keyBytes format key) number positive same ?_,
    Classes.flatMap_filter_perm input.toList⟩
  intro x member
  obtain ⟨value, given⟩ := readable x member
  exact keyBytes_readable narrow within given

/-- A pass over elements of which one does not give its key ends with the fault of such a
key. -/
theorem pass_raises (variant : Variant) (chunkLength : Nat) {number : Nat} {input : Array α}
    (output : Array α) (narrow : format.bytes ≤ 16) (within : number < format.bytes)
    (unreadable : ¬Readable key input.toList) :
    ∃ x ∈ input.toList, ∃ fault, key x = .error fault ∧
      pass variant (keyBytes format key) chunkLength number input output = .error fault := by
  have found : input.toList.findSome? ((keyBytes format key).refusal? · number) ≠ none := by
    rw [Ne, List.findSome?_eq_none_iff]
    intro all
    apply unreadable
    intro x member
    cases given : key x with
    | ok value => exact ⟨value, rfl⟩
    | error fault =>
      have given := all x member
      simp_all [keyBytes, DigitRule.ofChecked, bind, Except.bind]
  obtain ⟨fault, first⟩ := Option.ne_none_iff_exists'.mp found
  obtain ⟨x, member, refused⟩ := List.exists_of_findSome?_eq_some first
  refine ⟨x, member, fault, keyBytes_refuses narrow within refused, ?_⟩
  simp [pass, DigitRule.readAll, first, bind, Except.bind]

/-- Passes over elements that all give their keys end without a fault, and each array
holds a rearrangement of the elements.

Induct over the passes. Each writes a rearrangement of what it reads, so the keys of the
next one are given as well. -/
theorem passes_perm (variant : Variant) {chunkLength : Nat} {elements : List α}
    (positive : 0 < chunkLength) (narrow : format.bytes ≤ 16) (readable : Readable key elements)
    (count number : Nat) (buffers : Buffers α) (within : number + count ≤ format.bytes)
    (caller : buffers.data.toList.Perm elements)
    (other : buffers.auxiliary.toList.Perm elements) :
    ∃ last, passes variant (keyBytes format key) chunkLength count number buffers = .ok last ∧
      last.data.toList.Perm elements ∧ last.auxiliary.toList.Perm elements := by
  induction count generalizing number buffers with
  | zero => exact ⟨buffers, rfl, caller, other⟩
  | succ count ih =>
    obtain ⟨data, auxiliary⟩ := buffers
    have same : auxiliary.size = data.size := (other.trans caller.symm).length_eq
    have current : number < format.bytes := by omega
    by_cases even : number % 2 = 0
    · obtain ⟨next, passed, moved⟩ := pass_perm variant auxiliary positive narrow (by omega) same
        fun x member => readable x (caller.mem_iff.mp member)
      obtain ⟨last, ran, ends⟩ := ih (number + 1) ⟨data, next⟩ (by omega) caller
        (moved.trans caller)
      refine ⟨last, ?_, ends⟩
      rw [passes, if_pos even]
      exact bind_eq_ok.mpr ⟨next, passed, ran⟩
    · obtain ⟨next, passed, moved⟩ := pass_perm variant data positive narrow current same.symm
        fun x member => readable x (other.mem_iff.mp member)
      obtain ⟨last, ran, ends⟩ :=
        ih (number + 1) ⟨next, auxiliary⟩ (by omega) (moved.trans other) other
      refine ⟨last, ?_, ends⟩
      rw [passes, if_neg even]
      exact bind_eq_ok.mpr ⟨next, passed, ran⟩

/-- A reservation is missing exactly if a buffer is withheld. -/
theorem missing_iff : (missing? variant resources).isSome = true ↔ Withheld variant resources := by
  cases auxiliary : resources.grants .auxiliary <;> simp [missing?, Withheld, auxiliary]

/-- A call without threads is refused. -/
theorem sort_of_no_threads (none : threads = 0) :
    sort variant threads resources format key data = .refused (.zero .threads) data :=
  if_pos none

/-- A call with nothing to sort ends at once. -/
theorem sort_of_few (some : 0 < threads) (few : data.size ≤ 1) :
    sort variant threads resources format key data = .sorted data () := by
  rw [sort, if_neg (Nat.ne_of_gt some), if_pos few]

/-- A call whose buffers are withheld is refused. -/
theorem sort_of_withheld (some : 0 < threads) (many : 2 ≤ data.size)
    (withheld : Withheld variant resources) :
    sort variant threads resources format key data = .refused (.allocation data.size) data := by
  rw [sort, if_neg (Nat.ne_of_gt some), if_neg (by omega), if_pos (missing_iff.mpr withheld)]

/-- A call whose keys have no bytes makes no pass. -/
theorem sort_of_no_bytes (proceeds : Proceeds variant threads resources data.size)
    (none : format.bytes = 0) :
    sort variant threads resources format key data = .sorted data () := by
  obtain ⟨some, many, granted⟩ := proceeds
  rw [sort, if_neg (Nat.ne_of_gt some), if_neg (by omega), if_neg (mt missing_iff.mp granted)]
  simp [none, passes]

/-- A call whose keys are given ends with a rearrangement. -/
theorem sort_of_readable (narrow : format.bytes ≤ 16)
    (proceeds : Proceeds variant threads resources data.size)
    (readable : Readable key data.toList) :
    ∃ sorted, sort variant threads resources format key data = .sorted sorted () ∧
      sorted.Perm data := by
  obtain ⟨some, many, granted⟩ := proceeds
  have positive : 0 < Word.ceilDiv data.size threads := Word.ceilDiv_pos (by omega) some
  obtain ⟨last, ran, caller, other⟩ := passes_perm variant positive narrow readable format.bytes 0
    ⟨data, data⟩ (by omega) .rfl .rfl
  rw [sort, if_neg (Nat.ne_of_gt some), if_neg (by omega), if_neg (mt missing_iff.mp granted)]
  simp only [ran]
  refine ⟨_, rfl, Array.perm_iff_toList_perm.mpr ?_⟩
  split
  · exact other
  · exact caller

/-- A call that makes a pass and meets a key that is not given is abandoned with the fault
of such a key. -/
theorem sort_of_unreadable (narrow : format.bytes ≤ 16)
    (proceeds : Proceeds variant threads resources data.size) (wide : 1 ≤ format.bytes)
    (unreadable : ¬Readable key data.toList) :
    ∃ x ∈ data, ∃ fault, key x = .error fault ∧
      sort variant threads resources format key data = .abandoned fault := by
  obtain ⟨some, many, granted⟩ := proceeds
  obtain ⟨x, member, fault, raised, failed⟩ :=
    pass_raises variant (Word.ceilDiv data.size threads) data narrow wide unreadable
  refine ⟨x, Array.mem_toList_iff.mp member, fault, raised, ?_⟩
  obtain ⟨count, bytes⟩ : ∃ count, format.bytes = count + 1 := ⟨format.bytes - 1, by omega⟩
  have stopped : passes variant (keyBytes format key) (Word.ceilDiv data.size threads)
      format.bytes 0 ⟨data, data⟩ = .error fault := by
    rw [bytes, passes, if_pos (Nat.zero_mod 2), failed]
    rfl
  rw [sort, if_neg (Nat.ne_of_gt some), if_neg (by omega), if_neg (mt missing_iff.mp granted)]
  simp only [stopped]

/-- A call ends at a check, or gets past all checks. -/
theorem checked_or_proceeds (variant : Variant) (threads : Nat) (resources : Resources)
    (length : Nat) :
    threads = 0 ∨ (0 < threads ∧ length ≤ 1) ∨
      (0 < threads ∧ 2 ≤ length ∧ Withheld variant resources) ∨
      Proceeds variant threads resources length := by
  rcases Nat.eq_zero_or_pos threads with none | some
  · exact .inl none
  · by_cases few : length ≤ 1
    · exact .inr (.inl ⟨some, few⟩)
    · by_cases withheld : Withheld variant resources
      · exact .inr (.inr (.inl ⟨some, by omega, withheld⟩))
      · exact .inr (.inr (.inr ⟨some, by omega, withheld⟩))

/-- How a call ends, depending on what it was given. -/
structure Ends (variant : Variant) (threads : Nat) (resources : Resources)
    (format : KeyFormat V) (key : α → Except Fault V) (data : Array α)
    (outcome : Outcome α Unit) : Prop where
  /-- The call is refused for a parameter exactly if there are no threads, however little
  there is to sort. -/
  invalid : outcome = .refused (.invalidConfig "threads" "must be >= 1") data ↔ threads = 0
  /-- There is nothing to sort. -/
  few : 0 < threads → data.size ≤ 1 → outcome = .sorted data ()
  /-- A buffer is withheld. -/
  allocation : outcome = .refused (.allocation data.size) data ↔
    0 < threads ∧ 2 ≤ data.size ∧ Withheld variant resources
  /-- There are no other refusals, and each leaves the data as it was. -/
  refused : ∀ error returned, outcome = .refused error returned →
    returned = data ∧
      (error = .invalidConfig "threads" "must be >= 1" ∨ error = .allocation data.size)
  /-- A pass is made, and some element does not give its key. -/
  abandoned : (∃ fault, outcome = .abandoned fault) ↔
    Proceeds variant threads resources data.size ∧ 1 ≤ format.bytes ∧
      ∃ x ∈ data, ∃ fault, key x = .error fault
  /-- A call is abandoned with the fault of such an element, and with no other fault. -/
  raised : ∀ fault, outcome = .abandoned fault → ∃ x ∈ data, key x = .error fault
  /-- Nothing stands in the way. -/
  sorted : Proceeds variant threads resources data.size →
    (format.bytes = 0 ∨ ∀ x ∈ data, ∃ value, key x = .ok value) →
    ∃ sorted, outcome = .sorted sorted () ∧ sorted.Perm data

/-- Elements are not all readable exactly if one of them has a fault for a key. -/
theorem not_readable_iff :
    ¬Readable key data.toList ↔ ∃ x ∈ data, ∃ fault, key x = .error fault := by
  constructor
  · intro unreadable
    by_contra none
    apply unreadable
    intro x member
    cases given : key x with
    | ok value => exact ⟨value, rfl⟩
    | error fault => exact absurd ⟨x, Array.mem_toList_iff.mp member, fault, given⟩ none
  · rintro ⟨x, member, fault, failed⟩ readable
    obtain ⟨value, given⟩ := readable x (Array.mem_toList_iff.mpr member)
    cases failed.symm.trans given

/-- How a call ends, in every variant. A call that does not get past the checks, or makes no
pass, ends in the same way with any other keys, so it has asked for none.

The checks that end a call, and what becomes of one that proceeds, are distinguished once;
each case says what the outcome is, and the fields compare it with their own. -/
theorem sort_ends (variant : Variant) (threads : Nat) (resources : Resources)
    {format : KeyFormat V} (narrow : format.bytes ≤ 16) (key : α → Except Fault V)
    (data : Array α) :
    Ends variant threads resources format key data
        (sort variant threads resources format key data) ∧
    (¬(Proceeds variant threads resources data.size ∧ 1 ≤ format.bytes) →
      ∀ other : α → Except Fault V, sort variant threads resources format other data =
        sort variant threads resources format key data) := by
  rcases checked_or_proceeds variant threads resources data.size with
    none | ⟨some, few⟩ | ⟨some, many, withheld⟩ | proceeds
  · simp only [sort_of_no_threads none]
    refine ⟨?_, fun _ _ => trivial⟩
    constructor <;> grind [SortError.zero, Parameter.name, SortError.lowerBound, Proceeds]
  · simp only [sort_of_few some few]
    refine ⟨?_, fun _ _ => trivial⟩
    constructor <;> grind [Proceeds]
  · simp only [sort_of_withheld some many withheld]
    refine ⟨?_, fun _ _ => trivial⟩
    constructor <;> grind [Proceeds]
  · rcases Nat.eq_zero_or_pos format.bytes with empty | wide
    · simp only [sort_of_no_bytes proceeds empty]
      refine ⟨?_, fun _ _ => trivial⟩
      constructor <;> grind [Proceeds, Array.Perm.refl]
    · refine ⟨?_, fun idle => absurd ⟨proceeds, wide⟩ idle⟩
      by_cases readable : Readable key data.toList
      · obtain ⟨sorted, ended, rearranged⟩ := sort_of_readable narrow proceeds readable
        have given := mt not_readable_iff.mpr (not_not_intro readable)
        rw [ended]
        constructor <;> grind [Proceeds]
      · obtain ⟨x, member, fault, failed, ended⟩ :=
          sort_of_unreadable narrow proceeds wide readable
        rw [ended]
        constructor <;> grind [Proceeds]

/-- Three numbers by their lower two bytes, of which one has no key, by two threads. -/
theorem sort_ends_unreadable :
    let key : Nat → Except Fault Nat := fun x =>
      if x = 250 then .error (.raised "unreadable") else .ok x
    let format : KeyFormat Nat := ⟨2, BitVec.ofNat 128⟩
    Ends .cached 2 {} format key #[5, 250, 3] (sort .cached 2 {} format key #[5, 250, 3]) ∧
      sort .cached 2 {} format key #[5, 250, 3] = .abandoned (.raised "unreadable") := by
  intro key format
  obtain ⟨ends, -⟩ := sort_ends .cached 2 {} (by decide : format.bytes ≤ 16) key #[5, 250, 3]
  have granted : ¬Withheld .cached {} := by simp [Withheld]
  obtain ⟨fault, abandoned⟩ := ends.abandoned.mpr
    ⟨⟨by decide, by decide, granted⟩, by decide, 250, by simp, .raised "unreadable", if_pos rfl⟩
  obtain ⟨x, -, failed⟩ := ends.raised fault abandoned
  have raised : fault = .raised "unreadable" := by
    by_cases bad : x = 250 <;> simp_all [key]
  exact ⟨ends, raised ▸ abandoned⟩

end RadixSort.Lsd
