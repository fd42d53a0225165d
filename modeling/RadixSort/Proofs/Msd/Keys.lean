import RadixSort.Proofs.Key.Digit
import RadixSort.Proofs.Key.Integer
import RadixSort.Proofs.Msd.Sorted

/-!
# Sorting by keys

The digits of a key are read at all depths that a sort asks for, and where the keys of two
values first differ in a digit, the smaller digit belongs to the smaller key. So an order
respects the digits if smaller values have smaller keys, and a sort by keys gives its input
in that order. Where no two values are equal in the order there is only one such result,
which is that of merge sort. The primitive integers are a case of this.
-/
namespace RadixSort

open Recursion

variable {V : Type} {format : KeyFormat V} {width : DigitWidth} {compare : V → V → Ordering}

/-- A key of few enough bytes is read at every depth at which it has a digit. -/
theorem Msd.keyDigits_exact (narrow : format.bytes ≤ 16) (value : V) {depth : Nat}
    (inside : depth < format.msdDepth width) :
    (keyDigits format width).digit value depth = Fin.ofNat width.radix
        (format.leftAligned value / width.radix ^ (width.places - 1 - depth)) ∧
      (keyDigits format width).refusal? value depth = none := by
  have read := KeyFormat.msdDigit_eq_ok narrow value inside
  constructor <;> simp only [keyDigits, DigitRule.ofChecked, read]

/-- Bits that fit the width of a key are the number of the key. -/
theorem KeyFormat.number_eq {value : V}
    (fits : (format.bits value).toNat < 256 ^ format.bytes) :
    format.number value = (format.bits value).toNat := by
  have power : 2 ^ (8 * format.bytes) = 256 ^ format.bytes := Nat.pow_mul 2 8 _
  rw [number, BitVec.toNat_setWidth, power, Nat.mod_eq_of_lt fits]

/-- A format is increasing in an order if its keys fit their bytes and smaller values have
smaller keys. -/
structure KeyFormat.Increasing (format : KeyFormat V) (compare : V → V → Ordering) : Prop where
  narrow : format.bytes ≤ 16
  fits : ∀ value, (format.bits value).toNat < 256 ^ format.bytes
  increasing : ∀ x y, compare x y = .lt → (format.bits x).toNat < (format.bits y).toNat

/-- An order respects the digits of keys that increase in it. -/
theorem KeyFormat.Increasing.respects [Std.TransCmp compare] (keys : format.Increasing compare)
    (width : DigitWidth) :
    Respects (Msd.keyDigits format width).digit (format.msdDepth width) compare := by
  intro x y depth shallow alike less greater
  have digit (value : V) {earlier : Nat} (before : earlier ≤ depth) :=
    congrArg Fin.val (Msd.keyDigits_exact keys.narrow value
      (Nat.lt_of_le_of_lt before shallow)).1
  have place : depth < width.places := Nat.lt_of_lt_of_le shallow (msdDepth_le keys.narrow)
  have smaller : format.leftAligned x < format.leftAligned y := by
    refine lt_of_digit_lt (leftAligned_lt keys.narrow x) (leftAligned_lt keys.narrow y) place ?_ ?_
    · intro earlier before
      have same := congrArg Fin.val (alike earlier before)
      rw [digit x (Nat.le_of_lt before), digit y (Nat.le_of_lt before)] at same
      exact same
    · have less := Fin.lt_def.mp less
      rw [digit x (Nat.le_refl depth), digit y (Nat.le_refl depth)] at less
      exact less
  have ordered := leftAligned_lt_iff.mp smaller
  rw [number_eq (keys.fits x), number_eq (keys.fits y)] at ordered
  exact Nat.lt_asymm ordered (keys.increasing y x (Std.OrientedCmp.gt_iff_lt.mp greater))

/-- A sequence of elements of at least one byte each has fewer than `2 ^ 63` elements. Fewer
than `2 ^ 47` workers divide every such sequence into chunks that count tables have room
for. -/
theorem Settings.Sized.of_workers {settings : Settings} {total : Nat}
    (some : 0 < settings.threads) (workers : settings.threads < 2 ^ 47) (short : total < 2 ^ 63) :
    settings.Sized width.radix total := by
  have word : Word.bound = 2 ^ 64 := rfl
  refine ⟨by omega, .inr ⟨some, ?_⟩⟩
  cases width with
  | oneByte =>
    change 2 * settings.threads * 256 < Word.bound
    omega
  | twoBytes =>
    change 2 * settings.threads * 65536 < Word.bound
    omega

/-- The keys of primitive integers increase with the integers. -/
theorem IntType.increasing (type : IntType) : type.format.Increasing (Msd.numeric type) where
  narrow := by
    have bits := (bits_bounds type.width).2
    change type.width.bytes ≤ 16
    omega
  fits := type.bits_lt
  increasing x y less := toInt_lt_iff.mp (compare_lt_iff_lt.mp less)

instance transCmp_numeric (type : IntType) : Std.TransCmp (Msd.numeric type) :=
  inferInstanceAs (Std.TransCmp (compareOn type.toInt))

/-- Rearrangements of one another that are in order are equal, if no two elements are equal
in the order. -/
theorem Ordered.eq_of_perm {first second : List V} [Std.TransCmp compare]
    (distinct : ∀ x y, compare x y = .eq → x = y) (ordered : Ordered compare first)
    (other : Ordered compare second) (rearranged : first.Perm second) : first = second := by
  refine List.Perm.eq_of_pairwise ?_ ordered other rearranged
  intro x y _ _ before behind
  apply distinct
  cases order : compare x y with
  | eq => rfl
  | gt => exact absurd order before
  | lt => exact absurd (Std.OrientedCmp.gt_iff_lt.mpr order) behind

namespace Msd

/-- A sort by keys that increase in an order gives its input in that order, whatever the
schedule. -/
theorem sort_keyRules {settings : Settings} (valid : settings.Valid) [Std.TransCmp compare]
    (keys : format.Increasing compare) {fallback : List V → Except Fault (List V)}
    (finishes : ∀ elements, ∃ sorted, fallback elements = .ok sorted ∧ sorted.Perm elements ∧
      Ordered compare sorted)
    {data : Array V} (sized : settings.Sized width.radix data.size) {resources : Resources}
    (granted : resources.grants .shadow = true) (started : resources.spawnFailure? = none)
    (schedule : Schedule) :
    ∃ sorted stats,
      sort { keyRules format width compare settings with fallback } resources schedule data =
        .sorted sorted stats ∧ sorted.Perm data ∧ Ordered compare sorted.toList := by
  let rules : Rules V width.radix := { keyRules format width compare settings with fallback }
  have promised : ∀ elements sorted, rules.fallback elements = .ok sorted →
      sorted.Perm elements ∧ Ordered compare sorted :=
    fun elements sorted => Ensures.of_exists_ok (finishes elements)
  have keeps := fun elements sorted ran => (promised elements sorted ran).1
  have excuses : Excuses rules data.size fun _ => False := by
    refine ⟨?_, ?_, fun elements sorted ran => (keeps elements sorted ran).length_eq,
      .inl (.inl sized)⟩
    · intro value depth fault shallow refuses
      have reads := (keyDigits_exact keys.narrow value shallow).2
      cases reads.symm.trans refuses
    · intro elements fault fails
      obtain ⟨sorted, ran, -⟩ := finishes elements
      cases ran.symm.trans fails
  obtain ⟨sorted, stats, counts, ran, sorts, -⟩ :=
    sort_exact excuses schedule valid granted started
  refine ⟨sorted, stats, ran, Array.perm_iff_toList_perm.mpr ?_, ?_⟩
  · exact sorts.perm keeps
  · exact sorts.ordered keeps (fun elements sorted _ ran => (promised elements sorted ran).2)
      (keys.respects width) fun _ _ _ _ _ none => by cases none

/-- A sort by keys of either digit width, whatever the settings, the number of workers and
the schedule, leaves primitive integers of every type in ascending order, and values of any
other type in the order that their keys increase in.

The numbers of a sort have to fit machine words. `Settings.Sized.of_workers` has it that they do
for every sequence that a machine can hold, as long as there are fewer than `2 ^ 47` workers. -/
theorem sort_ascending (width : DigitWidth) {settings : Settings} (valid : settings.Valid)
    {resources : Resources} (granted : resources.grants .shadow = true)
    (started : resources.spawnFailure? = none) (schedule : Schedule) :
    (∀ (type : IntType) (data : Array type.Value), settings.Sized width.radix data.size →
      ∃ stats, sortIntegers type width settings resources schedule data =
        .sorted (data.toList.mergeSort fun x y => type.toInt x ≤ type.toInt y).toArray stats) ∧
    ∀ (V : Type) (format : KeyFormat V) (compare : V → V → Ordering), Std.TransCmp compare →
      format.Increasing compare → ∀ fallback : List V → Except Fault (List V),
      (∀ elements, ∃ sorted, fallback elements = .ok sorted ∧ sorted.Perm elements ∧
        Ordered compare sorted) →
      ∀ data : Array V, settings.Sized width.radix data.size → ∃ sorted stats,
        sort { keyRules format width compare settings with fallback } resources schedule data =
          .sorted sorted stats ∧
        sorted.Perm data ∧ Ordered compare sorted.toList ∧
        ((∀ x y, compare x y = .eq → x = y) →
          sorted.toList = data.toList.mergeSort fun x y => (compare x y).isLE) := by
  constructor
  · intro type data sized
    have finishes (elements : List type.Value) : ∃ sorted,
        Comparison.sort { compare := numeric type } elements = .ok sorted ∧
          sorted.Perm elements ∧ Ordered (numeric type) sorted :=
      Comparison.sort_exact elements
    obtain ⟨sorted, stats, ran, rearranged, ordered⟩ :=
      sort_keyRules valid type.increasing finishes sized granted started schedule
    have ascending : (fun x y => (numeric type x y).isLE) =
        fun x y => decide (type.toInt x ≤ type.toInt y) := by
      funext x y
      exact Bool.eq_iff_iff.mpr (Int.isLE_compare.trans decide_eq_true_iff.symm)
    have merged : Ordered (numeric type)
        (data.toList.mergeSort fun x y => (numeric type x y).isLE) :=
      ordered_mergeSort data.toList
    have distinct : ∀ x y, numeric type x y = .eq → x = y :=
      fun x y same => IntType.toInt_inj (compare_eq_iff_eq.mp same)
    have equal := ordered.eq_of_perm distinct merged
      ((Array.perm_iff_toList_perm.mp rearranged).trans (List.mergeSort_perm _ _).symm)
    rw [ascending] at equal
    rw [← equal]
    exact ⟨stats, ran⟩
  · intro V format compare trans keys fallback finishes data sized
    obtain ⟨sorted, stats, ran, rearranged, ordered⟩ :=
      sort_keyRules valid keys finishes sized granted started schedule
    refine ⟨sorted, stats, ran, rearranged, ordered, fun distinct => ?_⟩
    exact ordered.eq_of_perm distinct (ordered_mergeSort data.toList)
      ((Array.perm_iff_toList_perm.mp rearranged).trans (List.mergeSort_perm _ _).symm)

/-- Keys of three bytes, which digits of two bytes do not cover evenly. -/
def threeBytes : KeyFormat (BitVec 24) where
  bytes := 3
  bits value := value.setWidth 128

/-- Keys of three bytes increase with the numbers that they hold. -/
theorem threeBytes_increasing : threeBytes.Increasing (compareOn BitVec.toNat) := by
  have widened (value : BitVec 24) : (threeBytes.bits value).toNat = value.toNat := by
    have fits := value.isLt
    change (value.setWidth 128).toNat = value.toNat
    rw [BitVec.toNat_setWidth]
    omega
  refine ⟨by decide, fun value => ?_, fun x y less => ?_⟩
  · rw [widened]
    exact value.isLt
  · rw [widened, widened]
    exact compare_lt_iff_lt.mp less

/-- Signed bytes and keys of three bytes by digits of two bytes and two workers, one of whom
asks for more work now and then. -/
theorem sort_ascending_twoBytes :
    let settings : Settings := { threads := 2, subsortThreshold := 2, minParallelChunk := 1 }
    let schedule : Schedule :=
      ⟨fun turn => turn, fun _ => { idle := fun asked => asked % 2 = 0, settled := fun _ => 1 }⟩
    (∃ stats, sortIntegers ⟨.bits8, true⟩ .twoBytes settings {} schedule #[5, 253, 127, 128] =
      .sorted (([5, 253, 127, 128] : List (BitVec 8)).mergeSort
        fun x y => x.toInt ≤ y.toInt).toArray stats) ∧
    ∃ sorted stats,
      sort (keyRules threeBytes .twoBytes (compareOn BitVec.toNat) settings) {} schedule
        #[65536, 3, 256, 3] = .sorted sorted stats ∧
      sorted.Perm #[65536, 3, 256, 3] ∧ Ordered (compareOn BitVec.toNat) sorted.toList ∧
      ((∀ x y : BitVec 24, compareOn BitVec.toNat x y = .eq → x = y) →
        sorted.toList =
          [65536, 3, 256, 3].mergeSort fun x y => (compareOn BitVec.toNat x y).isLE) := by
  intro settings schedule
  have valid : settings.Valid := ⟨by decide, by decide, by decide⟩
  have sized : settings.Sized DigitWidth.twoBytes.radix 4 :=
    .of_workers (by decide) (by decide) (by decide)
  have granted : ({} : Resources).grants .shadow = true := rfl
  obtain ⟨integers, others⟩ := sort_ascending .twoBytes valid granted rfl schedule
  exact ⟨integers ⟨.bits8, true⟩ #[5, 253, 127, 128] sized,
    others _ threeBytes _ inferInstance threeBytes_increasing _ Comparison.sort_exact
      #[65536, 3, 256, 3] sized⟩

end Msd

end RadixSort
