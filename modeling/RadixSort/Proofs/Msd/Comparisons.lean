import RadixSort.Proofs.Msd.Run
import Mathlib.Data.Set.Card

/-!
# How many ranges are finished by comparison

A range that is dispatched a digit deeper holds the elements that begin with some digits.
Whether it goes to the fallback depends on how many there are and on how many digits they
are known to share, so the ranges that do are counted by digit strings, with no mention of
frames, of the order in which they are taken, or of who takes them. Such a string has a
group that is short, or has no digit left, and the group with one digit fewer is not short.
-/
namespace RadixSort

open Recursion

variable {α : Type} {radix : Nat}

/-- The digits of a value at all depths before some depth. -/
def digitString (digit : α → Nat → Fin radix) (depth : Nat) (x : α) : List (Fin radix) :=
  (List.range depth).map (digit x)

/-- How many elements begin with these digits. -/
def carriers (digit : α → Nat → Fin radix) (elements : List α) (digits : List (Fin radix)) : Nat :=
  elements.countP fun x => digitString digit digits.length x = digits

/-- The digits of a group of elements that is finished by comparison: there is something to
sort, the group is short or no digit is left, and the group with one digit fewer, if there is
one, is not short. -/
structure Compared (digit : α → Nat → Fin radix) (elements : List α) (threshold maxDepth : Nat)
    (digits : List (Fin radix)) : Prop where
  shallow : digits.length ≤ maxDepth
  many : 2 ≤ carriers digit elements digits
  ends : carriers digit elements digits < threshold ∨ digits.length = maxDepth
  above : digits ≠ [] → threshold ≤ carriers digit elements digits.dropLast

section Strings

variable {digit : α → Nat → Fin radix}

@[simp] theorem length_digitString (digit : α → Nat → Fin radix) (depth : Nat) (x : α) :
    (digitString digit depth x).length = depth := by
  rw [digitString, List.length_map, List.length_range]

/-- The digits before the next depth are those before this one and the digit here. -/
theorem digitString_succ (digit : α → Nat → Fin radix) (depth : Nat) (x : α) :
    digitString digit (depth + 1) x = digitString digit depth x ++ [digit x depth] := by
  rw [digitString, List.range_succ, List.map_append, List.map_singleton]
  rfl

/-- The first digits are those before a smaller depth. -/
theorem take_digitString (digit : α → Nat → Fin radix) {shallow depth : Nat}
    (le : shallow ≤ depth) (x : α) :
    (digitString digit depth x).take shallow = digitString digit shallow x := by
  rw [digitString, ← List.map_take, List.take_range, Nat.min_eq_left le]
  rfl

/-- Elements are alike before a depth if they have the same digits there. -/
theorem digitString_eq_iff {depth : Nat} {x y : α} :
    digitString digit depth x = digitString digit depth y ↔ Alike digit depth x y := by
  simp only [digitString, List.map_inj_left, List.mem_range, Alike]

/-- No more elements begin with some digits than with the first of them. -/
theorem carriers_antitone (digit : α → Nat → Fin radix) (elements : List α)
    {digits longer : List (Fin radix)} (first : digits <+: longer) :
    carriers digit elements longer ≤ carriers digit elements digits := by
  refine List.countP_mono_left fun x _ carries => decide_eq_true ?_
  calc digitString digit digits.length x
      = (digitString digit longer.length x).take digits.length :=
        (take_digitString digit first.length_le x).symm
    _ = longer.take digits.length := by rw [of_decide_eq_true carries]
    _ = digits := (List.prefix_iff_eq_take.mp first).symm

/-- Among the elements that begin with some digits, those that have a certain digit next are
those that begin with one digit more. -/
theorem filter_digit_filter (digit : α → Nat → Fin radix) (elements : List α)
    (digits : List (Fin radix)) (next : Fin radix) :
    (elements.filter fun x => digitString digit digits.length x = digits).filter
        (digit · digits.length = next) =
      elements.filter fun x =>
        digitString digit (digits ++ [next]).length x = digits ++ [next] := by
  rw [List.filter_filter]
  apply List.filter_congr
  intro x _
  rw [List.length_append, List.length_singleton, digitString_succ]
  simp [and_comm]

end Strings

/-- There are so many digit strings that begin with some digits and have a property. -/
def Enumerated (property : List (Fin radix) → Prop) (start : List (Fin radix)) (count : Nat) :
    Prop :=
  ∃ strings : List (List (Fin radix)), strings.Nodup ∧
    (∀ digits, digits ∈ strings ↔ start <+: digits ∧ property digits) ∧ strings.length = count

namespace Enumerated

variable {property : List (Fin radix) → Prop} {start : List (Fin radix)} {count : Nat}

/-- No digit string that begins so has the property. -/
theorem none (fails : ∀ digits, start <+: digits → ¬property digits) :
    Enumerated property start 0 := by
  refine ⟨[], List.nodup_nil, fun digits => ?_, rfl⟩
  constructor
  · exact fun listed => absurd listed List.not_mem_nil
  · exact fun ⟨first, holds⟩ => absurd holds (fails digits first)

/-- Only the digits themselves have the property. -/
theorem single (holds : property start)
    (only : ∀ digits, start <+: digits → property digits → digits = start) :
    Enumerated property start 1 := by
  refine ⟨[start], List.nodup_singleton _, fun digits => ?_, rfl⟩
  rw [List.mem_singleton]
  constructor
  · rintro rfl
    exact ⟨List.prefix_refl _, holds⟩
  · exact fun ⟨first, has⟩ => only digits first has

/-- Digit strings that begin with certain digits, but are longer, have one of all digits
next. -/
theorem join (fails : ¬property start) {each : Fin radix → Nat}
    (listed : ∀ next, Enumerated property (start ++ [next]) (each next)) :
    Enumerated property start ((List.finRange radix).map each).sum := by
  choose strings distinct members lengths using listed
  refine ⟨(List.finRange radix).flatMap strings, ?_, fun digits => ?_, ?_⟩
  · refine List.nodup_flatMap.mpr ⟨fun next _ => distinct next, ?_⟩
    refine (List.nodup_finRange radix).imp fun {one other} differ digits first second => ?_
    have same := List.prefix_of_prefix_length_le ((members one digits).mp first).1
      ((members other digits).mp second).1 (by simp)
    have equal := same.eq_of_length (by simp)
    exact differ (List.singleton_inj.mp (List.append_cancel_left equal))
  · rw [List.mem_flatMap]
    constructor
    · rintro ⟨next, -, listed⟩
      obtain ⟨first, holds⟩ := (members next digits).mp listed
      exact ⟨(List.prefix_append _ _).trans first, holds⟩
    · rintro ⟨⟨rest, rfl⟩, holds⟩
      cases rest with
      | nil => exact absurd (List.append_nil start ▸ holds) fails
      | cons next rest =>
        refine ⟨next, List.mem_finRange next, (members next _).mpr ⟨⟨rest, ?_⟩, holds⟩⟩
        rw [List.append_assoc, List.singleton_append]
  · rw [List.length_flatMap]
    simp only [lengths]

/-- The digit strings that have a property are as many as are listed. -/
theorem encard (listed : Enumerated property [] count) :
    {digits | property digits}.encard = count := by
  obtain ⟨strings, distinct, members, rfl⟩ := listed
  have same : {digits | property digits} = (strings.toFinset : Set (List (Fin radix))) := by
    ext digits
    rw [Set.mem_ofPred_eq, Finset.mem_coe, List.mem_toFinset, members digits]
    simp
  rw [same, Set.encard_coe_eq_coe_finsetCard, List.toFinset_card_of_nodup distinct]

end Enumerated

/-- What is finished by comparison in joined buckets is what is in each of them. -/
theorem Recursion.comparisonSorts_join (results : Fin radix → Result α) :
    (join ((List.finRange radix).map results)).counts.comparisonSorts =
      ((List.finRange radix).map fun bucket => (results bucket).counts.comparisonSorts).sum := by
  rw [join_eq, Counts.comparisonSorts_sum, List.map_map, List.map_map]
  rfl

/-- The digits of the groups that a sort by the rules finishes by comparison. -/
def Rules.Compares (rules : Rules α radix) (data : List α) : List (Fin radix) → Prop :=
  Compared rules.digits.digit data rules.settings.subsortThreshold rules.maxDepth

/-- A range that has been dispatched holds the elements of the input that begin with some
digits, and the range that it was a bucket of was not short. -/
structure Gathered (rules : Rules α radix) (data : List α) (start : List (Fin radix))
    (elements : List α) : Prop where
  members : elements.Perm
    (data.filter fun x => digitString rules.digits.digit start.length x = start)
  shallow : start.length ≤ rules.maxDepth
  above : start ≠ [] →
    rules.settings.subsortThreshold ≤ carriers rules.digits.digit data start.dropLast

namespace Gathered

variable {rules : Rules α radix} {data elements : List α} {start : List (Fin radix)}

/-- The input begins with no digits. -/
theorem whole (rules : Rules α radix) (data : List α) : Gathered rules data [] data where
  members := by
    have every : data.filter (fun x => digitString rules.digits.digit 0 x = []) = data :=
      List.filter_eq_self.mpr fun x _ => decide_eq_true rfl
    exact (List.Perm.of_eq every).symm
  shallow := Nat.zero_le _
  above none := absurd rfl none

/-- There are as many elements in the range as begin with its digits. -/
theorem length_eq (group : Gathered rules data start elements) :
    elements.length = carriers rules.digits.digit data start := by
  rw [group.members.length_eq, carriers, List.countP_eq_length_filter]

/-- A bucket of a range that is not short has one digit more. -/
theorem bucket (group : Gathered rules data start elements)
    (lengthy : rules.settings.subsortThreshold ≤ elements.length)
    (deeper : start.length < rules.maxDepth) {next : Fin radix} {share : List α}
    (same : share.Perm (elements.filter (rules.digits.digit · start.length = next))) :
    Gathered rules data (start ++ [next]) share where
  members := by
    rw [← filter_digit_filter]
    exact same.trans (group.members.filter _)
  shallow := by
    rw [List.length_append]
    exact deeper
  above _ := by
    rw [List.dropLast_concat, ← group.length_eq]
    exact lengthy

variable (group : Gathered rules data start elements)

include group

/-- Nothing of a range that is in order already is finished by comparison. -/
theorem enumerated_of_few (few : elements.length ≤ 1) :
    Enumerated (rules.Compares data) start 0 := by
  refine .none fun digits first compared => ?_
  have fewer := carriers_antitone rules.digits.digit data first
  have many := compared.many
  rw [group.length_eq] at few
  omega

/-- A range that ends is finished by comparison as a whole. -/
theorem enumerated_of_ends (many : 2 ≤ elements.length)
    (ends : rules.Ends elements.length start.length) :
    Enumerated (rules.Compares data) start 1 := by
  have length := group.length_eq
  refine .single ⟨group.shallow, length ▸ many, ?_, group.above⟩ ?_
  · rw [← length]
    exact ends.imp_right fun deep => Nat.le_antisymm group.shallow deep
  · -- A longer string needs a group before it that is not short, and no such group is larger
    -- than this one.
    rintro digits ⟨rest, rfl⟩ compared
    by_contra longer
    have some : rest ≠ [] := by
      rintro rfl
      exact longer (List.append_nil start)
    have positive := List.length_pos_iff.mpr some
    have shallow := compared.shallow
    have above := compared.above (by simp [some])
    rw [List.dropLast_append_of_ne_nil some] at above
    have fewer := carriers_antitone rules.digits.digit data
      (List.prefix_append start rest.dropLast)
    rw [List.length_append] at shallow
    rcases ends with short | deep <;> omega

/-- What is finished by comparison of a range that goes on is what is of its buckets. -/
theorem enumerated_of_goesOn (lengthy : rules.settings.subsortThreshold ≤ elements.length)
    (deeper : start.length < rules.maxDepth) {each : Fin radix → Nat}
    (listed : ∀ next, Enumerated (rules.Compares data) (start ++ [next]) (each next)) :
    Enumerated (rules.Compares data) start ((List.finRange radix).map each).sum := by
  refine .join (fun compared => ?_) listed
  have ends := compared.ends
  rw [← group.length_eq] at ends
  omega

end Gathered

section Counting

variable {rules : Rules α radix} {data elements : List α} {start : List (Fin radix)}
  {result : Result α}

/-- A job finishes by comparison the groups below its range that are to be finished so. -/
theorem JobSorts.enumerated {depth : Nat} (sorts : JobSorts rules elements depth result)
    (group : Gathered rules data start elements) (level : start.length = depth) :
    Enumerated (rules.Compares data) start result.counts.comparisonSorts := by
  induction sorts generalizing start with
  | alone few => exact group.enumerated_of_few few
  | final many ends finished => exact group.enumerated_of_ends many (level ▸ ends)
  | @split elements depth results many goesOn readable each ih =>
    subst level
    have lengthy : rules.settings.subsortThreshold ≤ elements.length :=
      Nat.le_of_not_lt fun short => goesOn (.inl short)
    have deeper : start.length < rules.maxDepth :=
      Nat.lt_of_not_le fun deep => goesOn (.inr deep)
    rw [comparisonSorts_join]
    refine group.enumerated_of_goesOn lengthy deeper fun next => ih next ?_ (by simp)
    exact group.bucket lengthy deeper ((arrange_perm _ _ _).filter _)

/-- The engine finishes by comparison the groups below a range that are to be finished so, if
no short range is partitioned by several tasks. -/
theorem EngineSorts.enumerated {total depth : Nat}
    (sorts : EngineSorts rules total elements depth result)
    (lengthy : ∀ length threshold depth, 2 ≤ length → rules.InForce total length threshold →
      rules.Long threshold length depth → rules.settings.subsortThreshold ≤ length)
    (group : Gathered rules data start elements) (level : start.length = depth) :
    Enumerated (rules.Compares data) start result.counts.comparisonSorts := by
  induction sorts generalizing start with
  | alone few => exact group.enumerated_of_few few
  | job many inForce short sorts => exact sorts.enumerated group level
  | @step elements depth threshold results many inForce long readable each ih =>
    subst level
    have lengthy := lengthy _ _ _ many inForce long
    have positive : 0 < Rules.chunkLength elements.length threshold :=
      Rules.chunkLength_pos (by omega)
    have shares := bucketShare_perm positive (rules.digits.digit · start.length) elements
    rw [Result.counts_charged, Counts.comparisonSorts_add, comparisonSorts_join]
    refine group.enumerated_of_goesOn lengthy long.2.1 fun next => ih next ?_ (by simp)
    exact group.bucket lengthy long.2.1 (shares next)

/-- A job makes no partition by several tasks and no job that was not given away. -/
theorem JobSorts.counts {depth : Nat} (sorts : JobSorts rules elements depth result) :
    result.counts.bigSteps = 0 ∧ result.counts.ownJobs = 0 := by
  induction sorts with
  | alone few => exact ⟨rfl, rfl⟩
  | final many ends finished => exact ⟨rfl, rfl⟩
  | split many goesOn readable each ih =>
    rw [join_eq]
    refine List.sum_induction (fun counts : Counts => counts.bigSteps = 0 ∧ counts.ownJobs = 0)
      ?_ ⟨rfl, rfl⟩ (by simpa using ih)
    rintro one other ⟨steps, jobs⟩ ⟨more, others⟩
    exact ⟨by rw [Counts.bigSteps_add, steps, more], by rw [Counts.ownJobs_add, jobs, others]⟩

/-- Where no part of the input is partitioned by several tasks, a range that has something
to sort is the range of one job. -/
theorem EngineSorts.counts {total depth : Nat} (undivided : rules.Undivided total)
    (many : 2 ≤ elements.length) (sorts : EngineSorts rules total elements depth result) :
    result.counts.bigSteps = 0 ∧ result.counts.ownJobs = 1 := by
  cases sorts with
  | alone few => omega
  | job _ inForce short sorts =>
    obtain ⟨steps, jobs⟩ := sorts.counts
    rw [Result.counts_charged, Counts.bigSteps_add, Counts.ownJobs_add, steps, jobs]
    exact ⟨rfl, rfl⟩
  | step _ inForce long => exact absurd long (undivided _ _ _ inForce)

end Counting

namespace Msd

/-- Where no range is partitioned by several tasks, whatever the schedule and whatever jobs
give away: all jobs but one come from what was given away, and as many ranges are finished
by comparison as there are digits whose group of elements is to be finished so. -/
theorem sort_comparisons {settings : Settings} (valid : settings.Valid)
    (alone : settings.parallelStep = false ∨ settings.threads = 1)
    (digit : α → Nat → Fin radix) (maxDepth : Nat) {fallback : List α → List α}
    (keeps : ∀ elements, (fallback elements).length = elements.length) {data : Array α}
    (many : 2 ≤ data.size) (fits : data.size < Word.bound) {resources : Resources}
    (granted : resources.grants .shadow = true) (started : resources.spawnFailure? = none)
    (schedule : Schedule) :
    ∃ sorted stats,
      sort ⟨settings, .ofTotal digit, fun elements => .ok (fallback elements), maxDepth⟩
        resources schedule data = .sorted sorted stats ∧
      stats.bigSteps = 0 ∧ stats.smallJobs = stats.donatedJobs + 1 ∧
      {digits | Compared digit data.toList settings.subsortThreshold maxDepth digits}.encard =
        stats.comparisonSorts := by
  let rules : Rules α radix :=
    ⟨settings, .ofTotal digit, fun elements => .ok (fallback elements), maxDepth⟩
  have undivided : rules.Undivided data.size := .of_alone alone fits
  have excuses : Excuses rules data.size fun _ => False :=
    .of_total (fun _ _ => rfl) (fun elements => ⟨_, rfl, keeps elements⟩)
      (.inl (.inr ⟨fits, undivided⟩))
  obtain ⟨sorted, stats, counts, ran, sorts, tallied⟩ :=
    sort_exact excuses schedule valid granted started
  obtain ⟨steps, jobs⟩ := sorts.counts undivided many
  have listed := sorts.enumerated
    (fun length threshold depth _ inForce long => absurd long (undivided _ _ _ inForce))
    (.whole rules data.toList) rfl
  refine ⟨sorted, stats, ran, tallied.bigSteps.trans steps, ?_, ?_⟩
  · have smallJobs := tallied.smallJobs
    rw [jobs] at smallJobs
    exact smallJobs
  · rw [tallied.comparisonSorts]
    exact listed.encard

/-- The digits of a pair of bytes are the bytes, the second one at all depths but the first. -/
def pairDigit (pair : Fin 256 × Fin 256) (depth : Nat) : Fin DigitWidth.oneByte.radix :=
  if depth = 0 then pair.1 else pair.2

/-- Five pairs of bytes, by workers one of whom asks for more work now and then, with a
fallback that reverses what it is given. -/
theorem sort_comparisons_pairs : ∃ sorted stats,
    sort ⟨{ threads := 2, subsortThreshold := 3, parallelStep := false }, .ofTotal pairDigit,
        fun elements => .ok elements.reverse, 2⟩
      {} ⟨fun turn => turn, fun _ => { idle := fun asked => asked % 2 = 0, settled := fun _ => 1 }⟩
      #[(5, 3), (250, 1), (5, 3), (5, 0), (250, 7)] = .sorted sorted stats ∧
    stats.bigSteps = 0 ∧ stats.smallJobs = stats.donatedJobs + 1 ∧
    {digits | Compared pairDigit [(5, 3), (250, 1), (5, 3), (5, 0), (250, 7)] 3 2 digits}.encard =
      stats.comparisonSorts := by
  have valid : Settings.Valid { threads := 2, subsortThreshold := 3, parallelStep := false } :=
    ⟨by decide, by decide, by decide⟩
  exact sort_comparisons valid (.inl rfl) pairDigit 2 (fun elements => List.length_reverse)
    (by decide) (by decide) rfl rfl _

end Msd

end RadixSort
