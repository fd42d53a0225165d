import RadixSort.Proofs.Msd.ByTurns
import RadixSort.Proofs.Msd.Locality
import RadixSort.Proofs.Msd.Sorted

/-!
# How a call ends

Five ends are possible, and each has its condition. The settings come first, then the
length of the input, then the reservation, and only then is an element looked at. From
there on the only thing that can go wrong is an element that refuses to be read, and it
does go wrong if there is one in the input and the whole input is partitioned: then every
element is read once at depth zero, before anything else happens to it. Otherwise the
input goes to the fallback as a whole, and no element is read at all.
-/
namespace RadixSort

open Recursion

variable {α : Type} {radix : Nat} {rules : Rules α radix} {data : Array α}

/-- The whole of an input of some length is partitioned by its digits: digits are asked for,
and the input is long enough for one job or for several tasks. -/
def Rules.Partitions (rules : Rules α radix) (length : Nat) : Prop :=
  0 < rules.maxDepth ∧ (rules.settings.subsortThreshold ≤ length ∨
    rules.settings.parallelStep = true ∧
      max rules.settings.minParallelChunk (length / rules.settings.threads) < length)

/-- If the engine has a result for an input that is partitioned as a whole, all elements of
the input can be read. -/
theorem EngineSorts.readable {elements : List α} {result : Result α}
    (sorts : EngineSorts rules elements.length elements 0 result) (many : 2 ≤ elements.length)
    (fits : elements.length < Word.bound) (partitions : rules.Partitions elements.length) :
    rules.Readable elements 0 := by
  obtain ⟨deep, large⟩ := partitions
  cases sorts with
  | alone few => omega
  | step _ _ _ readable _ => exact readable
  | job _ inForce short sorts =>
    obtain ⟨rest, within, -, rfl⟩ := inForce
    obtain rfl : rest = elements.length := Nat.le_antisymm (within fits).2 (within fits).1
    have enough : rules.settings.subsortThreshold ≤ elements.length :=
      large.resolve_right fun ⟨parallel, longer⟩ => short ⟨parallel, deep, longer⟩
    cases sorts with
    | alone few => omega
    | split _ _ readable _ => exact readable
    | final _ ends _ =>
      rcases ends with less | deepest
      · exact absurd less (Nat.not_lt.mpr enough)
      · exact absurd deepest (Nat.not_le.mpr deep)

namespace Msd

open Engine

/-- An input that is not partitioned as a whole becomes one job. -/
theorem dispatch_whole (fits : data.size < Word.bound) (whole : ¬rules.Partitions data.size) :
    (Engine.fresh data).dispatch rules (fun _ => 0) ⟨Window.whole data.size, 0⟩ =
      .ok (Engine.fresh data, [.small ⟨Window.whole data.size, 0⟩]) := by
  let work : Work α := .fresh data
  have rest : work.rest.toNat = data.size := Nat.mod_eq_of_lt fits
  have threshold : work.sequentialThreshold rules.settings data.size =
      max rules.settings.minParallelChunk (data.size / rules.settings.threads) := by
    rw [Work.sequentialThreshold, rest, ite_self]
  have short : ¬isLong rules work ⟨Window.whole data.size, 0⟩ = true := by
    rw [isLong_iff]
    rintro ⟨parallel, deep, longer⟩
    exact whole ⟨deep, .inr ⟨parallel, threshold ▸ longer⟩⟩
  exact if_neg short

/-- A job that is an input not partitioned as a whole hands it to the fallback: it reads no
digit and gives nothing away. -/
theorem run_whole (refusal? : α → Nat → Option Fault) (whole : ¬rules.Partitions data.size)
    (idle : Nat → Bool) (work : Work α) :
    Coincide (fun ended => ended.2 = [])
      (SmallJob.run rules idle ⟨Window.whole data.size, 0⟩ work)
      (SmallJob.run (rules.refusing refusal?) idle ⟨Window.whole data.size, 0⟩ work) := by
  have ends : data.size < rules.settings.subsortThreshold ∨ rules.maxDepth ≤ 0 := by
    by_contra goesOn
    obtain ⟨enough, deep⟩ := not_or.mp goesOn
    exact whole ⟨Nat.lt_of_not_le deep, .inl (Nat.le_of_not_lt enough)⟩
  refine .ite (fun _ => .refl ?_) fun goesOn => absurd ends goesOn
  exact Ensures.trivial.bind fun finished _ => rfl

/-- The only task of an input that is not partitioned as a whole makes no further task. -/
theorem perform_whole (refusal? : α → Nat → Option Fault) (whole : ¬rules.Partitions data.size)
    (news : News) (engine : Engine α radix) :
    Coincide (fun made => made.2 = [])
      (perform rules news (.small ⟨Window.whole data.size, 0⟩) engine)
      (perform (rules.refusing refusal?) news (.small ⟨Window.whole data.size, 0⟩) engine) :=
  (run_whole refusal? whole news.idle _).bind fun _ none => .pure (List.map_eq_nil_iff.mpr none)

/-- A sort that does not partition its whole input comes to the same end whatever its digit
rule refuses. -/
theorem serveTasks_refusing_whole (refusal? : α → Nat → Option Fault) (schedule : Schedule)
    (count : Nat) (fits : data.size < Word.bound) (whole : ¬rules.Partitions data.size) :
    serveTasks rules schedule count data =
      serveTasks (rules.refusing refusal?) schedule count data := by
  have opened : Ensures (fun _ => True) (Pool.opened rules.settings.threads)
      fun pool : Pool EngineTask => pool.queue = [] := by
    unfold Pool.opened
    split <;> trivial
  suffices same : Coincide (fun _ => True) (serveTasks rules schedule count data)
      (serveTasks (rules.refusing refusal?) schedule count data) from same.1
  refine (Coincide.refl opened).bind fun pool empty => ?_
  have wholeToo : ¬(rules.refusing refusal?).Partitions data.size := whole
  rw [dispatch_whole fits whole, dispatch_whole fits wholeToo]
  refine ⟨congrArg Except.ok ?_, trivial⟩
  have queue : (pool.enqueueAll [EngineTask.small ⟨Window.whole data.size, 0⟩]).queue =
      [.small ⟨Window.whole data.size, 0⟩] := by
    rw [Pool.queue_enqueueAll, empty]
    rfl
  cases count with
  | zero => rfl
  | succ count =>
    have first := Nat.mod_one (schedule.pick 0)
    rw [Pool.serve, Pool.serve, Pool.take?, queue, List.length_singleton, first]
    obtain ⟨same, alone⟩ := perform_whole refusal? whole (schedule.news 0) (Engine.fresh data)
    dsimp only [List.getElem?_cons_zero, execute, carryOut]
    rw [← same]
    cases ran : perform rules (schedule.news 0) (.small ⟨Window.whole data.size, 0⟩)
        (Engine.fresh data) with
    | error fault => rfl
    | ok made =>
      obtain ⟨engine, spawned⟩ := made
      obtain rfl : spawned = [] := alone.of_ok ran
      dsimp only
      rw [Pool.serve_idle, Pool.serve_idle]
      · rfl
      · rfl

variable {resources : Resources} {schedule : Schedule}

/-- Settings that are not refused are valid. -/
theorem valid_of_refusal {settings : Settings} (accepted : settings.refusal? = none) :
    settings.Valid := by
  have none : settings.zeroParameter? = none := Option.map_eq_none_iff.mp accepted
  unfold Settings.zeroParameter? at none
  refine ⟨?_, ?_, ?_⟩ <;> grind

/-- A call that does not get as far as its elements ends early, and leaves its data alone. -/
theorem early_of_not_proceeds (stops : ¬Proceeds rules.settings resources data.size) :
    ∃ outcome, early? rules.settings resources data = some outcome ∧
      ((∃ error, outcome = .refused error data) ∨ data.size ≤ 1 ∧ outcome = .sorted data {}) := by
  unfold early?
  cases accepted : rules.settings.refusal? with
  | some error => exact ⟨_, rfl, .inl ⟨error, rfl⟩⟩
  | none =>
    by_cases few : data.size ≤ 1
    · exact ⟨_, if_pos few, .inr ⟨few, rfl⟩⟩
    · have withheld : ¬resources.grants .shadow = true := fun granted =>
        stops ⟨valid_of_refusal accepted, Nat.lt_of_not_le few, granted⟩
      refine ⟨.refused (.allocation data.size) data, ?_, .inl ⟨_, rfl⟩⟩
      simp only [few, withheld, if_false, Bool.not_false, if_true]

/-- A call that ends early asks nobody about its elements: it ends in the same way for all
schedules, digit rules, fallbacks and depths. -/
theorem sort_of_early {outcome : Outcome α Stats}
    (early : early? rules.settings resources data = some outcome) {other : Rules α radix}
    (same : other.settings = rules.settings) (schedule : Schedule) :
    sort other resources schedule data = outcome := by
  rw [sort, same, early]

/-- A call that does not get as far as its elements leaves its data alone. -/
theorem sort_of_not_proceeds (stops : ¬Proceeds rules.settings resources data.size)
    (schedule : Schedule) :
    (∃ error, sort rules resources schedule data = .refused error data) ∨
      data.size ≤ 1 ∧ sort rules resources schedule data = .sorted data {} := by
  obtain ⟨outcome, early, ends⟩ := early_of_not_proceeds stops
  rwa [sort_of_early early rfl schedule]

/-- A call that gets as far as its elements is not refused. -/
theorem Proceeds.ne_refused (proceeds : Proceeds rules.settings resources data.size)
    (started : resources.spawnFailure? = none) (error : SortError) (returned : Array α) :
    sort rules resources schedule data ≠ .refused error returned := by
  rw [sort_of_proceeds proceeds started]
  cases sortStarted rules schedule data <;> nofun

/-- A call whose settings are valid is not refused for one of them. -/
theorem ne_invalid_of_valid (valid : rules.settings.Valid)
    (started : resources.spawnFailure? = none) (name reason : String) (returned : Array α) :
    sort rules resources schedule data ≠ .refused (.invalidConfig name reason) returned := by
  by_cases proceeds : Proceeds rules.settings resources data.size
  · exact proceeds.ne_refused started _ returned
  · unfold sort early?
    rw [refusal_of_valid valid]
    by_cases few : data.size ≤ 1
    · simp [few]
    · have withheld : ¬resources.grants .shadow = true := fun granted =>
        proceeds ⟨valid, Nat.lt_of_not_le few, granted⟩
      simp [few, withheld]

/-- An input whose elements could each have a row of the count table fits a word. -/
theorem fits_of_table {length : Nat} (wide : 2 ≤ radix) (fits : length * radix < Word.bound) :
    length < Word.bound := by
  have table := Nat.mul_le_mul_left length wide
  omega

/-- A call whose fallback rearranges what it is given either rearranges its input or is
abandoned because an element of it refuses to be read.

Elements outside the input do not matter, so the rule may be taken to refuse none of
them, and then every fault it has is one of the input. -/
theorem sort_ensures (rules : Rules α radix) (wide : 2 ≤ radix)
    (permutes : ∀ elements, ∃ sorted, rules.fallback elements = .ok sorted ∧
      sorted.Perm elements)
    (fits : data.size * radix < Word.bound)
    (proceeds : Proceeds rules.settings resources data.size)
    (started : resources.spawnFailure? = none) (schedule : Schedule) :
    (∃ sorted stats, sort rules resources schedule data = .sorted sorted stats ∧
      sorted.Perm data ∧
      (rules.Partitions data.size → ∀ x ∈ data, rules.digits.refusal? x 0 = none)) ∨
    ∃ fault, sort rules resources schedule data = .abandoned fault ∧
      ∃ x ∈ data, ∃ depth < rules.maxDepth, rules.digits.refusal? x depth = some fault := by
  classical
  let own : α → Nat → Option Fault := fun x depth =>
    if x ∈ data then rules.digits.refusal? x depth else none
  have keeps : ∀ elements sorted, rules.fallback elements = .ok sorted → sorted.Perm elements :=
    fun elements sorted => Ensures.of_exists_ok (permutes elements)
  have same : sort rules resources schedule data =
      sort (rules.refusing own) resources schedule data :=
    sort_refusing (fun x depth member => (if_pos member).symm)
      (fun elements sorted ran x => (keeps elements sorted ran).mem_iff.mp) resources schedule
  have excuses : Excuses (rules.refusing own) data.size fun fault =>
      ∃ x ∈ data, ∃ depth < rules.maxDepth, rules.digits.refusal? x depth = some fault := by
    refine ⟨?_, ?_, ?_, .inl (.inl (.of_table ⟨wide, fits⟩))⟩
    · intro x depth fault deep refuses
      by_cases member : x ∈ data
      · exact ⟨x, member, depth, deep, (if_pos member).symm.trans refuses⟩
      · cases (if_neg member).symm.trans refuses
    · intro elements fault fails
      obtain ⟨sorted, ran, -⟩ := permutes elements
      cases ran.symm.trans fails
    · exact fun elements sorted ran => (keeps elements sorted ran).length_eq
  have ended := sortStarted_ensures excuses schedule proceeds.valid.1 proceeds.many
  have proceedsToo : Proceeds (rules.refusing own).settings resources data.size := proceeds
  rw [same, sort_of_proceeds proceedsToo started]
  cases ran : sortStarted (rules.refusing own) schedule data with
  | error fault =>
    rw [ran] at ended
    exact .inr ⟨fault, rfl, ended⟩
  | ok result =>
    obtain ⟨counts, sorts, -⟩ := ended.of_ok ran
    have rearranged := sorts.perm (by exact keeps)
    refine .inl ⟨result.1, result.2, rfl, Array.perm_iff_toList_perm.mpr rearranged, ?_⟩
    intro partitions x member
    have readable := sorts.readable proceeds.many (fits_of_table wide fits) partitions
    exact (if_pos member).symm.trans (readable x (Array.mem_toList_iff.mpr member))

/-- A call that does not partition its whole input rearranges it, whatever its digit rule
refuses. -/
theorem sort_of_whole (wide : 2 ≤ radix)
    (permutes : ∀ elements, ∃ sorted, rules.fallback elements = .ok sorted ∧
      sorted.Perm elements)
    (fits : data.size * radix < Word.bound)
    (proceeds : Proceeds rules.settings resources data.size)
    (started : resources.spawnFailure? = none) (whole : ¬rules.Partitions data.size) :
    ∃ sorted stats, sort rules resources schedule data = .sorted sorted stats ∧
      sorted.Perm data := by
  let silent : Rules α radix := rules.refusing fun _ _ => none
  have proceedsToo : Proceeds silent.settings resources data.size := proceeds
  have same : sort rules resources schedule data = sort silent resources schedule data := by
    have served := serveTasks_refusing_whole (fun _ _ => none) schedule
      (allowance data.size rules.maxDepth) (fits_of_table wide fits) whole
    have ended : sortStarted rules schedule data = sortStarted silent schedule data :=
      congrArg (· >>= _) served
    rw [sort_of_proceeds proceeds started, sort_of_proceeds proceedsToo started, ended]
  rw [same]
  rcases sort_ensures silent wide permutes fits proceedsToo started schedule with
    ⟨sorted, stats, ran, rearranged, -⟩ | ⟨fault, -, x, -, depth, -, refuses⟩
  · exact ⟨sorted, stats, ran, rearranged⟩
  · cases refuses

/-- A call whose settings are refused names the first of them that is zero. -/
theorem sort_of_zero {parameter : Parameter}
    (zero : rules.settings.zeroParameter? = some parameter) :
    sort rules resources schedule data = .refused (.zero parameter) data := by
  have refused : rules.settings.refusal? = some (.zero parameter) :=
    congrArg (Option.map SortError.zero) zero
  rw [sort, early?, refused]

/-- A call is refused for one of its settings exactly if one of them is zero. -/
theorem invalid_iff (started : resources.spawnFailure? = none) :
    (∃ name reason returned,
      sort rules resources schedule data = .refused (.invalidConfig name reason) returned) ↔
    rules.settings.threads = 0 ∨ rules.settings.subsortThreshold = 0 ∨
      rules.settings.minParallelChunk = 0 := by
  constructor
  · rintro ⟨name, reason, returned, refused⟩
    by_contra positive
    simp only [not_or, ← Nat.pos_iff_ne_zero] at positive
    exact ne_invalid_of_valid positive started name reason returned refused
  · intro zero
    cases first : rules.settings.zeroParameter? with
    | some parameter => exact ⟨_, _, _, sort_of_zero first⟩
    | none =>
      have accepted : rules.settings.refusal? = none := congrArg (Option.map SortError.zero) first
      obtain ⟨threads, subsort, chunk⟩ := valid_of_refusal accepted
      omega

section Reading

variable {bad : α → Prop}
  (uniform : ∀ x depth, (rules.digits.refusal? x depth).isSome = true ↔ bad x)
  (permutes : ∀ elements, ∃ sorted, rules.fallback elements = .ok sorted ∧ sorted.Perm elements)
  (wide : 2 ≤ radix) (fits : data.size * radix < Word.bound)
  (started : resources.spawnFailure? = none)

include permutes wide fits started

/-- A call is abandoned with the fault of an element that refuses to be read. -/
theorem raised_of_abandoned {fault : Fault}
    (abandoned : sort rules resources schedule data = .abandoned fault) :
    ∃ x ∈ data, ∃ depth < rules.maxDepth, rules.digits.refusal? x depth = some fault := by
  by_cases proceeds : Proceeds rules.settings resources data.size
  · rcases sort_ensures rules wide permutes fits proceeds started schedule with
      ⟨sorted, stats, ran, -⟩ | ⟨other, ran, raised⟩
    · cases abandoned.symm.trans ran
    · cases abandoned.symm.trans ran
      exact raised
  · rcases sort_of_not_proceeds proceeds schedule with ⟨error, ended⟩ | ⟨-, ended⟩
    · cases abandoned.symm.trans ended
    · cases abandoned.symm.trans ended

include uniform

/-- A call rearranges its input if no element of it is bad or it is not partitioned as a
whole. -/
theorem sort_of_clear (proceeds : Proceeds rules.settings resources data.size)
    (clear : ¬((∃ x ∈ data, bad x) ∧ rules.Partitions data.size)) (schedule : Schedule) :
    ∃ sorted stats, sort rules resources schedule data = .sorted sorted stats ∧
      sorted.Perm data := by
  by_cases partitions : rules.Partitions data.size
  · rcases sort_ensures rules wide permutes fits proceeds started schedule with
      ⟨sorted, stats, ran, rearranged, -⟩ | ⟨fault, -, x, member, depth, -, refuses⟩
    · exact ⟨sorted, stats, ran, rearranged⟩
    · have isBad : bad x := (uniform x depth).mp (Option.isSome_of_eq_some refuses)
      exact absurd ⟨⟨x, member, isBad⟩, partitions⟩ clear
  · exact sort_of_whole wide permutes fits proceeds started partitions

/-- A call that gets as far as its elements is abandoned exactly if one of them is bad and
all of them are read. -/
theorem abandoned_iff (proceeds : Proceeds rules.settings resources data.size) :
    (∃ fault, sort rules resources schedule data = .abandoned fault) ↔
      (∃ x ∈ data, bad x) ∧ rules.Partitions data.size := by
  constructor
  · rintro ⟨fault, abandoned⟩
    by_contra clear
    obtain ⟨sorted, stats, ran, -⟩ := sort_of_clear uniform permutes wide fits started proceeds
      clear schedule
    cases abandoned.symm.trans ran
  · rintro ⟨⟨x, member, isBad⟩, partitions⟩
    rcases sort_ensures rules wide permutes fits proceeds started schedule with
      ⟨sorted, stats, -, -, readable⟩ | ⟨fault, ran, -⟩
    · have refuses := (uniform x 0).mpr isBad
      rw [readable partitions x member] at refuses
      cases refuses
    · exact ⟨fault, ran⟩

end Reading

/-- How a call ends, where `bad` elements refuse to be read and no others do. -/
structure Concludes (rules : Rules α radix) (bad : α → Prop) (resources : Resources)
    (data : Array α) (outcome : Outcome α Stats) : Prop where
  /-- The call is refused for a setting only if a setting is zero. -/
  invalid : (∃ name reason returned, outcome = .refused (.invalidConfig name reason) returned) ↔
    rules.settings.threads = 0 ∨ rules.settings.subsortThreshold = 0 ∨
      rules.settings.minParallelChunk = 0
  threads : rules.settings.threads = 0 → outcome = .refused (.zero .threads) data
  subsortThreshold : rules.settings.threads ≠ 0 → rules.settings.subsortThreshold = 0 →
    outcome = .refused (.zero .subsortThreshold) data
  minParallelChunk : rules.settings.threads ≠ 0 → rules.settings.subsortThreshold ≠ 0 →
    rules.settings.minParallelChunk = 0 → outcome = .refused (.zero .minParallelChunk) data
  /-- There is nothing to sort. -/
  few : rules.settings.Valid → data.size ≤ 1 → outcome = .sorted data {}
  /-- The scratch array is not granted. -/
  allocation : rules.settings.Valid → 2 ≤ data.size → resources.grants .shadow = false →
    outcome = .refused (.allocation data.size) data
  /-- An element refuses to be read, and the whole input is read. -/
  abandoned : Proceeds rules.settings resources data.size →
    ((∃ fault, outcome = .abandoned fault) ↔ (∃ x ∈ data, bad x) ∧ rules.Partitions data.size)
  /-- A call is abandoned with the fault of such an element, and with no other fault. -/
  raised : ∀ fault, outcome = .abandoned fault →
    ∃ x ∈ data, ∃ depth < rules.maxDepth, rules.digits.refusal? x depth = some fault
  /-- Nothing stands in the way. -/
  sorted : Proceeds rules.settings resources data.size →
    ¬((∃ x ∈ data, bad x) ∧ rules.Partitions data.size) →
    ∃ sorted stats, outcome = .sorted sorted stats ∧ sorted.Perm data
  /-- A refused call leaves the data as it was. -/
  unchanged : ∀ error returned, outcome = .refused error returned → returned = data

/-- How a call ends that is carried out by turns of its workers and of their owner. -/
structure ConcludesByTurns (rules : Rules α radix) (bad : α → Prop) (resources : Resources)
    (data : Array α) (news : Nat → News) : Prop where
  /-- Whichever turns bring the call to its end, it ends as it has to. -/
  ends : ∀ turns outcome, sortByTurns? rules resources news turns data = some outcome →
    Concludes rules bad resources data outcome
  /-- A call that does not get as far as its elements needs no turn, and asks nobody about
  them. -/
  early : ¬Proceeds rules.settings resources data.size → ∃ outcome, ∀ other : Rules α radix,
    other.settings = rules.settings → ∀ turns,
      sortByTurns? other resources news turns data = some outcome
  /-- A call that gets as far as its elements comes to its end: no execution of its pool is
  longer than some bound, and some turn is possible until there is an outcome. -/
  finite : Proceeds rules.settings resources data.size → ∃ life bound,
    manned rules data = .ok life ∧ ∀ turns reached,
      playTurns rules news turns life = some reached → turns.length ≤ bound ∧
        ((∃ outcome, sortByTurns? rules resources news turns data = some outcome) ∨
          ∃ turn next, playTurns rules news [turn] reached = some next)

section Schedules

variable {bad : α → Prop}
  (uniform : ∀ x depth, (rules.digits.refusal? x depth).isSome = true ↔ bad x)
  (permutes : ∀ elements, ∃ sorted, rules.fallback elements = .ok sorted ∧ sorted.Perm elements)
  (wide : 2 ≤ radix) (fits : data.size * radix < Word.bound)
  (started : resources.spawnFailure? = none)

include uniform permutes wide fits started

/-- How a call ends, whatever the schedule. -/
theorem concludes_of_schedule (schedule : Schedule) :
    Concludes rules bad resources data (sort rules resources schedule data) := by
  constructor
  case invalid => exact invalid_iff started
  case threads => exact fun none => sort_of_zero (if_pos none)
  case subsortThreshold =>
    exact fun some none => sort_of_zero ((if_neg some).trans (if_pos none))
  case minParallelChunk =>
    exact fun some more none =>
      sort_of_zero ((if_neg some).trans ((if_neg more).trans (if_pos none)))
  case few =>
    intro valid few
    rw [sort, early?, refusal_of_valid valid]
    dsimp only
    rw [if_pos few]
  case allocation =>
    intro valid many withheld
    have several : ¬data.size ≤ 1 := Nat.not_le.mpr many
    simp only [sort, early?, refusal_of_valid valid, several, withheld, if_false, Bool.not_false,
      if_true]
  case abandoned => exact abandoned_iff uniform permutes wide fits started
  case raised => exact fun fault => raised_of_abandoned permutes wide fits started
  case sorted =>
    exact fun proceeds clear =>
      sort_of_clear uniform permutes wide fits started proceeds clear schedule
  case unchanged =>
    intro error returned refused
    by_cases proceeds : Proceeds rules.settings resources data.size
    · exact absurd refused (proceeds.ne_refused started error returned)
    · rcases sort_of_not_proceeds proceeds schedule with
        ⟨other, ended⟩ | ⟨-, ended⟩
      · cases refused.symm.trans ended
        rfl
      · cases refused.symm.trans ended

/-- A call that is carried out by turns ends as with some schedule, and does come to its end. -/
theorem concludesByTurns (news : Nat → News) : ConcludesByTurns rules bad resources data news := by
  have keeps : KeepsLength rules := by
    intro elements sorted ran
    obtain ⟨other, same, rearranged⟩ := permutes elements
    cases same.symm.trans ran
    exact rearranged.length_eq
  constructor
  case ends =>
    intro turns outcome finished
    obtain ⟨schedule, rfl⟩ := sortByTurns_eq keeps finished
    exact concludes_of_schedule uniform permutes wide fits started schedule
  case early =>
    intro stops
    obtain ⟨outcome, early, -⟩ := early_of_not_proceeds stops
    refine ⟨outcome, fun other same turns => ?_⟩
    rw [sortByTurns?, same, early]
  case finite =>
    intro proceeds
    obtain ⟨life, opened⟩ : ∃ life, manned rules data = .ok life :=
      exists_manned proceeds.valid.1 proceeds.many (.of_table wide fits)
    obtain ⟨bound, each⟩ := turns_conclude news keeps proceeds.many opened
    refine ⟨life, bound, opened, fun turns reached played => ?_⟩
    obtain ⟨short, goesOn⟩ := each turns reached played
    refine ⟨short, ?_⟩
    cases past : reached.verdicts with
    | nil => exact .inr (goesOn past)
    | cons verdict rest =>
      refine .inl ?_
      have first : reached.verdicts.head? = some verdict := by
        rw [past]
        rfl
      rw [sortByTurns?, proceeds.early started, startedByTurns?, opened]
      dsimp only
      rw [played]
      change ∃ outcome, (reached.verdicts.head? >>= _).map _ = some outcome
      rw [first]
      cases verdict <;> exact ⟨_, rfl⟩

end Schedules

/-- How a call ends, whatever the schedule, and whatever the turns of its workers and of their
owner. A call that is refused, or has nothing to sort, would end in the same way with any other
digit rule and any other fallback, those included that refuse whatever they are asked. -/
theorem sort_concludes {width : DigitWidth} (rules : Rules α width.radix) {bad : α → Prop}
    (uniform : ∀ x depth, (rules.digits.refusal? x depth).isSome = true ↔ bad x)
    (permutes : ∀ elements, ∃ sorted, rules.fallback elements = .ok sorted ∧
      sorted.Perm elements)
    {data : Array α} (fits : data.size * width.radix < Word.bound) {resources : Resources}
    (started : resources.spawnFailure? = none) (schedule : Schedule) :
    Concludes rules bad resources data (sort rules resources schedule data) ∧
    ((∃ error, sort rules resources schedule data = .refused error data) ∨ data.size ≤ 1 →
      ∀ other : Rules α width.radix, other.settings = rules.settings →
        sort other resources schedule data = sort rules resources schedule data) ∧
    ∀ news, ConcludesByTurns rules bad resources data news := by
  have wide := width.two_le_radix
  refine ⟨concludes_of_schedule uniform permutes wide fits started schedule, ?_,
    concludesByTurns uniform permutes wide fits started⟩
  intro early other same
  have stops : ¬Proceeds rules.settings resources data.size := by
    intro proceeds
    rcases early with ⟨error, refused⟩ | few
    · exact proceeds.ne_refused started error data refused
    · exact absurd proceeds.many (Nat.not_le.mpr (Nat.lt_succ_of_le few))
  obtain ⟨outcome, ended, -⟩ := early_of_not_proceeds stops
  rw [sort_of_early ended same, sort_of_early ended rfl]

/-- Turns of an owner and two workers: the first worker takes the second of two tasks while the
owner falls asleep, and is lost to its fault. The other worker takes the task that is left, and
the owner, which has been woken, closes the pool and waits for it to end. -/
def lostWorker : List Turn :=
  List.replicate 5 .owner ++ [.worker 0 0, .worker 0 1] ++ List.replicate 4 .owner ++
    List.replicate 3 (.worker 0 0) ++ List.replicate 2 (.worker 1 0) ++ List.replicate 4 .owner ++
    List.replicate 3 (.worker 1 0) ++ [.owner]

/-- Four bytes, of which one cannot be read, by two workers. -/
theorem sort_concludes_unreadable :
    let rules : Rules (Fin 256) DigitWidth.oneByte.radix :=
      ⟨{ threads := 2, subsortThreshold := 2, minParallelChunk := 1 },
        ⟨fun x _ => x, fun x _ => if x = 250 then some (.raised "unreadable") else none⟩,
        Comparison.sort { compare }, 1⟩
    let news : Nat → News := fun _ => { idle := fun asked => asked % 2 = 0, settled := fun _ => 1 }
    let schedule : Schedule := ⟨fun turn => turn, news⟩
    Concludes rules (· = 250) {} #[5, 3, 250, 3] (sort rules {} schedule #[5, 3, 250, 3]) ∧
      sort rules {} schedule #[5, 3, 250, 3] = .abandoned (.raised "unreadable") ∧
      ConcludesByTurns rules (· = 250) {} #[5, 3, 250, 3] news ∧
      sortByTurns? rules {} news lostWorker #[5, 3, 250, 3] =
        some (.abandoned (.raised "unreadable")) := by
  intro rules news schedule
  have uniform : ∀ x depth, (rules.digits.refusal? x depth).isSome = true ↔ x = 250 := by
    intro x depth
    by_cases bad : x = 250 <;> simp [rules, bad]
  have permutes : ∀ elements, ∃ sorted, rules.fallback elements = .ok sorted ∧
      sorted.Perm elements := by
    intro elements
    obtain ⟨sorted, ran, rearranged, -⟩ : ∃ sorted, rules.fallback elements = .ok sorted ∧
        sorted.Perm elements ∧ Ordered compare sorted := Comparison.sort_exact elements
    exact ⟨sorted, ran, rearranged⟩
  have fits : (#[5, 3, 250, 3] : Array (Fin 256)).size * DigitWidth.oneByte.radix <
      Word.bound := by decide
  have started : ({} : Resources).spawnFailure? = none := rfl
  obtain ⟨concludes, -, byTurns⟩ :=
    sort_concludes rules uniform permutes fits started schedule
  have proceeds : Proceeds rules.settings {} (#[5, 3, 250, 3] : Array (Fin 256)).size :=
    ⟨⟨by decide, by decide, by decide⟩, by decide, rfl⟩
  have partitions : rules.Partitions (#[5, 3, 250, 3] : Array (Fin 256)).size :=
    ⟨by decide, .inl (by decide)⟩
  obtain ⟨fault, abandoned⟩ := (concludes.abandoned proceeds).mpr ⟨⟨250, by simp, rfl⟩, partitions⟩
  obtain ⟨x, -, depth, -, refuses⟩ := concludes.raised fault abandoned
  have raised : fault = .raised "unreadable" := by
    by_cases bad : x = 250 <;> simp_all [rules]
  exact ⟨concludes, raised ▸ abandoned, byTurns news, by decide +kernel⟩

end Msd

end RadixSort
