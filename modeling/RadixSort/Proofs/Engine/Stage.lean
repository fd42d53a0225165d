import RadixSort.Engine.Dispatch
import RadixSort.Proofs.Engine.RadixStep

/-!
# Partitions that have not finished

A partition by several tasks goes through two phases. In each, some of its parts have a
task that waits to be executed, and the partition is described by the list of these
parts. What the partition owes is one result for each bucket, chunk by chunk.

The engine keeps the partitions under numbers of which no two are the same, so the one
that a task names is the one it was made for.
-/
namespace RadixSort

open Recursion

variable {α : Type} {radix : Nat}

/-- The two phases of a partition by several tasks. -/
inductive Phase where
  | counting
  | scattering
  deriving DecidableEq, Repr

/-- A partition with its number, its phase, and the parts whose tasks of this phase have
not been executed. -/
structure Stage (radix : Nat) where
  number : Nat
  step : RadixStep radix
  phase : Phase
  left : List Nat

/-- The obligation to sort the buckets of a range that is being partitioned. -/
def RadixStep.obligation (rules : Rules α radix) (total : Nat) (step : RadixStep radix) :
    Obligation α where
  window := step.window
  promise elements result := rules.Readable elements step.depth ∧
    ∃ results : Fin radix → Result α,
      (∀ bucket, EngineSorts rules total
        (bucketShare (step.key rules) step.chunkLength elements bucket) (step.depth + 1)
        (results bucket)) ∧
      result = join ((List.finRange radix).map results)

namespace Stage

variable {rules : Rules α radix} {total : Nat} {memory after : Memory α} {stage : Stage radix}

/-- The task of one part in the present phase. -/
def task (stage : Stage radix) (part : Nat) : EngineTask :=
  match stage.phase with
  | .counting => .count stage.number part
  | .scattering => .distribute stage.number part

/-- The tasks that wait to be executed. -/
def tasks (stage : Stage radix) : List EngineTask := stage.left.map stage.task

/-- The partition under its number. -/
def entry (stage : Stage radix) : Nat × RadixStep radix := (stage.number, stage.step)

/-- What the present phase has achieved. -/
def Achieved (rules : Rules α radix) (memory : Memory α) (stage : Stage radix) : Prop :=
  match stage.phase with
  | .counting => stage.step.Counted rules memory stage.left
  | .scattering => stage.step.Scattered rules memory stage.left

/-- A partition that has not finished, between two tasks. -/
structure Sound (rules : Rules α radix) (total : Nat) (memory : Memory α) (stage : Stage radix) :
    Prop where
  shaped : stage.step.Shaped rules total
  distinct : stage.left.Nodup
  valid : ∀ part ∈ stage.left, part < stage.step.parts
  unfinished : stage.left ≠ []
  achieved : stage.Achieved rules memory

/-- A partition goes on undisturbed if memory changes in a window without a slot of its
range. -/
theorem Sound.undisturbed {window : Window} (sound : stage.Sound rules total memory)
    (change : Memory.Elsewhere window memory after) (spans : memory.Spans stage.step.window)
    (apart : ∀ cell ∈ stage.step.window.slots, cell ∉ window.slots) :
    stage.Sound rules total after := by
  obtain ⟨shaped, distinct, valid, unfinished, achieved⟩ := sound
  refine ⟨shaped, distinct, valid, unfinished, ?_⟩
  have same := change.held_eq apart
  unfold Achieved at achieved ⊢
  split at achieved
  · exact achieved.undisturbed same
  · apply achieved.undisturbed same
    · intro cell inside
      exact change.cell _ cell (apart cell inside)
    · exact Nat.le_of_eq (shaped.length_shares spans)

/-- How many tasks a partition may still bring about, its own and those of its buckets. -/
def weight (maxDepth : Nat) (stage : Stage radix) : Nat :=
  stage.left.length + (if stage.phase = .counting then stage.step.parts else 0) +
    2 * stage.step.window.length * (maxDepth - stage.step.depth)

/-- A partition that goes on in its phase with one part less, and with the table that its
task has left. -/
def without (stage : Stage radix) (part : Nat) (table : CountTable radix) : Stage radix where
  number := stage.number
  step := { stage.step with table, left := stage.step.left - 1 }
  phase := stage.phase
  left := stage.left.erase part

section

variable {part : Nat} (table : CountTable radix)

/-- The tasks that wait are that of the part which is taken off, and those of the others. -/
theorem tasks_perm (member : part ∈ stage.left) :
    stage.tasks.Perm (stage.task part :: (stage.without part table).tasks) :=
  (List.perm_cons_erase member).map stage.task

/-- A partition with one part less brings about one task less. -/
theorem weight_without (maxDepth : Nat) (member : part ∈ stage.left) :
    (stage.without part table).weight maxDepth + 1 = stage.weight maxDepth := by
  have fewer : (stage.left.erase part).length = stage.left.length - 1 :=
    List.length_erase_of_mem member
  have positive : 0 < stage.left.length := List.length_pos_of_mem member
  change (stage.left.erase part).length +
      (if stage.phase = .counting then stage.step.parts else 0) +
        2 * stage.step.window.length * (maxDepth - stage.step.depth) + 1 =
    stage.left.length + (if stage.phase = .counting then stage.step.parts else 0) +
      2 * stage.step.window.length * (maxDepth - stage.step.depth)
  omega

variable {table}

/-- A partition that goes on is what a partition between two tasks has to be, if its phase
has achieved what it has to without the part. -/
theorem Sound.without (sound : stage.Sound rules total memory)
    (unfinished : stage.left.erase part ≠ [])
    (achieved : (stage.without part table).Achieved rules after) :
    (stage.without part table).Sound rules total after where
  shaped := sound.shaped.turn _ table
  distinct := sound.distinct.erase part
  valid other listed := sound.valid other (List.mem_of_mem_erase listed)
  unfinished := unfinished
  achieved := achieved

end

/-- A partition that has just been started. -/
def started (number : Nat) (window : Window) (depth threshold : Nat) : Stage radix where
  number := number
  step := ⟨window, depth, max (Word.ceilDiv window.length threshold) 1,
    Rules.chunkLength window.length threshold, max (Word.ceilDiv window.length threshold) 1,
    Array.replicate (max (Word.ceilDiv window.length threshold) 1) (Vector.replicate radix 0)⟩
  phase := .counting
  left := List.range (max (Word.ceilDiv window.length threshold) 1)

/-- A partition starts with all chunks to be counted. -/
theorem sound_started {window : Window} {depth : Nat} (number threshold : Nat)
    (spans : memory.Spans window) (many : 2 ≤ window.length) (within : window.length ≤ total)
    (shallow : depth < rules.maxDepth) (divided : ¬rules.Undivided total) :
    (started number window depth threshold : Stage radix).Sound rules total memory := by
  have chunking := Rules.chunking (by omega : 0 < window.length) threshold
  have shaped : (started number window depth threshold : Stage radix).step.Shaped rules total :=
    ⟨many, within, shallow, divided, chunking⟩
  refine ⟨shaped, List.nodup_range, fun part => List.mem_range.mp, ?_, ?_⟩
  · exact List.ne_nil_of_mem (List.mem_range.mpr chunking.parts_pos)
  · refine ⟨List.length_range.symm, Array.size_replicate, ?_⟩
    intro part chunk absent found
    have valid := (List.getElem?_eq_some_iff.mp found).1
    rw [shaped.length_chunks spans] at valid
    exact absurd (List.mem_range.mpr valid) absent

/-- Starting a partition of a long range gives it its chunks, if the cells of its table can be
counted in a machine word. -/
theorem start_ensures {excused : Fault → Prop} (excuses : Excuses rules total excused)
    {window : Window} {threshold : Nat} (number depth : Nat) (some : 0 < window.length)
    (within : window.length ≤ total) (inForce : rules.InForce total window.length threshold)
    (long : rules.Long threshold window.length depth) :
    Ensures excused (RadixStep.start window depth threshold)
      (· = (started number window depth threshold : Stage radix).step) := by
  have fits : max (Word.ceilDiv window.length threshold) 1 * radix < Word.bound ∨
      excused .arithmeticOverflow := by
    refine (excuses.sized fun undivided => undivided _ _ _ inForce long).imp_left ?_
    rintro ⟨short, table | ⟨workers, table⟩⟩
    · have few : max (Word.ceilDiv window.length threshold) 1 ≤ total :=
        (Rules.parts_le_length some threshold).trans within
      exact Nat.lt_of_le_of_lt (Nat.mul_le_mul_right radix few) table
    · have few := Rules.parts_le_workers some workers (by omega) inForce
      exact Nat.lt_of_le_of_lt (Nat.mul_le_mul_right radix few) table
  exact (Word.checked_ensures fits).bind fun cells _ => rfl

/-- The range of a partition, from the depth whose digit divides it. -/
def range (stage : Stage radix) : Job := ⟨stage.step.window, stage.step.depth⟩

/-- The elements of a bucket of a partition that has finished have one digit more in common
than those of its range. -/
theorem finished_uniform {step : RadixStep radix} (shaped : step.Shaped rules total)
    (spans : memory.Spans step.window) (scattered : step.Scattered rules memory [])
    (uniform : Uniform rules.digits.digit step.depth (memory.held step.window))
    {bucket : Bucket} (listed : bucket ∈ Bucket.ofBlocks 0
      (groupChunks (step.key rules) step.chunkLength (memory.held step.window))) :
    Uniform rules.digits.digit (step.depth + 1)
      (memory.held (step.window.exchanged.part bucket)) := by
  obtain ⟨-, held⟩ := scattered.buckets_exact shaped spans
  have length := shaped.length_buckets spans
  rw [Memory.held_eq_slice] at held
  have stored : slice (memory.side step.window.exchanged.activeSide)
      (step.window.exchanged.offset + 0) (groupChunks (step.key rules) step.chunkLength
        (memory.held step.window)).flatten.length = _ := length ▸ held
  obtain ⟨digit, -, share⟩ := List.mem_map.mp (held_bucket stored listed)
  rw [← share]
  refine (uniform.filter digit).mono fun x member => ?_
  exact (bucketShare_perm shaped.chunking.chunk_pos (step.key rules)
    (memory.held step.window) digit).mem_iff.mp member

/-- What is owed of a partition once it has finished: one obligation for each bucket, in
the other array. -/
def bucketsOwed (rules : Rules α radix) (total : Nat) (memory : Memory α)
    (step : RadixStep radix) : List (Obligation α) :=
  bucketObligations step.window.exchanged
    (fun elements result => EngineSorts rules total elements (step.depth + 1) result)
    (Bucket.ofBlocks 0
      (groupChunks (step.key rules) step.chunkLength (memory.held step.window)))

/-- Once a partition has scattered its last chunk, what it owes is owed bucket by
bucket. -/
theorem finished_ledger {step : RadixStep radix} (shaped : step.Shaped rules total)
    (spans : memory.Spans step.window) (scattered : step.Scattered rules memory []) :
    Ledger rules.Gave step.window (Ledger.aim (step.obligation rules total) memory) memory
      (bucketsOwed rules total memory step) [] 0 := by
  obtain ⟨-, held⟩ := scattered.buckets_exact shaped spans
  have divided : Ledger rules.Gave step.window.exchanged
      (Ledger.aim (step.obligation rules total) memory) memory
      (bucketsOwed rules total memory step) [] 0 := by
    refine Ledger.of_blocks held (shaped.length_buckets spans) (.alone (Nat.zero_le _)) ?_
    intro results kept
    rw [groupChunks_eq] at kept
    obtain ⟨each, rfl, sorts⟩ := exists_results kept
    refine ⟨scattered.readable, each, sorts, ?_⟩
    rw [join_eq, zero_add]
  exact ⟨divided.tiles, divided.settles, divided.given⟩

end Stage

namespace Engine

/-- The partitions that the engine keeps under their numbers. -/
structure Registered (engine : Engine α radix) (stages : List (Stage radix)) : Prop where
  steps : engine.steps = stages.map Stage.entry
  distinct : (stages.map Stage.number).Nodup
  numbered : ∀ stage ∈ stages, stage.number < engine.nextStep

variable {engine : Engine α radix} {stages before after : List (Stage radix)}
  {stage : Stage radix}

/-- The partitions are kept apart from the shared work. -/
theorem Registered.rework (registered : Registered engine stages) (work : Work α) :
    Registered { engine with work } stages :=
  ⟨registered.steps, registered.distinct, registered.numbered⟩

/-- A partition that starts gets a number that no other has. -/
theorem Registered.start (registered : Registered engine stages)
    (fresh : stage.number = engine.nextStep) (work : Work α) :
    Registered ⟨work, engine.steps ++ [stage.entry], engine.nextStep + 1⟩ (stages ++ [stage]) where
  steps := by rw [registered.steps, List.map_append, List.map_singleton]
  distinct := by
    rw [List.map_append, List.map_singleton, List.nodup_append]
    refine ⟨registered.distinct, by simp, ?_⟩
    rintro number member other single rfl
    obtain ⟨old, listed, rfl⟩ := List.mem_map.mp member
    have earlier := registered.numbered old listed
    rw [List.mem_singleton.mp single, fresh] at earlier
    exact Nat.lt_irrefl _ earlier
  numbered other member := by
    rcases List.mem_append.mp member with old | new
    · exact Nat.lt_succ_of_lt (registered.numbered other old)
    · rw [List.mem_singleton.mp new, fresh]
      exact Nat.lt_succ_self _

/-- The numbers before and behind a partition differ from its own. -/
theorem Registered.others (registered : Registered engine (before ++ stage :: after)) :
    (∀ other ∈ before, other.number ≠ stage.number) ∧
      ∀ other ∈ after, other.number ≠ stage.number := by
  have distinct := registered.distinct
  rw [List.map_append, List.map_cons, List.nodup_append] at distinct
  obtain ⟨-, later, apart⟩ := distinct
  constructor
  · intro other member
    exact apart _ (List.mem_map_of_mem member) _ List.mem_cons_self
  · intro other member same
    apply (List.nodup_cons.mp later).1
    rw [← same]
    exact List.mem_map_of_mem member

/-- A partition is found under its number. -/
theorem Registered.lookup (registered : Registered engine (before ++ stage :: after)) :
    engine.step stage.number = .ok stage.step := by
  have absent : (before.map Stage.entry).lookup stage.number = none := by
    rw [List.lookup_eq_none_iff]
    intro pair member
    obtain ⟨other, listed, rfl⟩ := List.mem_map.mp member
    simpa [Stage.entry] using Ne.symm (registered.others.1 other listed)
  have found : engine.steps.lookup stage.number = some stage.step := by
    rw [registered.steps, List.map_append, List.lookup_append, absent, List.map_cons, Stage.entry,
      List.lookup_cons_self]
    rfl
  rw [Engine.step, found]

/-- Putting a partition in the place of the one with its number changes no other. -/
theorem Registered.update (registered : Registered engine (before ++ stage :: after))
    {next : Stage radix} (same : next.number = stage.number) :
    Registered (engine.updateStep stage.number next.step) (before ++ next :: after) where
  steps := by
    obtain ⟨first, second⟩ := registered.others
    have keep (others : List (Stage radix)) (apart : ∀ other ∈ others,
        other.number ≠ stage.number) : (others.map Stage.entry).map (fun entry =>
          if entry.1 = stage.number then (stage.number, next.step) else entry) =
          others.map Stage.entry := by
      rw [List.map_map]
      apply List.map_congr_left
      intro other member
      exact if_neg (apart other member)
    rw [updateStep, registered.steps, List.map_append, List.map_append, keep before first,
      List.map_cons, List.map_cons, keep after second, List.map_append, List.map_cons, Stage.entry,
      if_pos rfl, ← same]
    rfl
  distinct := by
    have distinct := registered.distinct
    rw [List.map_append, List.map_cons] at distinct ⊢
    rwa [same]
  numbered other member := by
    have numbered := registered.numbered
    rcases List.mem_append.mp member with old | new
    · exact numbered other (List.mem_append_left _ old)
    · rcases List.mem_cons.mp new with rfl | later
      · rw [same]
        exact numbered stage (List.mem_append_right _ List.mem_cons_self)
      · exact numbered other (List.mem_append_right _ (List.mem_cons_of_mem _ later))

/-- Forgetting a partition leaves all others. -/
theorem Registered.remove (registered : Registered engine (before ++ stage :: after)) :
    Registered (engine.removeStep stage.number) (before ++ after) where
  steps := by
    obtain ⟨first, second⟩ := registered.others
    have keep (others : List (Stage radix)) (apart : ∀ other ∈ others,
        other.number ≠ stage.number) : (others.map Stage.entry).filter (fun entry =>
          entry.1 ≠ stage.number) = others.map Stage.entry := by
      rw [List.filter_eq_self]
      intro pair member
      obtain ⟨other, listed, rfl⟩ := List.mem_map.mp member
      exact decide_eq_true (apart other listed)
    rw [removeStep, registered.steps, List.map_append, List.filter_append, keep before first,
      List.map_cons, List.filter_cons_of_neg, keep after second, List.map_append]
    simp [Stage.entry]
  distinct := by
    refine registered.distinct.sublist ?_
    exact (List.Sublist.append_left (List.sublist_cons_self stage after) before).map _
  numbered other member := by
    apply registered.numbered
    rcases List.mem_append.mp member with old | later
    · exact List.mem_append_left _ old
    · exact List.mem_append_right _ (List.mem_cons_of_mem _ later)

end Engine

end RadixSort
