import RadixSort.Proofs.Engine.FirstPhase
import RadixSort.Proofs.Engine.SecondPhase
import Mathlib.Algebra.Order.BigOperators.Group.List

/-!
# What one action of a partition does

Each task tells by what it is about to do which phase the partition is in, so the laws of the
phases apply to it. An action keeps the partition sound, writes to one slot of the shadow
side at most unless it hands a bucket on, and leaves less to do. As long as not all tasks have
ended, one of them can act: a task that has not been released waits for one of the first
phase that has not ended.
-/
namespace RadixSort.StepProtocol

variable {α τ : Type} {radix : Nat} {key : α → Fin radix} {elements : List α}
  {origin : RadixStep radix} {protocol next : StepProtocol α radix}

/-- Nothing is left to do for any task. -/
def Finished (protocol : StepProtocol α radix) : Prop :=
  (∀ task ∈ protocol.counters, task = .ended) ∧ ∀ task ∈ protocol.scatterers, task = .ended

/-- How many actions a task of the first phase still has to make. -/
def countToDo (origin : RadixStep radix) (part : Nat) : CountTask radix → Nat
  | .counting position _ => (origin.stops part - position) + origin.parts + 5
  | .stored => origin.parts + 4
  | .summing => origin.parts + 3
  | .resetting => origin.parts + 2
  | .releasing next => (origin.parts - next) + 1
  | .ended => 0

/-- How many actions a task of the second phase still has to make, at most. -/
def scatterToDo (origin : RadixStep radix) (part : Nat) : ScatterTask radix → Nat
  | .unreleased | .released => (origin.stops part - origin.begins part) + radix + 5
  | .scattering position _ => (origin.stops part - position) + radix + 4
  | .placed => radix + 3
  | .closing => radix + 2
  | .handing buckets => buckets.length + 1
  | .ended => 0

/-- What the tasks of one phase still have to do. -/
def total (cost : Nat → τ → Nat) (tasks : List τ) : Nat :=
  ((List.range tasks.length).map fun part => (tasks[part]?.map (cost part)).getD 0).sum

/-- How many actions the tasks of the partition still have to make, at most. -/
def toDo (origin : RadixStep radix) (protocol : StepProtocol α radix) : Nat :=
  total (countToDo origin) protocol.counters + total (scatterToDo origin) protocol.scatterers

/-- A partition of a range that holds these elements, in one of its phases. -/
structure Sound (key : α → Fin radix) (elements : List α) (origin : RadixStep radix)
    (protocol : StepProtocol α radix) : Prop where
  based : Based elements origin protocol
  phase : Phase key elements origin protocol

/-- What an action of a task writes: nothing, or one slot of the shadow side that has not
been written before, or a single element that is copied back because its bucket is handed on. -/
inductive Writes (origin : RadixStep radix) (protocol next : StepProtocol α radix) : Prop where
  | nothing (memory : next.memory = protocol.memory) (written : next.written = protocol.written)
      (handedOn : next.handedOn = protocol.handedOn)
  | oneSlot (slot : Nat) (x : α) (inside : slot < origin.window.length)
      (fresh : slot ∉ protocol.written) (written : next.written = protocol.written ++ [slot])
      (handedOn : next.handedOn = protocol.handedOn)
      (memory : next.memory = protocol.memory.modifySide origin.window.shadowSide
        (·.setIfInBounds (origin.window.offset + slot) x))
  | oneBucket (bucket : Bucket) (window : Window)
      (exchanged : origin.window.flip bucket.start bucket.length = .ok window)
      (written : next.written = protocol.written)
      (handedOn : next.handedOn = protocol.handedOn ++ [⟨bucket, protocol.memory.held window⟩])
      (memory : next.memory =
        if bucket.length = 1 then protocol.memory.copyBack window else protocol.memory)

/-- When the sums are formed, they have not been before, the counts of all pieces are stored,
and no other task is at work. -/
def SumsOnce (key : α → Fin radix) (elements : List α) (origin : RadixStep radix)
    (protocol next : StepProtocol α radix) : Prop :=
  next.sums = protocol.sums ∨
    protocol.sums = 0 ∧ next.sums = 1 ∧ (∃ part, Alone protocol.counters .ended part .summing) ∧
      (∀ task ∈ protocol.scatterers, task = .unreleased) ∧
      ∀ part < origin.parts, protocol.step.table[part]? =
        some (histogram key (between elements (origin.begins part) (origin.stops part)))

/-- What one action of a task of the range does. -/
structure Acts (key : α → Fin radix) (elements : List α) (origin : RadixStep radix)
    (protocol next : StepProtocol α radix) : Prop where
  sound : Sound key elements origin next
  writes : Writes origin protocol next
  sums : SumsOnce key elements origin protocol next
  shorter : toDo origin next < toDo origin protocol

/-- A task of another range has written to a cell that is not this partition's. -/
def Intrudes (protocol next : StepProtocol α radix) : Prop :=
  ∃ side cell x, protocol.Foreign cell ∧ next = protocol.intrude side cell x

section ToDo

variable {cost : Nat → τ → Nat} {tasks : List τ} {part : Nat} {old new : τ}

/-- A task that has no more to do than before leaves no more to do. -/
theorem total_set_le (here : tasks[part]? = some old) (less : cost part new ≤ cost part old) :
    total cost (tasks.set part new) ≤ total cost tasks := by
  have inside := (List.getElem?_eq_some_iff.mp here).1
  rw [total, total, List.length_set]
  apply List.sum_le_sum
  intro other _
  by_cases same : part = other
  · subst same
    rw [List.getElem?_set_self inside, here]
    exact less
  · rw [List.getElem?_set_ne same]

/-- An action of one task leaves less to do if it leaves less for that task. -/
theorem total_set_lt (here : tasks[part]? = some old) (less : cost part new < cost part old) :
    total cost (tasks.set part new) < total cost tasks := by
  have inside := (List.getElem?_eq_some_iff.mp here).1
  rw [total, total, List.length_set]
  apply List.sum_lt_sum
  · intro other _
    by_cases same : part = other
    · subst same
      rw [List.getElem?_set_self inside, here]
      exact Nat.le_of_lt less
    · rw [List.getElem?_set_ne same]
  · refine ⟨part, List.mem_range.mpr inside, ?_⟩
    rw [List.getElem?_set_self inside, here]
    exact less

end ToDo

/-- A change outside the partition does not touch it. -/
theorem Sound.intrudes (cut : origin.Cut) (sound : Sound key elements origin protocol)
    (intrudes : Intrudes protocol next) : Sound key elements origin next := by
  obtain ⟨side, cell, x, foreign, rfl⟩ := intrudes
  have apart : Apart origin protocol.handedOn protocol.memory
      (protocol.intrude side cell x).memory := by
    constructor
    · intro other
      simp only [intrude, Memory.side_modifySide]
      split
      · rename_i same
        rw [same, Array.size_setIfInBounds]
      · rfl
    · intro other slot inside mine
      have different : cell ≠ origin.window.offset + slot := by
        rintro rfl
        rw [Foreign, sound.based.window] at foreign
        rcases foreign with before | behind | ⟨handed, listed, low, high⟩
        · omega
        · omega
        · exact mine ⟨handed, listed, by omega, by omega⟩
      simp only [intrude, Memory.side_modifySide]
      split
      · rename_i same
        rw [same, Array.getElem?_setIfInBounds_ne different]
      · rfl
  exact ⟨sound.based.apart apart, sound.phase.apart sound.based cut apart⟩

section Phases

/-- The phase that a task of the first phase tells of. -/
def ToldByCount (key : α → Fin radix) (elements : List α) (origin : RadixStep radix)
    (protocol : StepProtocol α radix) : CountTask radix → Prop
  | .counting .. | .stored => Counting key elements origin protocol
  | .summing => Summing key elements origin protocol
  | .resetting => Summed key elements origin protocol
  | .releasing next => Scattering key elements origin protocol ∨
      Closing key elements origin protocol ∧ next = origin.parts
  | .ended => True

/-- The phase that a task of the second phase tells of. -/
def ToldByScatter (key : α → Fin radix) (elements : List α) (origin : RadixStep radix)
    (protocol : StepProtocol α radix) : ScatterTask radix → Prop
  | .released | .scattering .. | .placed => Scattering key elements origin protocol
  | .closing | .handing _ => Closing key elements origin protocol
  | .unreleased | .ended => True

/-- A task of the first phase tells of the phase that the partition is in. -/
theorem Phase.counter (phase : Phase key elements origin protocol) {part : Nat}
    {task : CountTask radix} (here : protocol.counters[part]? = some task) :
    ToldByCount key elements origin protocol task := by
  by_cases busy : task = .ended
  · subst busy
    trivial
  cases phase with
  | counting now =>
    have right := now.each part task here
    cases task with
    | counting position counts => exact now
    | stored => exact now
    | summing => exact right.elim
    | resetting => exact right.elim
    | releasing next => exact right.elim
    | ended => trivial
  | summing now =>
    obtain ⟨last, alone⟩ := now.alone
    obtain ⟨-, rfl⟩ := alone.eq here busy
    exact now
  | summed now =>
    obtain ⟨last, alone⟩ := now.alone
    obtain ⟨-, rfl⟩ := alone.eq here busy
    exact now
  | scattering now =>
    obtain ⟨reached, releases⟩ := now.releases
    rcases releases.last with ⟨-, ended⟩ | ⟨last, alone⟩
    · exact absurd (ended task (List.mem_of_getElem? here)) busy
    · obtain ⟨-, rfl⟩ := alone.eq here busy
      exact .inl now
  | closing now =>
    rcases now.releases with ended | ⟨last, alone⟩
    · exact absurd (ended task (List.mem_of_getElem? here)) busy
    · obtain ⟨-, rfl⟩ := alone.eq here busy
      exact .inr ⟨now, rfl⟩

/-- A task of the second phase tells of the phase that the partition is in. -/
theorem Phase.scatterer (phase : Phase key elements origin protocol) {part : Nat}
    {task : ScatterTask radix} (here : protocol.scatterers[part]? = some task) :
    ToldByScatter key elements origin protocol task := by
  have waits (early : Early protocol) : ToldByScatter key elements origin protocol task := by
    rw [early.unreleased task (List.mem_of_getElem? here)]
    trivial
  cases phase with
  | counting now => exact waits now.early
  | summing now => exact waits now.early
  | summed now => exact waits now.early
  | scattering now =>
    have right := now.each part task here
    cases task with
    | unreleased => trivial
    | released => exact now
    | scattering position cursors => exact now
    | placed => exact now
    | closing => exact right.elim
    | handing buckets => exact right.elim
    | ended => trivial
  | closing now =>
    by_cases busy : task = .ended
    · subst busy
      trivial
    · have hands := (now.hands here busy).2
      cases task with
      | unreleased => exact hands.elim
      | released => exact hands.elim
      | scattering position cursors => exact hands.elim
      | placed => exact hands.elim
      | closing => exact now
      | handing buckets => exact now
      | ended => trivial

/-- Once every task of the first phase has ended, every task of the second is released. -/
theorem Phase.released (phase : Phase key elements origin protocol)
    (based : Based elements origin protocol) (ended : ∀ task ∈ protocol.counters, task = .ended)
    (part : Nat) : protocol.scatterers[part]? ≠ some .unreleased := by
  intro here
  have busy {other : Nat} {task : CountTask radix}
      (alone : Alone protocol.counters .ended other task) (different : task ≠ .ended) : False :=
    different (ended task (List.mem_of_getElem? alone.1))
  cases phase with
  | counting now =>
    obtain ⟨task, member, waits⟩ := List.countP_pos_iff.mp (now.left ▸ now.busy)
    rw [ended task member] at waits
    cases waits
  | summing now =>
    obtain ⟨last, alone⟩ := now.alone
    exact busy alone (by simp)
  | summed now =>
    obtain ⟨last, alone⟩ := now.alone
    exact busy alone (by simp)
  | scattering now =>
    obtain ⟨reached, releases⟩ := now.releases
    have late := (releases.tasks part _ here).mp rfl
    rcases releases.last with ⟨rfl, -⟩ | ⟨last, alone⟩
    · exact absurd (based.scatters here) (Nat.not_lt.mpr late)
    · exact busy alone (by simp)
  | closing now => exact (now.hands here (by simp)).2

end Phases

section Acting

variable (cut : origin.Cut) (sound : Sound key elements origin protocol)

include cut sound in
/-- Counting one element. -/
theorem acts_countOne {part position : Nat} {counts : Vector Nat radix} {x : α}
    (here : protocol.counters[part]? = some (.counting position counts))
    (more : position < origin.stops part) (read : protocol.elementAt? position = some x) :
    Word.checked (counts.get (key x) + 1) = .ok (counts.get (key x) + 1) ∧
      Acts key elements origin protocol (protocol.counter part
        (.counting (position + 1) (assign counts (key x) (counts.get (key x) + 1)))) := by
  have counting : Counting key elements origin protocol := sound.phase.counter here
  have read := (sound.based.element_eq counting.early.handedOn position).symm.trans read
  refine ⟨counting.raised cut here more (key x),
    ⟨sound.based.counter part _, .counting (counting.countOne here more read)⟩,
    .nothing rfl rfl rfl, .inl rfl, ?_⟩
  exact Nat.add_lt_add_right (total_set_lt here (by simp only [countToDo]; omega)) _

include sound in
/-- Storing the counts of a piece. -/
theorem acts_storeCounts {part : Nat} {counts : Vector Nat radix}
    (here : protocol.counters[part]? = some (.counting (origin.stops part) counts)) :
    ∃ step, protocol.step.storeRow part counts = .ok step ∧
      Acts key elements origin protocol { protocol.counter part .stored with step } := by
  have counting : Counting key elements origin protocol := sound.phase.counter here
  obtain ⟨step, stored, based, after⟩ := counting.storeCounts sound.based here
  refine ⟨step, stored, ⟨based, .counting after⟩, .nothing rfl rfl rfl, .inl rfl, ?_⟩
  exact Nat.add_lt_add_right (total_set_lt here (by simp only [countToDo]; omega)) _

include sound in
/-- Counting a task of the first phase off. -/
theorem acts_endCount {part : Nat} (here : protocol.counters[part]? = some .stored) :
    Acts key elements origin protocol
      (protocol.countOff.counter part (if protocol.step.left = 1 then .summing else .ended)) := by
  have counting : Counting key elements origin protocol := sound.phase.counter here
  have based : Based elements origin protocol.countOff :=
    sound.based.restep (by rw [sound.based.shape]) sound.based.size
  refine ⟨⟨based.counter part _, ?_⟩, .nothing rfl rfl rfl, .inl rfl, ?_⟩
  · split
    · exact .summing (counting.endCount_last sound.based here ‹_›)
    · exact .counting (counting.endCount_more here ‹_›)
  · refine Nat.add_lt_add_right (total_set_lt here ?_) _
    split <;> simp only [countToDo] <;> omega

include cut sound in
/-- Forming the sums. -/
theorem acts_formSums {part : Nat} (here : protocol.counters[part]? = some .summing) :
    ∃ step, protocol.step.sumUp = .ok step ∧ Acts key elements origin protocol
      { protocol.counter part .resetting with step, sums := protocol.sums + 1 } := by
  have summing : Summing key elements origin protocol := sound.phase.counter here
  obtain ⟨step, formed, based, after⟩ := summing.formSums sound.based cut here
  refine ⟨step, formed, ⟨based, .summed after⟩, .nothing rfl rfl rfl, .inr ?_, ?_⟩
  · exact ⟨summing.sums, after.sums, summing.alone, summing.early.unreleased, summing.rows⟩
  · exact Nat.add_lt_add_right (total_set_lt here (by simp only [countToDo]; omega)) _

include cut sound in
/-- Setting the number of tasks of the second phase. -/
theorem acts_reset {part : Nat} (here : protocol.counters[part]? = some .resetting) :
    Acts key elements origin protocol { protocol.counter part (.releasing 0) with
      step := { protocol.step with left := protocol.step.parts } } := by
  have summed : Summed key elements origin protocol := sound.phase.counter here
  refine ⟨⟨(sound.based.counter part _).restep (by rw [sound.based.shape]) sound.based.size,
    .scattering (summed.reset sound.based cut here)⟩, .nothing rfl rfl rfl, .inl rfl, ?_⟩
  exact Nat.add_lt_add_right (total_set_lt here (by simp only [countToDo]; omega)) _

include sound in
/-- Releasing a task of the second phase. -/
theorem acts_release {part next : Nat}
    (here : protocol.counters[part]? = some (.releasing next)) (more : next < origin.parts) :
    Acts key elements origin protocol
      ((protocol.counter part (.releasing (next + 1))).scatterer next .released) := by
  rcases sound.phase.counter here with scattering | ⟨-, rfl⟩
  · obtain ⟨waits, after⟩ := scattering.release sound.based here more
    refine ⟨⟨(sound.based.counter part _).scatterer next _, .scattering after⟩,
      .nothing rfl rfl rfl, .inl rfl, ?_⟩
    exact Nat.add_lt_add_of_lt_of_le
      (total_set_lt here (by simp only [countToDo]; omega)) (total_set_le waits (Nat.le_refl _))
  · exact absurd more (Nat.lt_irrefl _)

include sound in
/-- Ending the release. -/
theorem acts_endRelease {part : Nat}
    (here : protocol.counters[part]? = some (.releasing origin.parts)) :
    Acts key elements origin protocol (protocol.counter part .ended) := by
  refine ⟨⟨sound.based.counter part _, ?_⟩, .nothing rfl rfl rfl, .inl rfl, ?_⟩
  · rcases sound.phase.counter here with scattering | ⟨closing, -⟩
    · exact .scattering (scattering.endRelease here)
    · exact .closing (closing.endRelease here)
  · exact Nat.add_lt_add_right (total_set_lt here (by simp only [countToDo]; omega)) _

include sound in
/-- Reading the shares of a piece. -/
theorem acts_readShares {part : Nat} {cursors : Vector Nat radix}
    (here : protocol.scatterers[part]? = some .released)
    (row : protocol.step.table[part]? = some cursors) :
    Acts key elements origin protocol
      (protocol.scatterer part (.scattering (origin.begins part) cursors)) := by
  have scattering : Scattering key elements origin protocol := sound.phase.scatterer here
  refine ⟨⟨sound.based.scatterer part _,
    .scattering (scattering.readShares sound.based here row)⟩, .nothing rfl rfl rfl, .inl rfl, ?_⟩
  exact Nat.add_lt_add_left (total_set_lt here (by simp only [scatterToDo]; omega)) _

include cut sound in
/-- Placing one element. -/
theorem acts_placeOne {part position : Nat} {cursors : Vector Nat radix} {x : α}
    (here : protocol.scatterers[part]? = some (.scattering position cursors))
    (more : position < origin.stops part) (read : protocol.elementAt? position = some x) :
    ∃ slot memory, Word.checkedSub (cursors.get (key x)) 1 = .ok slot ∧
      protocol.memory.writeShadow protocol.step.window [(slot, x)] = .ok memory ∧
      Acts key elements origin protocol
        (placeIn protocol part position cursors (key x) slot memory) := by
  have scattering : Scattering key elements origin protocol := sound.phase.scatterer here
  have read := (sound.based.element_eq scattering.handedOn position).symm.trans read
  obtain ⟨slot, free⟩ := scattering.exists_free sound.based cut here more read
  obtain ⟨memory, wrote, changed, based, after⟩ :=
    scattering.place sound.based here more read free
  refine ⟨slot, memory, free.lowered, wrote, ⟨based, .scattering after⟩, ?_, .inl rfl, ?_⟩
  · exact .oneSlot slot x free.inside free.fresh rfl rfl changed
  · exact Nat.add_lt_add_left (total_set_lt here (by simp only [scatterToDo]; omega)) _

include cut sound in
/-- Ending a piece that has been placed. -/
theorem acts_endChunk {part : Nat} {cursors : Vector Nat radix}
    (here : protocol.scatterers[part]? = some (.scattering (origin.stops part) cursors)) :
    ∃ step, (if part = 0 then protocol.step.storeRow 0 cursors else .ok protocol.step) =
        .ok step ∧
      Acts key elements origin protocol { protocol.scatterer part .placed with step } := by
  have scattering : Scattering key elements origin protocol := sound.phase.scatterer here
  obtain ⟨step, stored, based, after⟩ := scattering.endChunk sound.based cut here
  refine ⟨step, stored, ⟨based, .scattering after⟩, .nothing rfl rfl rfl, .inl rfl, ?_⟩
  exact Nat.add_lt_add_left (total_set_lt here (by simp only [scatterToDo]; omega)) _

include cut sound in
/-- Counting a task of the second phase off. -/
theorem acts_endScatter {part : Nat} (here : protocol.scatterers[part]? = some .placed) :
    Acts key elements origin protocol
      (protocol.countOff.scatterer part
        (if protocol.step.left = 1 then .closing else .ended)) := by
  have scattering : Scattering key elements origin protocol := sound.phase.scatterer here
  have based : Based elements origin protocol.countOff :=
    sound.based.restep (by rw [sound.based.shape]) sound.based.size
  refine ⟨⟨based.scatterer part _, ?_⟩, .nothing rfl rfl rfl, .inl rfl, ?_⟩
  · split
    · exact .closing (scattering.endScatter_last sound.based cut here ‹_›)
    · exact .scattering (scattering.endScatter_more here ‹_›)
  · refine Nat.add_lt_add_left (total_set_lt here ?_) _
    split <;> simp only [scatterToDo] <;> omega

include cut sound in
/-- Reading the starts of the buckets. -/
theorem acts_readStarts {part : Nat} (here : protocol.scatterers[part]? = some .closing) :
    ∃ buckets, protocol.step.buckets = .ok buckets ∧
      Acts key elements origin protocol (protocol.scatterer part (.handing buckets)) := by
  have closing : Closing key elements origin protocol := sound.phase.scatterer here
  obtain ⟨found, after⟩ := closing.readStarts sound.based cut here
  refine ⟨_, found, ⟨sound.based.scatterer part _, .closing after⟩, .nothing rfl rfl rfl,
    .inl rfl, ?_⟩
  have few := length_digits_le key elements
  refine Nat.add_lt_add_left (total_set_lt here ?_) _
  simp only [scatterToDo, List.length_map]
  omega

include cut sound in
/-- Handing a bucket on. -/
theorem acts_handOn {part : Nat} {bucket : Bucket} {rest : List Bucket}
    (here : protocol.scatterers[part]? = some (.handing (bucket :: rest))) :
    ∃ window, protocol.step.window.flip bucket.start bucket.length = .ok window ∧
      Acts key elements origin protocol
        ((protocol.handOver bucket window).scatterer part (.handing rest)) := by
  have closing : Closing key elements origin protocol := sound.phase.scatterer here
  obtain ⟨window, based, after⟩ := closing.handOn sound.based cut here
  refine ⟨_, window, ⟨based, after⟩, ?_, .inl rfl, ?_⟩
  · rw [sound.based.window] at window
    exact .oneBucket bucket _ window rfl rfl rfl
  · exact Nat.add_lt_add_left (total_set_lt here (by simp [scatterToDo])) _

include sound in
/-- Ending the last task. -/
theorem acts_endHanding {part : Nat} (here : protocol.scatterers[part]? = some (.handing [])) :
    Acts key elements origin protocol (protocol.scatterer part .ended) := by
  have closing : Closing key elements origin protocol := sound.phase.scatterer here
  refine ⟨⟨sound.based.scatterer part _, .closing (closing.endHanding here)⟩,
    .nothing rfl rfl rfl, .inl rfl, ?_⟩
  exact Nat.add_lt_add_left (total_set_lt here (by simp [scatterToDo])) _

include cut sound in
/-- Whatever happens next, it is an action of a task of the range, or it happens to cells
that are not the partition's. -/
theorem acts_or_intrudes (action : Step key protocol next) :
    Acts key elements origin protocol next ∨ Intrudes protocol next := by
  have based := sound.based
  have counted {part stop : Nat} {task : CountTask radix}
      (here : protocol.counters[part]? = some task) (ends : protocol.stop? part = some stop) :
      stop = origin.stops part :=
    (Option.some.inj ((based.stop_eq cut (based.counts here)).symm.trans ends)).symm
  have scattered {part stop : Nat} {task : ScatterTask radix}
      (here : protocol.scatterers[part]? = some task) (ends : protocol.stop? part = some stop) :
      stop = origin.stops part :=
    (Option.some.inj ((based.stop_eq cut (based.scatters here)).symm.trans ends)).symm
  cases action with
  | countOne part position last count counts x here ends more read raised =>
    obtain rfl := counted here ends
    obtain ⟨expected, acts⟩ := acts_countOne cut sound here more read
    cases expected.symm.trans raised
    exact .inl acts
  | storeCounts part position counts step here ends stored =>
    obtain rfl := counted here ends
    obtain ⟨after, expected, acts⟩ := acts_storeCounts sound here
    cases expected.symm.trans stored
    exact .inl acts
  | endCount part here => exact .inl (acts_endCount sound here)
  | formSums part step here summed =>
    obtain ⟨after, expected, acts⟩ := acts_formSums cut sound here
    cases expected.symm.trans summed
    exact .inl acts
  | reset part here => exact .inl (acts_reset cut sound here)
  | release part next here more =>
    exact .inl (acts_release sound here (based.parts ▸ more))
  | endRelease part here => exact .inl (acts_endRelease sound (based.parts ▸ here))
  | readShares part begin last cursors here bounds row =>
    cases (based.chunk_eq cut (based.scatters here)).symm.trans bounds
    exact .inl (acts_readShares sound here row)
  | placeOne part position last slot cursors x memory here ends more read lowered stored =>
    obtain rfl := scattered here ends
    obtain ⟨free, after, found, wrote, acts⟩ := acts_placeOne cut sound here more read
    cases found.symm.trans lowered
    cases wrote.symm.trans stored
    exact .inl acts
  | endChunk part position cursors step here ends stored =>
    obtain rfl := scattered here ends
    obtain ⟨after, expected, acts⟩ := acts_endChunk cut sound here
    cases expected.symm.trans stored
    exact .inl acts
  | endScatter part here => exact .inl (acts_endScatter cut sound here)
  | readStarts part buckets here found =>
    obtain ⟨others, expected, acts⟩ := acts_readStarts cut sound here
    cases expected.symm.trans found
    exact .inl acts
  | handOn part bucket rest window here exchanged =>
    obtain ⟨other, expected, acts⟩ := acts_handOn cut sound here
    cases expected.symm.trans exchanged
    exact .inl acts
  | endHanding part here => exact .inl (acts_endHanding sound here)
  | elsewhere side cell x foreign => exact .inr ⟨side, cell, x, foreign, rfl⟩

include cut sound in
/-- A task of the first phase that has not ended can act. -/
theorem exists_counting {part : Nat} {task : CountTask radix}
    (here : protocol.counters[part]? = some task) (busy : task ≠ .ended) :
    ∃ next, Step key protocol next ∧ Acts key elements origin protocol next := by
  have stop := sound.based.stop_eq cut (sound.based.counts here)
  have phase := sound.phase.counter here
  cases task with
  | counting position counts =>
    have counting : Counting key elements origin protocol := phase
    rcases Nat.eq_or_lt_of_le (counting.each part _ here).2.1 with rfl | more
    · obtain ⟨step, stored, acts⟩ := acts_storeCounts sound here
      exact ⟨_, .storeCounts _ part _ counts step here stop stored, acts⟩
    · obtain ⟨x, -, read⟩ := sound.based.readable counting.early.handedOn more
      obtain ⟨raised, acts⟩ := acts_countOne cut sound here more read
      exact ⟨_, .countOne _ part position _ _ counts x here stop more read raised, acts⟩
  | stored => exact ⟨_, .endCount _ part here, acts_endCount sound here⟩
  | summing =>
    obtain ⟨step, formed, acts⟩ := acts_formSums cut sound here
    exact ⟨_, .formSums _ part step here formed, acts⟩
  | resetting => exact ⟨_, .reset _ part here, acts_reset cut sound here⟩
  | releasing next =>
    have parts := sound.based.parts
    have reached : next ≤ origin.parts := by
      rcases phase with scattering | ⟨-, rfl⟩
      · obtain ⟨last, releases⟩ := scattering.releases
        obtain ⟨rfl, -⟩ := releases.eq here
        exact releases.upTo
      · exact Nat.le_refl _
    rcases Nat.eq_or_lt_of_le reached with rfl | more
    · exact ⟨_, .endRelease _ part (parts.symm ▸ here), acts_endRelease sound here⟩
    · exact ⟨_, .release _ part next here (parts.symm ▸ more), acts_release sound here more⟩
  | ended => exact absurd rfl busy

include cut sound in
/-- A task of the second phase that has been released and has not ended can act. -/
theorem exists_scattering {part : Nat} {task : ScatterTask radix}
    (here : protocol.scatterers[part]? = some task) (released : task ≠ .unreleased)
    (busy : task ≠ .ended) :
    ∃ next, Step key protocol next ∧ Acts key elements origin protocol next := by
  have based := sound.based
  have valid := based.scatters here
  have stop := based.stop_eq cut valid
  have phase := sound.phase.scatterer here
  cases task with
  | unreleased => exact absurd rfl released
  | released =>
    have row := Array.getElem?_eq_getElem (based.size.symm ▸ valid)
    exact ⟨_, .readShares _ part _ _ _ here (based.chunk_eq cut valid) row,
      acts_readShares sound here row⟩
  | scattering position cursors =>
    have scattering : Scattering key elements origin protocol := phase
    rcases Nat.eq_or_lt_of_le (scattering.each part _ here).2.1 with rfl | more
    · obtain ⟨step, stored, acts⟩ := acts_endChunk cut sound here
      exact ⟨_, .endChunk _ part _ cursors step here stop stored, acts⟩
    · obtain ⟨x, -, read⟩ := based.readable scattering.handedOn more
      obtain ⟨slot, memory, lowered, stored, acts⟩ := acts_placeOne cut sound here more read
      exact ⟨_, .placeOne _ part position _ slot cursors x memory here stop more read lowered
        stored, acts⟩
  | placed => exact ⟨_, .endScatter _ part here, acts_endScatter cut sound here⟩
  | closing =>
    obtain ⟨buckets, found, acts⟩ := acts_readStarts cut sound here
    exact ⟨_, .readStarts _ part buckets here found, acts⟩
  | handing buckets =>
    cases buckets with
    | nil => exact ⟨_, .endHanding _ part here, acts_endHanding sound here⟩
    | cons bucket rest =>
      obtain ⟨window, exchanged, acts⟩ := acts_handOn cut sound here
      exact ⟨_, .handOn _ part bucket rest window here exchanged, acts⟩
  | ended => exact absurd rfl busy

include cut sound in
/-- As long as a task has something left to do, some task of the range can act. A task that
has not been released waits for one of the first phase that has not ended. -/
theorem exists_action (unfinished : ¬Finished protocol) :
    ∃ next, Step key protocol next ∧ Acts key elements origin protocol next := by
  by_cases counted : ∀ task ∈ protocol.counters, task = .ended
  · have unended : ¬∀ task ∈ protocol.scatterers, task = .ended :=
      fun ended => unfinished ⟨counted, ended⟩
    obtain ⟨task, member, busy⟩ := not_forall₂.mp unended
    obtain ⟨part, here⟩ := List.getElem?_of_mem member
    by_cases released : task = .unreleased
    · subst released
      exact absurd here (sound.phase.released sound.based counted part)
    · exact exists_scattering cut sound here released busy
  · obtain ⟨task, member, busy⟩ := not_forall₂.mp counted
    obtain ⟨part, here⟩ := List.getElem?_of_mem member
    exact exists_counting cut sound here busy

end Acting

end RadixSort.StepProtocol
