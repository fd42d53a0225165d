import RadixSort.Proofs.Engine.Slots

/-!
# The phases of a partition

While the pieces of a range are counted, every task either has counted a stretch of its
piece, or has stored its counts in its row of the table. The task that counts itself off
last is then alone: every other task of the first phase has ended, and none of the second
is released, before it has formed the sums and set the number of tasks again.

While the pieces are scattered, every task has cursors, one for each bucket, that have passed
one slot of its share for each element it has placed. The slots that have been written are
those that cursors have passed, and each holds what the partitioned range will have there.
The cursors of different tasks move in different shares, so no two tasks ever write to one
slot; and the first row of the table, which its task overwrites, is read by no other task.
The task that counts itself off last is alone again, and hands on one bucket after the other.
-/
namespace RadixSort

/-- The task has not been counted off the first phase. -/
def CountTask.outstanding {radix : Nat} : CountTask radix → Bool
  | .counting .. | .stored => true
  | _ => false

/-- The task has not been counted off the second phase. -/
def ScatterTask.outstanding {radix : Nat} : ScatterTask radix → Bool
  | .unreleased | .released | .scattering .. | .placed => true
  | _ => false

/-- The task has placed all elements of its piece. -/
def ScatterTask.finished {radix : Nat} : ScatterTask radix → Bool
  | .unreleased | .released | .scattering .. => false
  | _ => true

namespace StepProtocol

variable {α τ : Type} {radix : Nat} {key : α → Fin radix} {elements : List α}
  {origin : RadixStep radix} {protocol : StepProtocol α radix}

section Tasks

variable {tasks : List τ} {idle : τ} {part : Nat} {old next : τ}

/-- Every task but that of one part is idle. -/
def Alone (tasks : List τ) (idle : τ) (part : Nat) (task : τ) : Prop :=
  tasks[part]? = some task ∧
    ∀ other found, tasks[other]? = some found → other ≠ part → found = idle

/-- A task that is alone stays so. -/
theorem Alone.set (alone : Alone tasks idle part old) (next : τ) :
    Alone (tasks.set part next) idle part next := by
  refine ⟨List.getElem?_set_self (List.getElem?_eq_some_iff.mp alone.1).1, ?_⟩
  intro other found here different
  rw [List.getElem?_set_ne (Ne.symm different)] at here
  exact alone.2 other found here different

/-- A task that is not idle is the one that is alone. -/
theorem Alone.eq (alone : Alone tasks idle part old) {other : Nat}
    (here : tasks[other]? = some next) (busy : next ≠ idle) : other = part ∧ next = old := by
  by_cases same : other = part
  · subst same
    exact ⟨rfl, Option.some.inj (here.symm.trans alone.1)⟩
  · exact absurd (alone.2 other next here same) busy

/-- When the task that is alone becomes idle, all are. -/
theorem Alone.ended (alone : Alone tasks idle part idle) : ∀ task ∈ tasks, task = idle := by
  intro task member
  obtain ⟨other, here⟩ := List.getElem?_of_mem member
  by_cases same : other = part
  · subst same
    exact Option.some.inj (here.symm.trans alone.1)
  · exact alone.2 other task here same

/-- What is true of every task stays true if it is true of the task that is changed. -/
theorem forall_set {holds : Nat → τ → Prop} (part : Nat) {next : τ}
    (each : ∀ other task, tasks[other]? = some task → other ≠ part → holds other task)
    (own : holds part next) :
    ∀ other task, (tasks.set part next)[other]? = some task → holds other task := by
  intro other task found
  rw [List.getElem?_set] at found
  split at found
  · rename_i same
    subst same
    split at found
    · cases found
      exact own
    · cases found
  · rename_i different
    exact each other task found (Ne.symm different)

/-- Changing a task that goes on working leaves the number of those that do. -/
theorem countP_set_same {working : τ → Bool} (here : tasks[part]? = some old)
    (same : working next = working old) :
    (tasks.set part next).countP working = tasks.countP working := by
  obtain ⟨inside, rfl⟩ := List.getElem?_eq_some_iff.mp here
  rw [List.countP_set inside, same]
  split
  · have := List.countP_pos_iff.mpr ⟨_, List.getElem_mem inside, ‹_›⟩
    omega
  · omega

/-- A task that stops working is counted off. -/
theorem countP_set_done {working : τ → Bool} (here : tasks[part]? = some old)
    (busy : working old = true) (done : working next = false) :
    (tasks.set part next).countP working = tasks.countP working - 1 := by
  obtain ⟨inside, rfl⟩ := List.getElem?_eq_some_iff.mp here
  rw [List.countP_set inside, busy, done]
  simp

/-- When one task is left working, no other is. -/
theorem idle_of_last {working : τ → Bool} (here : tasks[part]? = some old)
    (busy : working old = true) (next : τ) (done : working next = false)
    (last : tasks.countP working = 1) {other : Nat} {task : τ}
    (found : tasks[other]? = some task) (different : other ≠ part) : working task = false := by
  have none : (tasks.set part next).countP working = 0 := by
    rw [countP_set_done here busy done, last]
  have kept : (tasks.set part next)[other]? = some task := by
    rw [List.getElem?_set_ne (Ne.symm different)]
    exact found
  simpa using List.countP_eq_zero.mp none task (List.mem_of_getElem? kept)

end Tasks

/-- A slot lies in a bucket that has been handed on. -/
def Given (handedOn : List (Handed α)) (slot : Nat) : Prop :=
  ∃ handed ∈ handedOn, InBucket handed.bucket slot

@[simp] theorem not_given_nil (slot : Nat) : ¬Given ([] : List (Handed α)) slot := by
  simp [Given]

/-- A partition by several tasks of a range that holds these elements. -/
structure Based (elements : List α) (origin : RadixStep radix)
    (protocol : StepProtocol α radix) : Prop where
  shape : protocol.step =
    { origin with left := protocol.step.left, table := protocol.step.table }
  spans : protocol.memory.Spans origin.window
  length : elements.length = origin.window.length
  /-- The range is as it was, but for buckets that have been handed on. -/
  kept : ∀ slot < origin.window.length, ¬Given protocol.handedOn slot →
    (protocol.memory.side origin.window.activeSide)[origin.window.offset + slot]? =
      elements[slot]?
  counters : protocol.counters.length = origin.parts
  scatterers : protocol.scatterers.length = origin.parts
  size : protocol.step.table.size = origin.parts

section Based

variable (based : Based elements origin protocol)

include based

/-- The window of the range. -/
theorem Based.window : protocol.step.window = origin.window := by rw [based.shape]

/-- The number of the pieces. -/
theorem Based.parts : protocol.step.parts = origin.parts := by rw [based.shape]

/-- A counting task has a part. -/
theorem Based.counts {part : Nat} {task : CountTask radix}
    (here : protocol.counters[part]? = some task) : part < origin.parts := by
  rw [← based.counters]
  exact (List.getElem?_eq_some_iff.mp here).1

/-- A scattering task has a part. -/
theorem Based.scatters {part : Nat} {task : ScatterTask radix}
    (here : protocol.scatterers[part]? = some task) : part < origin.parts := by
  rw [← based.scatterers]
  exact (List.getElem?_eq_some_iff.mp here).1

/-- The bounds of a piece. -/
theorem Based.chunk_eq (cut : origin.Cut) {part : Nat} (valid : part < origin.parts) :
    protocol.step.chunk part = .ok (origin.begins part, origin.stops part) := by
  rw [based.shape]
  exact cut.chunk part valid

/-- The end of a piece. -/
theorem Based.stop_eq (cut : origin.Cut) {part : Nat} (valid : part < origin.parts) :
    protocol.stop? part = some (origin.stops part) := by
  rw [stop?, based.chunk_eq cut valid]

/-- Before buckets are handed on, the range is as it was. -/
theorem Based.held (none : protocol.handedOn = []) :
    protocol.memory.held origin.window = elements := by
  refine slice_eq based.length fun slot inside => based.kept slot inside ?_
  rw [none]
  exact not_given_nil slot

/-- Before buckets are handed on, an element is the one that was there at the start. -/
theorem Based.element_eq (none : protocol.handedOn = []) (position : Nat) :
    protocol.elementAt? position = elements[position]? := by
  rw [elementAt?, based.window, ← based.held none, Memory.held, Array.getElem?_toList]

/-- The elements up to the end of a piece can be read. -/
theorem Based.readable (none : protocol.handedOn = []) {part position : Nat}
    (more : position < origin.stops part) :
    ∃ x, elements[position]? = some x ∧ protocol.elementAt? position = some x := by
  have inside : position < elements.length := by
    have := based.length
    simp only [RadixStep.stops] at more
    omega
  have read := List.getElem?_eq_getElem inside
  exact ⟨_, read, (based.element_eq none position).trans read⟩

/-- A change of one counting task changes nothing else. -/
theorem Based.counter (part : Nat) (task : CountTask radix) :
    Based elements origin (protocol.counter part task) where
  shape := based.shape
  spans := based.spans
  length := based.length
  kept := based.kept
  counters := (List.length_set ..).trans based.counters
  scatterers := based.scatterers
  size := based.size

/-- A change of one scattering task changes nothing else. -/
theorem Based.scatterer (part : Nat) (task : ScatterTask radix) :
    Based elements origin (protocol.scatterer part task) where
  shape := based.shape
  spans := based.spans
  length := based.length
  kept := based.kept
  counters := based.counters
  scatterers := (List.length_set ..).trans based.scatterers
  size := based.size

/-- A change of the table and of the number of tasks changes nothing else. -/
theorem Based.restep {step : RadixStep radix} {sums : Nat}
    (shape : step = { origin with left := step.left, table := step.table })
    (size : step.table.size = origin.parts) :
    Based elements origin { protocol with step, sums } where
  shape := shape
  spans := based.spans
  length := based.length
  kept := based.kept
  counters := based.counters
  scatterers := based.scatterers
  size := size

end Based

/-- What a task of the first phase has counted. -/
def Counts (key : α → Fin radix) (elements : List α) (origin : RadixStep radix)
    (table : CountTable radix) (part : Nat) : CountTask radix → Prop
  | .counting position counts => origin.begins part ≤ position ∧ position ≤ origin.stops part ∧
      counts = histogram key (between elements (origin.begins part) position)
  | .stored | .ended => table[part]? =
      some (histogram key (between elements (origin.begins part) (origin.stops part)))
  | _ => False

/-- How far a task of the second phase has got. -/
def Scatters (key : α → Fin radix) (elements : List α) (origin : RadixStep radix)
    (part : Nat) : ScatterTask radix → Prop
  | .scattering position cursors => origin.begins part ≤ position ∧
      position ≤ origin.stops part ∧ ∀ bucket : Fin radix, cursors.get bucket =
        shareStart key elements origin part bucket +
          (between elements position (origin.stops part)).countP (key · = bucket)
  | .closing | .handing _ => False
  | _ => True

/-- The lowest slot that a task has written in its share of a bucket, or the end of the
share. -/
def cursor (key : α → Fin radix) (elements : List α) (origin : RadixStep radix) (part : Nat)
    (bucket : Fin radix) : ScatterTask radix → Nat
  | .unreleased | .released => shareStart key elements origin (part + 1) bucket
  | .scattering _ cursors => cursors.get bucket
  | _ => shareStart key elements origin part bucket

/-- A task has passed this slot of one of its shares. -/
def PassedBy (key : α → Fin radix) (elements : List α) (origin : RadixStep radix) (part : Nat)
    (task : ScatterTask radix) (slot : Nat) : Prop :=
  ∃ bucket : Fin radix, cursor key elements origin part bucket task ≤ slot ∧
    slot < shareStart key elements origin (part + 1) bucket

/-- Some task has passed this slot. -/
def Passed (key : α → Fin radix) (elements : List α) (origin : RadixStep radix)
    (tasks : List (ScatterTask radix)) (slot : Nat) : Prop :=
  ∃ part task, tasks[part]? = some task ∧ PassedBy key elements origin part task slot

/-- The task of the first piece has placed it, and with that replaced its row. -/
def FirstPlaced (tasks : List (ScatterTask radix)) : Prop :=
  ∃ task, tasks[0]? = some task ∧ task.finished = true

/-- The tasks of the second phase are released up to some part, and there are tasks that see
to the rest. -/
structure Releases (parts : Nat) (counters : List (CountTask radix))
    (scatterers : List (ScatterTask radix)) (next : Nat) : Prop where
  upTo : next ≤ parts
  tasks : ∀ part task, scatterers[part]? = some task → (task = .unreleased ↔ next ≤ part)
  last : (next = parts ∧ ∀ task ∈ counters, task = .ended) ∨
    ∃ part, Alone counters .ended part (.releasing next)

/-- What the task that counted itself off last still has to hand on. -/
def Hands (key : α → Fin radix) (elements : List α) (origin : RadixStep radix)
    (handedOn : List (Handed α)) : ScatterTask radix → Prop
  | .closing => handedOn = []
  | .handing buckets => ∃ done rest, done ++ rest = digits key elements ∧
      handedOn = done.map (share key elements origin) ∧ buckets = rest.map (place key elements)
  | .ended => handedOn = shares key elements origin
  | _ => False

/-- The second phase has not begun. -/
structure Early (protocol : StepProtocol α radix) : Prop where
  unreleased : ∀ task ∈ protocol.scatterers, task = .unreleased
  written : protocol.written = []
  handedOn : protocol.handedOn = []

/-- Some pieces have not been counted off. -/
structure Counting (key : α → Fin radix) (elements : List α) (origin : RadixStep radix)
    (protocol : StepProtocol α radix) : Prop where
  early : Early protocol
  sums : protocol.sums = 0
  left : protocol.step.left = protocol.counters.countP CountTask.outstanding
  busy : 0 < protocol.step.left
  each : ∀ part task, protocol.counters[part]? = some task →
    Counts key elements origin protocol.step.table part task

/-- All pieces have been counted, and their sums are to be formed. -/
structure Summing (key : α → Fin radix) (elements : List α) (origin : RadixStep radix)
    (protocol : StepProtocol α radix) : Prop where
  early : Early protocol
  sums : protocol.sums = 0
  left : protocol.step.left = 0
  alone : ∃ part, Alone protocol.counters .ended part .summing
  rows : ∀ part < origin.parts, protocol.step.table[part]? =
    some (histogram key (between elements (origin.begins part) (origin.stops part)))

/-- The sums have been formed, and the number of tasks is to be set. -/
structure Summed (key : α → Fin radix) (elements : List α) (origin : RadixStep radix)
    (protocol : StepProtocol α radix) : Prop where
  early : Early protocol
  sums : protocol.sums = 1
  left : protocol.step.left = 0
  alone : ∃ part, Alone protocol.counters .ended part .resetting
  rows : ∀ (part : Nat) (row : Vector Nat radix), protocol.step.table[part]? = some row →
    ∀ bucket : Fin radix, row.get bucket = shareStart key elements origin (part + 1) bucket

/-- Some pieces have not been counted off the second phase. -/
structure Scattering (key : α → Fin radix) (elements : List α) (origin : RadixStep radix)
    (protocol : StepProtocol α radix) : Prop where
  sums : protocol.sums = 1
  handedOn : protocol.handedOn = []
  left : protocol.step.left = protocol.scatterers.countP ScatterTask.outstanding
  busy : 0 < protocol.step.left
  releases : ∃ next, Releases origin.parts protocol.counters protocol.scatterers next
  each : ∀ part task, protocol.scatterers[part]? = some task →
    Scatters key elements origin part task
  rows : ∀ (part : Nat) (row : Vector Nat radix), protocol.step.table[part]? = some row →
    (part ≠ 0 ∨ ¬FirstPlaced protocol.scatterers) → ∀ bucket : Fin radix,
      row.get bucket = shareStart key elements origin (part + 1) bucket
  first : ∀ row : Vector Nat radix, protocol.step.table[0]? = some row →
    FirstPlaced protocol.scatterers → ∀ bucket : Fin radix,
      row.get bucket = shareStart key elements origin 0 bucket
  passed : ∀ slot, slot ∈ protocol.written ↔ Passed key elements origin protocol.scatterers slot
  once : protocol.written.Nodup
  stored : ∀ slot ∈ protocol.written,
    (protocol.memory.side origin.window.shadowSide)[origin.window.offset + slot]? =
      (target key elements origin)[slot]?

/-- All pieces have been scattered, and the buckets are handed on. -/
structure Closing (key : α → Fin radix) (elements : List α) (origin : RadixStep radix)
    (protocol : StepProtocol α radix) : Prop where
  sums : protocol.sums = 1
  left : protocol.step.left = 0
  releases : (∀ task ∈ protocol.counters, task = .ended) ∨
    ∃ part, Alone protocol.counters .ended part (.releasing origin.parts)
  alone : ∃ part task, Alone protocol.scatterers .ended part task ∧
    Hands key elements origin protocol.handedOn task
  rows : ∀ (part : Nat) (row : Vector Nat radix), protocol.step.table[part]? = some row →
    part ≠ 0 → ∀ bucket : Fin radix,
      row.get bucket = shareStart key elements origin (part + 1) bucket
  first : ∀ row : Vector Nat radix, protocol.step.table[0]? = some row →
    ∀ bucket : Fin radix, row.get bucket = shareStart key elements origin 0 bucket
  written : protocol.written.Perm (List.range origin.window.length)
  stored : ∀ slot < origin.window.length, ¬Given protocol.handedOn slot →
    (protocol.memory.side origin.window.shadowSide)[origin.window.offset + slot]? =
      (target key elements origin)[slot]?

/-- A partition is in one of its phases. -/
inductive Phase (key : α → Fin radix) (elements : List α) (origin : RadixStep radix)
    (protocol : StepProtocol α radix) : Prop where
  | counting (now : Counting key elements origin protocol)
  | summing (now : Summing key elements origin protocol)
  | summed (now : Summed key elements origin protocol)
  | scattering (now : Scattering key elements origin protocol)
  | closing (now : Closing key elements origin protocol)


end StepProtocol

end RadixSort
