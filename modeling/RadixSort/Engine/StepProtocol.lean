import RadixSort.Engine.RadixStep

/-!
# A partition by several tasks, access by access

Here the tasks that partition one range are not executed as wholes. An action of a task
handles one element, or makes one access to what the tasks share: it stores or reads a row
of the table, counts the task off, sets the number of tasks of the next phase, releases one
task or hands one bucket on. The tasks make their actions in any interleaving, and between
any two of them the tasks of other ranges may write to cells outside this range, and to the
cells of a bucket that has been handed on.

A task sees that it was the last of its phase by the number it lowers. The last one of the
first phase forms the sums, which no other task can watch, sets the number again, and then
releases the tasks of the second phase one by one, so the first of these may have finished
before the last one is released. All tasks of the first phase are there from the start: a
task that is enqueued later is one that makes its first action later.

The record of a run counts how often the sums were formed, and lists the slots written and
the buckets handed on, with what they held then, so that a law can say that all this
happens once.
-/
namespace RadixSort

/-- What the task that counts a chunk is about to do. -/
inductive CountTask (radix : Nat) where
  /-- Count the element at `position` of the range, with the counts so far. -/
  | counting (position : Nat) (counts : Vector Nat radix)
  /-- Count itself off, now that its counts are stored. -/
  | stored
  /-- Turn the counts of all chunks into sums. -/
  | summing
  /-- Set the number of tasks of the second phase. -/
  | resetting
  /-- Release the task of the chunk `next`. -/
  | releasing (next : Nat)
  /-- Nothing more. -/
  | ended
  deriving DecidableEq, Repr

/-- What the task that scatters a chunk is about to do. -/
inductive ScatterTask (radix : Nat) where
  /-- Nothing, before it is released. -/
  | unreleased
  /-- Read its row of the table. -/
  | released
  /-- Scatter the element at `position` of the range, with the cursors so far. -/
  | scattering (position : Nat) (cursors : Vector Nat radix)
  /-- Count itself off, now that its elements are scattered. -/
  | placed
  /-- Read the starts of the buckets. -/
  | closing
  /-- Hand on these buckets. -/
  | handing (buckets : List Bucket)
  /-- Nothing more. -/
  | ended
  deriving DecidableEq, Repr

/-- A bucket that has been handed on, and what it held then. -/
structure Handed (α : Type) where
  bucket : Bucket
  held : List α
  deriving DecidableEq, Repr

/-- A partition in progress, with the two tasks of each chunk. -/
structure StepProtocol (α : Type) (radix : Nat) where
  memory : Memory α
  step : RadixStep radix
  counters : List (CountTask radix)
  scatterers : List (ScatterTask radix)
  /-- How often the counts have been turned into sums. -/
  sums : Nat
  /-- The buckets handed on, in order. -/
  handedOn : List (Handed α)
  /-- The slots of the shadow side that were written, in order. -/
  written : List Nat

namespace StepProtocol

variable {α : Type} {radix : Nat}

/-- A partition that has just been started. -/
def opened (memory : Memory α) (step : RadixStep radix) : Except Fault (StepProtocol α radix) := do
  let chunks ← (List.range step.parts).mapM step.chunk
  return {
    memory, step
    counters := chunks.map fun chunk => .counting chunk.1 (Vector.replicate radix 0)
    scatterers := chunks.map fun _ => .unreleased
    sums := 0, handedOn := [], written := [] }

/-- Change what the counting task of a chunk is about to do. -/
def counter (protocol : StepProtocol α radix) (part : Nat) (task : CountTask radix) :
    StepProtocol α radix :=
  { protocol with counters := protocol.counters.set part task }

/-- Change what the scattering task of a chunk is about to do. -/
def scatterer (protocol : StepProtocol α radix) (part : Nat) (task : ScatterTask radix) :
    StepProtocol α radix :=
  { protocol with scatterers := protocol.scatterers.set part task }

/-- The element at a position of the range, as it is now. -/
def elementAt? (protocol : StepProtocol α radix) (position : Nat) : Option α :=
  (protocol.memory.active protocol.step.window)[position]?

/-- The end of a chunk, within the range. -/
def stop? (protocol : StepProtocol α radix) (part : Nat) : Option Nat :=
  match protocol.step.chunk part with
  | .ok (_, stop) => some stop
  | .error _ => none

/-- Lower the number of tasks of the phase. -/
def countOff (protocol : StepProtocol α radix) : StepProtocol α radix :=
  { protocol with step := { protocol.step with left := protocol.step.left - 1 } }

/-- Hand a bucket on; one of a single element is copied back for that. -/
def handOver (protocol : StepProtocol α radix) (bucket : Bucket) (window : Window) :
    StepProtocol α radix :=
  { protocol with
    memory := if bucket.length = 1 then protocol.memory.copyBack window else protocol.memory
    handedOn := protocol.handedOn ++ [⟨bucket, (protocol.memory.active window).toList⟩] }

/-- Another task writes to one cell. -/
def intrude (protocol : StepProtocol α radix) (side : Side) (cell : Nat) (x : α) :
    StepProtocol α radix :=
  { protocol with
    memory := protocol.memory.modifySide side fun cells => cells.setIfInBounds cell x }

/-- A cell belongs to another task if it lies outside the range, or in a bucket that has
been handed on. -/
def Foreign (protocol : StepProtocol α radix) (cell : Nat) : Prop :=
  cell < protocol.step.window.offset ∨
    protocol.step.window.offset + protocol.step.window.length ≤ cell ∨
    ∃ handed ∈ protocol.handedOn, protocol.step.window.offset + handed.bucket.start ≤ cell ∧
      cell < protocol.step.window.offset + handed.bucket.start + handed.bucket.length

/-- One action of one task, or a write by a task of another range. -/
inductive Step (key : α → Fin radix) : StepProtocol α radix → StepProtocol α radix → Prop where
  /-- An element is counted. -/
  | countOne (protocol : StepProtocol α radix) (part position stop count : Nat)
      (counts : Vector Nat radix) (x : α)
      (here : protocol.counters[part]? = some (.counting position counts))
      (ends : protocol.stop? part = some stop) (more : position < stop)
      (read : protocol.elementAt? position = some x)
      (raised : Word.checked (counts.get (key x) + 1) = .ok count) :
      Step key protocol
        (protocol.counter part (.counting (position + 1) (assign counts (key x) count)))
  /-- The counts of a chunk are stored. -/
  | storeCounts (protocol : StepProtocol α radix) (part position : Nat)
      (counts : Vector Nat radix) (step : RadixStep radix)
      (here : protocol.counters[part]? = some (.counting position counts))
      (ends : protocol.stop? part = some position)
      (stored : protocol.step.storeRow part counts = .ok step) :
      Step key protocol { protocol.counter part .stored with step }
  /-- A task of the first phase is counted off. -/
  | endCount (protocol : StepProtocol α radix) (part : Nat)
      (here : protocol.counters[part]? = some .stored) :
      Step key protocol
        (protocol.countOff.counter part (if protocol.step.left = 1 then .summing else .ended))
  /-- The sums are formed. -/
  | formSums (protocol : StepProtocol α radix) (part : Nat) (step : RadixStep radix)
      (here : protocol.counters[part]? = some .summing)
      (summed : protocol.step.sumUp = .ok step) :
      Step key protocol
        { protocol.counter part .resetting with step, sums := protocol.sums + 1 }
  /-- The number of tasks of the second phase is set. -/
  | reset (protocol : StepProtocol α radix) (part : Nat)
      (here : protocol.counters[part]? = some .resetting) :
      Step key protocol
        { protocol.counter part (.releasing 0) with
          step := { protocol.step with left := protocol.step.parts } }
  /-- A task of the second phase is released. -/
  | release (protocol : StepProtocol α radix) (part next : Nat)
      (here : protocol.counters[part]? = some (.releasing next))
      (more : next < protocol.step.parts) :
      Step key protocol
        ((protocol.counter part (.releasing (next + 1))).scatterer next .released)
  /-- All tasks of the second phase are released. -/
  | endRelease (protocol : StepProtocol α radix) (part : Nat)
      (here : protocol.counters[part]? = some (.releasing protocol.step.parts)) :
      Step key protocol (protocol.counter part .ended)
  /-- A chunk's share of each bucket is read. -/
  | readShares (protocol : StepProtocol α radix) (part begin stop : Nat)
      (cursors : Vector Nat radix)
      (here : protocol.scatterers[part]? = some .released)
      (bounds : protocol.step.chunk part = .ok (begin, stop))
      (row : protocol.step.table[part]? = some cursors) :
      Step key protocol (protocol.scatterer part (.scattering begin cursors))
  /-- An element is written to its slot. -/
  | placeOne (protocol : StepProtocol α radix) (part position stop slot : Nat)
      (cursors : Vector Nat radix) (x : α) (memory : Memory α)
      (here : protocol.scatterers[part]? = some (.scattering position cursors))
      (ends : protocol.stop? part = some stop) (more : position < stop)
      (read : protocol.elementAt? position = some x)
      (lowered : Word.checkedSub (cursors.get (key x)) 1 = .ok slot)
      (stored : protocol.memory.writeShadow protocol.step.window [(slot, x)] = .ok memory) :
      Step key protocol
        { protocol.scatterer part (.scattering (position + 1) (assign cursors (key x) slot)) with
          memory, written := protocol.written ++ [slot] }
  /-- A chunk has been scattered. The task of the first chunk replaces its row. -/
  | endChunk (protocol : StepProtocol α radix) (part position : Nat)
      (cursors : Vector Nat radix) (step : RadixStep radix)
      (here : protocol.scatterers[part]? = some (.scattering position cursors))
      (ends : protocol.stop? part = some position)
      (stored : (if part = 0 then protocol.step.storeRow 0 cursors else .ok protocol.step) =
        .ok step) :
      Step key protocol { protocol.scatterer part .placed with step }
  /-- A task of the second phase is counted off. -/
  | endScatter (protocol : StepProtocol α radix) (part : Nat)
      (here : protocol.scatterers[part]? = some .placed) :
      Step key protocol
        (protocol.countOff.scatterer part (if protocol.step.left = 1 then .closing else .ended))
  /-- The starts of the buckets are read. -/
  | readStarts (protocol : StepProtocol α radix) (part : Nat) (buckets : List Bucket)
      (here : protocol.scatterers[part]? = some .closing)
      (found : protocol.step.buckets = .ok buckets) :
      Step key protocol (protocol.scatterer part (.handing buckets))
  /-- A bucket is handed on. -/
  | handOn (protocol : StepProtocol α radix) (part : Nat) (bucket : Bucket) (rest : List Bucket)
      (window : Window)
      (here : protocol.scatterers[part]? = some (.handing (bucket :: rest)))
      (exchanged : protocol.step.window.flip bucket.start bucket.length = .ok window) :
      Step key protocol ((protocol.handOver bucket window).scatterer part (.handing rest))
  /-- All buckets are handed on. -/
  | endHanding (protocol : StepProtocol α radix) (part : Nat)
      (here : protocol.scatterers[part]? = some (.handing [])) :
      Step key protocol (protocol.scatterer part .ended)
  /-- A task of another range writes to a cell that is not this partition's. -/
  | elsewhere (protocol : StepProtocol α radix) (side : Side) (cell : Nat) (x : α)
      (foreign : protocol.Foreign cell) : Step key protocol (protocol.intrude side cell x)

/-- Any number of actions, interleaved in any way. -/
inductive Run (key : α → Fin radix) : StepProtocol α radix → StepProtocol α radix → Prop where
  | done (protocol : StepProtocol α radix) : Run key protocol protocol
  | step {protocol next last : StepProtocol α radix} (first : Run key protocol next)
      (action : Step key next last) : Run key protocol last

end StepProtocol

end RadixSort
