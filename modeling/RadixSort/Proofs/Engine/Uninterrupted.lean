import RadixSort.Engine.Dispatch
import RadixSort.Proofs.Engine.SecondPhase
import RadixSort.Proofs.Msd.Locality

/-!
# Tasks that are executed as wholes

The engine executes the task of a chunk as a whole, and with it what the last task of a phase
does at its end. To the rest of the partition this is a stretch of actions of that task with
none of another task between them: the elements of the chunk one by one, then the row of the
table, the count of the tasks, and what is released or handed on.
-/
namespace RadixSort.StepProtocol

variable {α : Type} {radix : Nat} {key : α → Fin radix} {rule : DigitRule α radix}
  {first protocol : StepProtocol α radix} {part begin stop position : Nat}
  {elements : List α}

section Tasks

variable {old : CountTask radix} {before : ScatterTask radix}

/-- The counting task that acts last is the one that is seen. -/
@[simp] theorem counter_counter (protocol : StepProtocol α radix) (part : Nat)
    (old new : CountTask radix) :
    (protocol.counter part old).counter part new = protocol.counter part new := by
  simp [counter, List.set_set]

/-- A counting task is still what it was. -/
theorem counter_self (here : protocol.counters[part]? = some old) :
    protocol.counter part old = protocol := by
  obtain ⟨inside, rfl⟩ := List.getElem?_eq_some_iff.mp here
  rw [counter, List.set_getElem_self]

/-- A counting task becomes what it is made. -/
theorem counters_counter (here : protocol.counters[part]? = some old) (new : CountTask radix) :
    (protocol.counter part new).counters[part]? = some new :=
  List.getElem?_set_self (List.getElem?_eq_some_iff.mp here).1

/-- The scattering task that acts last is the one that is seen. -/
@[simp] theorem scatterer_scatterer (protocol : StepProtocol α radix) (part : Nat)
    (old new : ScatterTask radix) :
    (protocol.scatterer part old).scatterer part new = protocol.scatterer part new := by
  simp [scatterer, List.set_set]

/-- A scattering task is still what it was. -/
theorem scatterer_self (here : protocol.scatterers[part]? = some before) :
    protocol.scatterer part before = protocol := by
  obtain ⟨inside, rfl⟩ := List.getElem?_eq_some_iff.mp here
  rw [scatterer, List.set_getElem_self]

/-- A scattering task becomes what it is made. -/
theorem scatterers_scatterer (here : protocol.scatterers[part]? = some before)
    (new : ScatterTask radix) : (protocol.scatterer part new).scatterers[part]? = some new :=
  List.getElem?_set_self (List.getElem?_eq_some_iff.mp here).1

end Tasks

/-- The elements of a chunk that the engine reads are those between its bounds. -/
theorem eq_of_elements {step : RadixStep radix} {memory : Memory α}
    (bounds : step.chunk part = .ok (begin, stop))
    (read : step.elements memory part = .ok elements) :
    begin ≤ stop ∧ stop ≤ (memory.active step.window).toList.length ∧
      elements = between (memory.active step.window).toList begin stop := by
  obtain ⟨_, named, read⟩ := bind_eq_ok.mp read
  cases bounds.symm.trans named
  obtain ⟨cells, taken, read⟩ := bind_eq_ok.mp read
  obtain ⟨ordered, inside, rfl⟩ := part_eq_ok_iff.mp taken
  cases read
  exact ⟨ordered, inside, by simp [between]⟩

/-- Storing a row changes no number of tasks. -/
theorem left_of_storeRow {step stored : RadixStep radix} {row : Vector Nat radix}
    (storing : step.storeRow part row = .ok stored) :
    stored.left = step.left ∧ stored.parts = step.parts := by
  unfold RadixStep.storeRow at storing
  split at storing
  · cases storing
    exact ⟨rfl, rfl⟩
  · cases storing

/-- Forming the sums leaves the number of chunks. -/
theorem parts_of_sumUp {step summed : RadixStep radix} (formed : step.sumUp = .ok summed) :
    summed.parts = step.parts := by
  obtain ⟨⟨table, total⟩, -, formed⟩ := bind_eq_ok.mp formed
  dsimp only at formed
  split at formed
  · cases formed
    rfl
  · cases formed

/-- A task counts what is left of its chunk, one element after the other.

Induct over what is left. -/
theorem run_counting {counts last : Vector Nat radix} (run : Run key first protocol)
    (held : (protocol.memory.active protocol.step.window).toList = elements)
    (here : protocol.counters[part]? = some (.counting position counts))
    (ends : protocol.stop? part = some stop) (low : position ≤ stop)
    (inside : stop ≤ elements.length)
    (ran : countInto key (between elements position stop) counts = .ok last) :
    Run key first (protocol.counter part (.counting stop last)) := by
  induction left : between elements position stop generalizing protocol position counts with
  | nil =>
    obtain rfl := eq_of_between low inside left
    rw [left] at ran
    obtain rfl := Except.ok.inj ran
    rw [counter_self here]
    exact run
  | cons x rest ih =>
    rw [left] at ran
    obtain ⟨more, read, left⟩ := read_of_between left
    obtain ⟨count, raised, ran⟩ := bind_eq_ok.mp ran
    have action : Step key protocol _ := .countOne protocol part position stop count counts x here
      ends more (by rw [elementAt?, ← Array.getElem?_toList, held]; exact read) raised
    have goes := ih (run.step action) held (counters_counter here _) ends more (left.symm ▸ ran)
      left
    rwa [counter_counter] at goes

/-- The tasks of the second phase are released one after the other.

Induct over those that are left. -/
theorem run_releasing {next : Nat} (run : Run key first protocol)
    (here : protocol.counters[part]? = some (.releasing next)) (upTo : next ≤ protocol.step.parts)
    (number : protocol.scatterers.length = protocol.step.parts) :
    Run key first { protocol.counter part .ended with
      scatterers := protocol.scatterers.take next ++
        List.replicate (protocol.step.parts - next) .released } := by
  induction left : protocol.step.parts - next generalizing protocol next with
  | zero =>
    obtain rfl : next = protocol.step.parts := by omega
    have action : Step key protocol _ := .endRelease protocol part here
    rw [List.take_of_length_le (Nat.le_of_eq number), List.replicate_zero, List.append_nil]
    exact run.step action
  | succ left ih =>
    have more : next < protocol.step.parts := by omega
    have action : Step key protocol _ := .release protocol part next here more
    have goes := ih (run.step action) (counters_counter here _) more
      ((List.length_set ..).trans number) (by simp only [counter, scatterer]; omega)
    have same : (protocol.scatterers.set next .released).take (next + 1) =
        protocol.scatterers.take next ++ [.released] := by
      rw [List.take_add_one, List.getElem?_set_self (number.symm ▸ more), Option.toList_some,
        List.take_set_of_le (Nat.le_refl next)]
    simpa [counter, scatterer, List.set_set, same, List.replicate_succ] using goes

/-- Counting a chunk as a whole is counting its elements, storing the counts and counting the
task off. The last one forms the sums, sets the number of tasks and releases them. -/
theorem run_count {counted : RadixStep radix}
    (bounds : protocol.step.chunk part = .ok (begin, stop))
    (here : protocol.counters[part]? = some (.counting begin (Vector.replicate radix 0)))
    (busy : 0 < protocol.step.left)
    (number : protocol.scatterers.length = protocol.step.parts)
    (ran : protocol.step.count rule protocol.memory part = .ok counted) :
    (counted.left ≠ 0 →
      Run (rule.digit · protocol.step.depth) protocol
        { protocol.counter part .ended with step := counted }) ∧
    (∀ laidOut, counted.left = 0 → counted.layOut = .ok laidOut →
      Run (rule.digit · protocol.step.depth) protocol { protocol.counter part .ended with
        step := laidOut
        scatterers := List.replicate protocol.step.parts .released
        sums := protocol.sums + 1 }) := by
  obtain ⟨elements, read, ran⟩ := bind_eq_ok.mp ran
  obtain ⟨ordered, inside, rfl⟩ := eq_of_elements bounds read
  obtain ⟨-, -, ran⟩ := bind_eq_ok.mp ran
  obtain ⟨counts, counting, ran⟩ := bind_eq_ok.mp ran
  obtain ⟨stored, storing, ran⟩ := bind_eq_ok.mp ran
  obtain rfl := Except.ok.inj ran
  have ends : protocol.stop? part = some stop := by rw [stop?, bounds]
  have begun : Run (rule.digit · protocol.step.depth) protocol protocol := .done protocol
  have counted := run_counting begun rfl here ends ordered inside counting
  have kept := counted.step
    (.storeCounts _ part stop counts stored (counters_counter here _) ends storing)
  rw [counter_counter] at kept
  have waits : ({ protocol.counter part .stored with step := stored } :
      StepProtocol α radix).counters[part]? = some .stored := counters_counter here _
  have off := kept.step (.endCount _ part waits)
  obtain ⟨same, parts⟩ := left_of_storeRow storing
  constructor
  · intro more
    have others : stored.left ≠ 1 := by
      simp only at more
      omega
    simp only [if_neg others] at off
    simpa [counter, countOff, List.set_set] using off
  · intro laidOut none laid
    have last : stored.left = 1 := by
      simp only at none
      omega
    obtain ⟨summed, formed, laid⟩ := bind_eq_ok.mp laid
    obtain rfl := Except.ok.inj laid
    have width := parts_of_sumUp formed
    simp only at width
    simp only [if_pos last] at off
    have forming := off.step (.formSums _ part summed (counters_counter waits _) formed)
    have setting := forming.step (.reset _ part (counters_counter (counters_counter waits _) _))
    have releasing := run_releasing setting
      (counters_counter (counters_counter (counters_counter waits _) _) _) (Nat.zero_le _)
      (number.trans (parts.symm.trans width.symm))
    simpa [counter, countOff, List.set_set, width, parts] using releasing

/-- Writes can be carried out one by one, and none of them changes the range itself. -/
theorem writeShadow_cons {memory after : Memory α} {window : Window} {slot : Nat} {x : α}
    {rest : List (SlotWrite α)}
    (stored : memory.writeShadow window ((slot, x) :: rest) = .ok after) :
    ∃ middle, memory.writeShadow window [(slot, x)] = .ok middle ∧
      middle.writeShadow window rest = .ok after ∧
      middle.active window = memory.active window := by
  obtain ⟨fits, rfl⟩ := Memory.writeShadow_eq_ok_iff.mp stored
  obtain ⟨own, others⟩ := List.forall_mem_cons.mp fits
  refine ⟨_, Memory.writeShadow_eq_ok_iff.mpr ⟨by simpa using own, rfl⟩,
    Memory.writeShadow_eq_ok_iff.mpr ⟨others, ?_⟩, ?_⟩
  · cases window.shadowSide <;> rfl
  · rw [Memory.active, Memory.active, Memory.cells, Memory.cells, Window.shadowSide]
    cases window.activeSide <;> rfl

/-- A task places what is left of its chunk, one element after the other.

Induct over what is left. -/
theorem run_scattering {cursors last : Vector Nat radix} {writes : List (SlotWrite α)}
    {memory : Memory α} (run : Run key first protocol)
    (held : (protocol.memory.active protocol.step.window).toList = elements)
    (here : protocol.scatterers[part]? = some (.scattering position cursors))
    (ends : protocol.stop? part = some stop) (low : position ≤ stop)
    (inside : stop ≤ elements.length)
    (ran : Scatter.falling key cursors (between elements position stop) = .ok (writes, last))
    (stored : protocol.memory.writeShadow protocol.step.window writes = .ok memory) :
    Run key first { protocol.scatterer part (.scattering stop last) with
      memory, written := protocol.written ++ writes.map Prod.fst } := by
  induction left : between elements position stop
    generalizing protocol position cursors writes with
  | nil =>
    obtain rfl := eq_of_between low inside left
    rw [left] at ran
    obtain ⟨rfl, rfl⟩ := Prod.mk.inj (Except.ok.inj ran)
    obtain rfl : memory = protocol.memory := by
      rw [(Memory.writeShadow_eq_ok_iff.mp stored).2]
      cases protocol.step.window.shadowSide <;> rfl
    rw [scatterer_self here, List.map_nil, List.append_nil]
    exact run
  | cons x rest ih =>
    rw [left] at ran
    obtain ⟨more, read, left⟩ := read_of_between left
    obtain ⟨slot, lowered, ran⟩ := bind_eq_ok.mp ran
    obtain ⟨⟨others, final⟩, falls, packed⟩ := bind_eq_ok.mp ran
    obtain ⟨rfl, rfl⟩ := Prod.mk.inj (Except.ok.inj packed)
    obtain ⟨middle, wrote, stored, same⟩ := writeShadow_cons stored
    have action : Step key protocol (placeIn protocol part position cursors (key x) slot middle) :=
      .placeOne protocol part position stop slot cursors x middle here ends more
        (by rw [elementAt?, ← Array.getElem?_toList, held]; exact read) lowered wrote
    have goes := ih (run.step action) ((congrArg Array.toList same).trans held)
      (scatterers_scatterer here _) ends more (left.symm ▸ falls) stored left
    simpa [placeIn, scatterer, List.set_set] using goes

/-- Dispatching the buckets of a range is handing them on one after the other.

Induct over the buckets. -/
theorem run_handing {rules : Rules α radix} {settled : Job → Nat} {depth : Nat}
    {buckets : List Bucket} {engine last : Engine α radix} {tasks : List EngineTask}
    (run : Run key first protocol) (here : protocol.scatterers[part]? = some (.handing buckets))
    (same : engine.work.memory = protocol.memory)
    (ran : Engine.dispatchBuckets rules settled protocol.step.window depth buckets engine =
      .ok (last, tasks)) :
    ∃ handed : List (Handed α), handed.map Handed.bucket = buckets ∧
      Run key first { protocol.scatterer part .ended with
        memory := last.work.memory, handedOn := protocol.handedOn ++ handed } := by
  induction buckets generalizing protocol engine tasks with
  | nil =>
    cases ran
    have action : Step key protocol _ := .endHanding protocol part here
    refine ⟨[], rfl, ?_⟩
    rw [same, List.append_nil]
    exact run.step action
  | cons bucket rest ih =>
    obtain ⟨window, exchanged, ran⟩ := bind_eq_ok.mp ran
    have action : Step key protocol _ := .handOn protocol part bucket rest window here exchanged
    have goes {between : Engine α radix} {later : List EngineTask}
        (memory : between.work.memory = (protocol.handOver bucket window).memory)
        (ran : Engine.dispatchBuckets rules settled protocol.step.window depth rest between =
          .ok (last, later)) :
        ∃ handed : List (Handed α), handed.map Handed.bucket = bucket :: rest ∧
          Run key first { protocol.scatterer part .ended with
            memory := last.work.memory, handedOn := protocol.handedOn ++ handed } := by
      obtain ⟨handed, listed, goes⟩ :=
        ih (run.step action) (scatterers_scatterer here _) memory ran
      refine ⟨⟨bucket, (protocol.memory.active window).toList⟩ :: handed,
        congrArg (bucket :: ·) listed, ?_⟩
      simpa [handOver, scatterer, List.set_set] using goes
    by_cases single : bucket.length = 1
    · rw [if_pos single] at ran
      exact goes (by simp [handOver, single, same, Work.settle]) ran
    · rw [if_neg single] at ran
      obtain ⟨⟨next, own⟩, dispatched, ran⟩ := bind_eq_ok.mp ran
      obtain ⟨⟨_, later⟩, went, ran⟩ := bind_eq_ok.mp ran
      cases ran
      have kept := Engine.dispatch_memory rules settled engine ⟨window, depth + 1⟩
      rw [dispatched] at kept
      have kept : next.work.memory = engine.work.memory := kept
      exact goes (by rw [kept, same, handOver, if_neg single]) went

/-- Scattering a chunk as a whole is reading its shares, placing its elements, ending it and
counting the task off. The last one finds the buckets and hands them on. -/
theorem run_distribute {scattered : RadixStep radix} {memory : Memory α}
    (bounds : protocol.step.chunk part = .ok (begin, stop))
    (here : protocol.scatterers[part]? = some .released) (busy : 0 < protocol.step.left)
    (ran : protocol.step.distribute rule protocol.memory part = .ok (scattered, memory)) :
    ∃ slots : List Nat,
      (scattered.left ≠ 0 →
        Run (rule.digit · protocol.step.depth) protocol { protocol.scatterer part .ended with
          memory, step := scattered, written := protocol.written ++ slots }) ∧
      (∀ buckets, scattered.left = 0 → scattered.buckets = .ok buckets →
        Run (rule.digit · protocol.step.depth) protocol
          { protocol.scatterer part (.handing buckets) with
            memory, step := scattered, written := protocol.written ++ slots }) := by
  obtain ⟨elements, read, ran⟩ := bind_eq_ok.mp ran
  obtain ⟨ordered, inside, rfl⟩ := eq_of_elements bounds read
  obtain ⟨-, -, ran⟩ := bind_eq_ok.mp ran
  have ends : protocol.stop? part = some stop := by rw [stop?, bounds]
  cases row : protocol.step.table[part]? with
  | none =>
    rw [row] at ran
    cases ran
  | some cursors =>
    rw [row] at ran
    obtain ⟨⟨writes, starts⟩, falls, ran⟩ := bind_eq_ok.mp ran
    obtain ⟨after, stored, ran⟩ := bind_eq_ok.mp ran
    have occupied : 0 < protocol.step.table.size :=
      Nat.zero_lt_of_lt (Array.getElem?_eq_some_iff.mp row).1
    obtain ⟨table, storing, -⟩ :=
      RadixStep.storeStarts_exact protocol.step part starts occupied
    obtain ⟨rfl, rfl⟩ := Prod.mk.inj (Except.ok.inj ((storing _ _).symm.trans ran))
    have replaced : (if part = 0 then protocol.step.storeRow 0 starts else .ok protocol.step) =
        .ok { protocol.step with table } := by
      have whole := storing _ (Except.ok : RadixStep radix → Except Fault (RadixStep radix))
      by_cases own : part = 0
      · rw [if_pos own] at whole ⊢
        rwa [show protocol.step.storeRow 0 starts >>= Except.ok = protocol.step.storeRow 0 starts
          from bind_pure _] at whole
      · rw [if_neg own] at whole ⊢
        exact whole
    have begun : Run (rule.digit · protocol.step.depth) protocol _ :=
      (Run.done protocol).step (.readShares protocol part begin stop cursors here bounds row)
    have placing := run_scattering begun rfl (scatterers_scatterer here _) ends ordered inside falls
      stored
    rw [scatterer_scatterer] at placing
    have ending := placing.step
      (.endChunk _ part stop starts _ (scatterers_scatterer here _) ends replaced)
    have off := ending.step (.endScatter _ part
      (scatterers_scatterer (scatterers_scatterer here _) _))
    refine ⟨writes.map Prod.fst, fun more => ?_, fun buckets none found => ?_⟩
    · have others : protocol.step.left ≠ 1 := by
        simp only at more
        omega
      simpa [scatterer, countOff, List.set_set, others] using off
    · have last : protocol.step.left = 1 := by
        simp only at none
        omega
      have reading := off.step (.readStarts _ part buckets
        (by simp [scatterer, countOff, last, List.set_set, (List.getElem?_eq_some_iff.mp here).1])
        found)
      simpa [scatterer, countOff, List.set_set] using reading

end RadixSort.StepProtocol
