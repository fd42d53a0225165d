import RadixSort.Proofs.Engine.Phases

/-!
# The first phase of a partition

One law for each action: counting an element, storing the counts of a piece, counting a
task off, forming the sums and setting the number of tasks. Each says that the action can be
made where its task is, and which phase the partition is in then.
-/
namespace RadixSort.StepProtocol

variable {α : Type} {radix : Nat} {key : α → Fin radix} {elements : List α}
  {origin : RadixStep radix} {protocol : StepProtocol α radix} {table : CountTable radix}

section Counting

variable (based : Based elements origin protocol) (counting : Counting key elements origin protocol)

include counting in
/-- One more element can be counted in words. -/
theorem Counting.raised (cut : origin.Cut) {part position : Nat} {counts : Vector Nat radix}
    (here : protocol.counters[part]? = some (.counting position counts))
    (more : position < origin.stops part) (bucket : Fin radix) :
    Word.checked (counts.get bucket + 1) = .ok (counts.get bucket + 1) := by
  obtain ⟨-, -, rfl⟩ := counting.each part _ here
  refine Word.checked_eq_ok_iff.mpr ⟨?_, rfl⟩
  have few : (between elements (origin.begins part) position).countP (key · = bucket) ≤
      (between elements (origin.begins part) position).length := List.countP_le_length
  have length : (between elements (origin.begins part) position).length ≤ position := by
    rw [between, List.length_take]
    omega
  have fits := cut.fits
  simp only [RadixStep.stops] at more
  rw [get_histogram]
  omega

include counting in
/-- Counting one more element goes on with the first phase. -/
theorem Counting.countOne {part position : Nat} {counts : Vector Nat radix} {x : α}
    (here : protocol.counters[part]? = some (.counting position counts))
    (more : position < origin.stops part) (read : elements[position]? = some x) :
    Counting key elements origin (protocol.counter part
      (.counting (position + 1) (assign counts (key x) (counts.get (key x) + 1)))) := by
  obtain ⟨low, -, rfl⟩ := counting.each part _ here
  refine ⟨⟨counting.early.unreleased, counting.early.written, counting.early.handedOn⟩,
    counting.sums, ?_, counting.busy, ?_⟩
  · exact counting.left.trans (countP_set_same here (by rfl)).symm
  · refine forall_set part (fun other task found _ => counting.each other task found) ?_
    refine ⟨by omega, more, ?_⟩
    rw [between_concat read low, histogram_concat]

include based counting in
/-- The counts of a piece can be stored, and then they are in its row. -/
theorem Counting.storeCounts {part : Nat} {counts : Vector Nat radix}
    (here : protocol.counters[part]? = some (.counting (origin.stops part) counts)) :
    ∃ step, protocol.step.storeRow part counts = .ok step ∧
      Based elements origin { protocol.counter part .stored with step } ∧
      Counting key elements origin { protocol.counter part .stored with step } := by
  have inside : part < protocol.step.table.size := based.size.symm ▸ based.counts here
  have right := (counting.each part _ here).2.2
  refine ⟨_, if_pos inside, (based.counter part .stored).restep ?_ ?_, ?_⟩
  · rw [based.shape]
  · exact (Array.size_setIfInBounds ..).trans based.size
  · refine ⟨⟨counting.early.unreleased, counting.early.written, counting.early.handedOn⟩,
      counting.sums, ?_, counting.busy, ?_⟩
    · exact counting.left.trans (countP_set_same here (by rfl)).symm
    · refine forall_set part (fun other task found different => ?_) ?_
      · have before := counting.each other task found
        have kept : (protocol.step.table.setIfInBounds part counts)[other]? =
            protocol.step.table[other]? := Array.getElem?_setIfInBounds_ne (Ne.symm different)
        cases task with
        | counting position counts => exact before
        | stored => exact kept.trans before
        | ended => exact kept.trans before
        | summing => exact before.elim
        | resetting => exact before.elim
        | releasing next => exact before.elim
      · exact (Array.getElem?_setIfInBounds_self_of_lt inside).trans (congrArg some right)

include counting in
/-- A task that is counted off while others are outstanding has ended. -/
theorem Counting.endCount_more {part : Nat}
    (here : protocol.counters[part]? = some .stored) (more : protocol.step.left ≠ 1) :
    Counting key elements origin (protocol.countOff.counter part .ended) := by
  refine ⟨⟨counting.early.unreleased, counting.early.written, counting.early.handedOn⟩,
    counting.sums, ?_, ?_, ?_⟩
  · exact (congrArg (· - 1) counting.left).trans (countP_set_done here rfl rfl).symm
  · have := counting.busy
    simp only [counter, countOff]
    omega
  · have stored := counting.each part _ here
    exact forall_set part (fun other task found _ => counting.each other task found) stored

include based counting in
/-- The task that is counted off last finds the counts of all pieces stored, and all other
tasks ended. -/
theorem Counting.endCount_last {part : Nat}
    (here : protocol.counters[part]? = some .stored) (last : protocol.step.left = 1) :
    Summing key elements origin (protocol.countOff.counter part .summing) := by
  have others (other : Nat) (task : CountTask radix) (found : protocol.counters[other]? = some task)
      (different : other ≠ part) : task = .ended := by
    have idle := idle_of_last here rfl .ended rfl (counting.left ▸ last) found different
    have right := counting.each other task found
    cases task with
    | counting position counts => cases idle
    | stored => cases idle
    | summing => exact right.elim
    | resetting => exact right.elim
    | releasing next => exact right.elim
    | ended => rfl
  refine ⟨⟨counting.early.unreleased, counting.early.written, counting.early.handedOn⟩,
    counting.sums, congrArg (· - 1) last, ⟨part, ?_⟩, ?_⟩
  · have alone : Alone protocol.counters .ended part .stored := ⟨here, others⟩
    exact alone.set .summing
  · intro other valid
    have found := List.getElem?_eq_getElem (based.counters.symm ▸ valid)
    have right := counting.each other _ found
    by_cases same : other = part
    · subst same
      rwa [Option.some.inj (found.symm.trans here)] at right
    · rwa [others other _ found same] at right

end Counting

/-- Sums over the counts of all pieces are the ends of their shares. -/
theorem sumUp_exact (cut : origin.Cut) (length : elements.length = origin.window.length)
    (left : Nat) (size : table.size = origin.parts)
    (counted : ∀ part < origin.parts, table[part]? =
      some (histogram key (between elements (origin.begins part) (origin.stops part)))) :
    ∃ ends : CountTable radix, ({ origin with left, table } : RadixStep radix).sumUp =
        .ok { origin with left, table := ends } ∧
      ends.size = origin.parts ∧
      ∀ (part : Nat) (row : Vector Nat radix), ends[part]? = some row → ∀ bucket : Fin radix,
        row.get bucket = shareStart key elements origin (part + 1) bucket := by
  have count := RadixStep.length_pieces origin elements
  have holds : CountTable.Holds table (origin.pieces elements).length
      (Shares.size List.reverse key (origin.pieces elements)) := by
    apply Shares.holds_histograms _ _ fun _ => List.length_reverse
    · rw [size, count]
    · intro part piece found
      have valid : part < origin.parts := by
        have := (List.getElem?_eq_some_iff.mp found).1
        rwa [count] at this
      cases (RadixStep.getElem?_pieces valid elements).symm.trans found
      exact counted part valid
  obtain ⟨ends, sum⟩ := CountTable.accumulate_exact holds (Blocks.offset_zero _) Shares.totals
  have whole : table.accumulate.2 = origin.window.length := by
    rw [sum, Shares.offset_end, ← length, ← length_target key cut length]
    rfl
  have summed := CountTable.checkedAccumulate_eq (whole.symm ▸ cut.fits)
  refine ⟨table.accumulate.1, bind_eq_ok.mpr ⟨_, summed, if_pos whole⟩, ?_, ?_⟩
  · rw [ends.size, count]
  · intro part row found bucket
    have valid : part < origin.parts := by
      have := (Array.getElem?_eq_some_iff.mp found).1
      rwa [ends.size, count] at this
    have placed := Shares.cell_eq ends found bucket
    rw [placed, count, ← offset_eq_shareStart valid]
    rfl

/-- The sums can be formed, and then the rows hold the ends of the shares. -/
theorem Summing.formSums (summing : Summing key elements origin protocol)
    (based : Based elements origin protocol) (cut : origin.Cut) {part : Nat}
    (here : protocol.counters[part]? = some .summing) :
    ∃ step, protocol.step.sumUp = .ok step ∧
      Based elements origin
        { protocol.counter part .resetting with step, sums := protocol.sums + 1 } ∧
      Summed key elements origin
        { protocol.counter part .resetting with step, sums := protocol.sums + 1 } := by
  obtain ⟨ends, formed, size, placed⟩ :=
    sumUp_exact cut based.length protocol.step.left based.size summing.rows
  obtain ⟨last, alone⟩ := summing.alone
  obtain ⟨rfl, -⟩ := alone.eq here (by simp)
  refine ⟨_, (congrArg RadixStep.sumUp based.shape).trans formed,
    (based.counter part .resetting).restep rfl size, ?_⟩
  exact ⟨⟨summing.early.unreleased, summing.early.written, summing.early.handedOn⟩,
    congrArg (· + 1) summing.sums, summing.left, ⟨part, alone.set _⟩, placed⟩

/-- Once the number of tasks has been set, the second phase begins. -/
theorem Summed.reset (summed : Summed key elements origin protocol)
    (based : Based elements origin protocol) (cut : origin.Cut) {part : Nat}
    (here : protocol.counters[part]? = some .resetting) :
    Scattering key elements origin { protocol.counter part (.releasing 0) with
      step := { protocol.step with left := protocol.step.parts } } := by
  obtain ⟨last, alone⟩ := summed.alone
  obtain ⟨rfl, -⟩ := alone.eq here (by simp)
  have unreleased {other : Nat} {task : ScatterTask radix}
      (found : protocol.scatterers[other]? = some task) : task = .unreleased :=
    summed.early.unreleased task (List.mem_of_getElem? found)
  have unplaced : ¬FirstPlaced protocol.scatterers := by
    rintro ⟨task, found, done⟩
    cases unreleased found
    cases done
  have all : protocol.scatterers.countP ScatterTask.outstanding = origin.parts := by
    rw [← based.scatterers, List.countP_eq_length]
    intro task member
    rw [summed.early.unreleased task member]
    rfl
  refine ⟨summed.sums, summed.early.handedOn, based.parts.trans all.symm, ?_, ⟨0, ?_⟩, ?_, ?_, ?_,
    ?_, ?_, ?_⟩
  · exact based.parts.symm ▸ cut.parts_pos
  · refine ⟨Nat.zero_le _, fun other task found => ?_, .inr ⟨part, alone.set _⟩⟩
    exact iff_of_true (unreleased found) (Nat.zero_le _)
  · intro other task found
    cases unreleased found
    trivial
  · exact fun other row found _ => summed.rows other row found
  · exact fun row _ placed => absurd placed unplaced
  · intro slot
    refine iff_of_false (by simp [counter, summed.early.written]) ?_
    rintro ⟨other, task, found, bucket, low, high⟩
    cases unreleased found
    exact absurd low (Nat.not_le.mpr high)
  · simp [counter, summed.early.written]
  · simp [counter, summed.early.written]

end RadixSort.StepProtocol
