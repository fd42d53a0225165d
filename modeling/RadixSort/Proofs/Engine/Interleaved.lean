import RadixSort.Proofs.Engine.Actions

/-!
# A partition by several tasks is exact in every interleaving

Whichever task acts next, and whatever the tasks of other ranges write in between, the
partition goes through its phases once. The sums are formed by the task that is counted off
last, when the counts of all pieces are stored and no other task is at work. The number of
tasks is set again before the first task of the second phase is released. Every slot of the
shadow side is written once, and each bucket is handed on once, with what does not depend on
the order of the actions.
-/
namespace RadixSort.StepProtocol

variable {α : Type} {radix : Nat} {key : α → Fin radix} {elements : List α}
  {origin : RadixStep radix} {protocol : StepProtocol α radix}

section Opening

variable {memory : Memory α} {step : RadixStep radix} {first : StepProtocol α radix}
  {window : Window} {depth threshold : Nat}

/-- The bounds of all pieces can be named together where each can be named. -/
theorem chunks_eq_ok_iff {parts : List Nat} {chunks : List (Nat × Nat)} :
    parts.mapM step.chunk = .ok chunks ↔
      (∀ part ∈ parts, step.chunk part = .ok (step.begins part, step.stops part)) ∧
        chunks = parts.map fun part => (step.begins part, step.stops part) := by
  induction parts generalizing chunks with
  | nil => simp [pure, Except.pure, eq_comm]
  | cons part rest ih =>
    rw [List.mapM_cons, bind_eq_ok]
    constructor
    · rintro ⟨bounds, here, named⟩
      obtain ⟨others, tail, named⟩ := bind_eq_ok.mp named
      obtain ⟨each, rfl⟩ := ih.mp tail
      cases named
      obtain rfl := RadixStep.chunk_eq here
      exact ⟨List.forall_mem_cons.mpr ⟨here, each⟩, rfl⟩
    · rintro ⟨each, rfl⟩
      obtain ⟨here, tail⟩ := List.forall_mem_cons.mp each
      exact ⟨_, here, bind_eq_ok.mpr ⟨_, ih.mpr ⟨tail, rfl⟩, rfl⟩⟩

/-- The pieces of a partition that has been opened can be named. -/
theorem cut_of_opened (started : step.Started window depth threshold)
    (opened : opened memory step = .ok first) : step.Cut := by
  obtain ⟨chunks, named, -⟩ := bind_eq_ok.mp opened
  exact ⟨started.parts_pos, started.covers, fun part valid =>
    (chunks_eq_ok_iff.mp named).1 part (List.mem_range.mpr valid)⟩

/-- A partition whose pieces can be named can be opened. -/
theorem opened_of_cut (memory : Memory α) (cut : step.Cut) :
    ∃ first, opened memory step = .ok first :=
  ⟨_, bind_eq_ok.mpr ⟨_, chunks_eq_ok_iff.mpr
    ⟨fun part valid => cut.chunk part (List.mem_range.mp valid), rfl⟩, rfl⟩⟩

/-- A partition that has been opened has counted nothing. -/
theorem sound_of_opened (key : α → Fin radix) (spans : memory.Spans step.window)
    (started : step.Started window depth threshold) (opened : opened memory step = .ok first) :
    Sound key (memory.held step.window) step first := by
  obtain ⟨chunks, named, opened⟩ := bind_eq_ok.mp opened
  obtain ⟨-, rfl⟩ := chunks_eq_ok_iff.mp named
  cases opened
  rw [List.map_map, List.map_map]
  constructor
  · refine ⟨rfl, spans, spans.length_held, fun slot inside _ => ?_, by simp, by simp, started.rows⟩
    rw [Memory.held_eq_slice, getElem?_slice, if_pos inside]
  · refine .counting ⟨⟨by simp, rfl, rfl⟩, rfl, ?_, ?_, ?_⟩
    · refine started.waiting.trans (Eq.trans ?_ (List.countP_eq_length.mpr ?_).symm)
      · simp
      · intro task member
        obtain ⟨part, -, rfl⟩ := List.mem_map.mp member
        rfl
    · exact started.waiting.symm ▸ started.parts_pos
    · intro part task found
      obtain ⟨inside, rfl⟩ := List.getElem?_eq_some_iff.mp found
      simp only [List.getElem_map, List.getElem_range, Function.comp_apply, Counts]
      refine ⟨Nat.le_refl _, RadixStep.begins_le_stops step _, ?_⟩
      rw [between_self]
      rfl

end Opening

/-- Whatever order the actions are made in, the partition stays sound. -/
theorem run_sound (cut : origin.Cut) {first last : StepProtocol α radix}
    (sound : Sound key elements origin first) (run : Run key first last) :
    Sound key elements origin last := by
  induction run with
  | done => exact sound
  | step _ action ih =>
    rcases acts_or_intrudes cut ih action with acts | intrudes
    · exact acts.sound
    · exact ih.intrudes cut intrudes

/-- Every partition that has been begun can be finished. -/
theorem exists_finished (cut : origin.Cut) {first : StepProtocol α radix}
    (run : Run key first protocol) (sound : Sound key elements origin protocol) :
    ∃ last, Run key first last ∧ Finished last := by
  induction remaining : toDo origin protocol using Nat.strongRecOn generalizing protocol with
  | ind remaining ih =>
    by_cases finished : Finished protocol
    · exact ⟨protocol, run, finished⟩
    · obtain ⟨next, action, acts⟩ := exists_action cut sound finished
      exact ih _ (remaining ▸ acts.shorter) (run.step action) acts.sound rfl

/-- A partition of a range that holds these elements, after any number of actions. -/
structure Exact (key : α → Fin radix) (elements : List α) (origin : RadixStep radix)
    (protocol : StepProtocol α radix) : Prop where
  window : protocol.step.window = origin.window
  unchanged : protocol.handedOn = [] → protocol.memory.held origin.window = elements
  /-- The range is as it was, but for buckets that belong to other tasks now. -/
  kept : ∀ slot < origin.window.length, ¬Given protocol.handedOn slot →
    (protocol.memory.side origin.window.activeSide)[origin.window.offset + slot]? =
      elements[slot]?
  sums : protocol.sums ≤ 1
  early : protocol.sums = 0 → protocol.written = [] ∧ protocol.handedOn = [] ∧
    ∀ task ∈ protocol.scatterers, task = .unreleased
  /-- Once the sums are formed, no task counts any more. -/
  counted : protocol.sums = 1 → ∀ task ∈ protocol.counters,
    task = .resetting ∨ task = .ended ∨ ∃ next, task = .releasing next
  /-- Once a task of the second phase is released, the number of tasks is theirs. -/
  reset : ∀ task ∈ protocol.scatterers, task ≠ .unreleased →
    protocol.step.left = protocol.scatterers.countP ScatterTask.outstanding
  once : protocol.written.Nodup
  inside : ∀ slot ∈ protocol.written, slot < origin.window.length
  /-- No task but the first one replaces its row, and none reads the row of another. -/
  rows : protocol.sums = 1 → ∀ part ≠ 0, ∀ row : Vector Nat radix,
    protocol.step.table[part]? = some row → ∀ bucket : Fin radix, row.get bucket =
      elements.countP (fun x => (key x).val < bucket.val) +
        ((origin.pieces elements).take (part + 1)).flatten.countP (key · = bucket)
  /-- Where a cursor stands follows from how far its task has got in its piece. -/
  cursors : ∀ (part position : Nat) (cursors : Vector Nat radix),
    protocol.scatterers[part]? = some (.scattering position cursors) → ∀ bucket : Fin radix,
      cursors.get bucket = elements.countP (fun x => (key x).val < bucket.val) +
        ((origin.pieces elements).take part).flatten.countP (key · = bucket) +
        (between elements position (origin.stops part)).countP (key · = bucket)
  starts : FirstPlaced protocol.scatterers → ∀ row : Vector Nat radix,
    protocol.step.table[0]? = some row → ∀ bucket : Fin radix,
      row.get bucket = elements.countP fun x => (key x).val < bucket.val
  /-- Buckets are handed on by the last task, when every slot has been written. -/
  last : protocol.handedOn ≠ [] → protocol.written.Perm (List.range origin.window.length) ∧
    ∃ part task, Alone protocol.scatterers .ended part task ∧ task.finished = true
  /-- Each bucket is handed on once, with what the pieces hold of it. -/
  inOrder : protocol.handedOn <+: shares key elements origin

/-- A partition that is finished. -/
structure Complete (key : α → Fin radix) (elements : List α) (origin : RadixStep radix)
    (protocol : StepProtocol α radix) : Prop where
  sums : protocol.sums = 1
  handedOn : protocol.handedOn = shares key elements origin
  written : protocol.written.Perm (List.range origin.window.length)
  starts : ∃ row : Vector Nat radix, protocol.step.table[0]? = some row ∧
    ∀ bucket : Fin radix, row.get bucket = elements.countP fun x => (key x).val < bucket.val

section Ends

variable (cut : origin.Cut) (based : Based elements origin protocol)

section Place

include cut based

/-- The share of a part in a bucket lies behind the smaller buckets, and behind the shares of
the parts before it. -/
theorem Based.shareStart_eq (part : Nat) (bucket : Fin radix) :
    shareStart key elements origin part bucket =
      elements.countP (fun x => (key x).val < bucket.val) +
        ((origin.pieces elements).take part).flatten.countP (key · = bucket) := by
  rw [shareStart, Shares.start, cut.flatten_pieces based.length]

/-- The first share of a bucket starts where the bucket does. -/
theorem Based.shareStart_zero (bucket : Fin radix) :
    shareStart key elements origin 0 bucket =
      elements.countP fun x => (key x).val < bucket.val := by
  rw [based.shareStart_eq cut, List.take_zero, List.flatten_nil, List.countP_nil, Nat.add_zero]

end Place

include based in
/-- What holds of a partition before its second phase, in the terms of the range. -/
theorem Early.exact (early : Early protocol) (sums : protocol.sums ≤ 1)
    (counted : protocol.sums = 1 → ∀ task ∈ protocol.counters,
      task = .resetting ∨ task = .ended ∨ ∃ next, task = .releasing next)
    (rows : protocol.sums = 1 → ∀ part ≠ 0, ∀ row : Vector Nat radix,
      protocol.step.table[part]? = some row → ∀ bucket : Fin radix, row.get bucket =
        elements.countP (fun x => (key x).val < bucket.val) +
          ((origin.pieces elements).take (part + 1)).flatten.countP (key · = bucket)) :
    Exact key elements origin protocol where
  window := based.window
  unchanged := based.held
  kept := based.kept
  sums := sums
  early _ := ⟨early.written, early.handedOn, early.unreleased⟩
  counted := counted
  reset task member released := absurd (early.unreleased task member) released
  once := by simp [early.written]
  inside := by simp [early.written]
  rows := rows
  cursors part position cursors here :=
    nomatch early.unreleased _ (List.mem_of_getElem? here)
  starts := by
    rintro ⟨task, here, placed⟩
    rw [early.unreleased task (List.mem_of_getElem? here)] at placed
    cases placed
  last handed := absurd early.handedOn handed
  inOrder := early.handedOn ▸ List.nil_prefix

include cut based in
/-- What holds of a partition in its second phase, in the terms of the range. -/
theorem Scattering.exact (scattering : Scattering key elements origin protocol) :
    Exact key elements origin protocol where
  window := based.window
  unchanged := based.held
  kept := based.kept
  sums := Nat.le_of_eq scattering.sums
  early formed := absurd (formed.symm.trans scattering.sums) Nat.zero_ne_one
  counted _ task member := by
    obtain ⟨reached, releases⟩ := scattering.releases
    rcases releases.last with ⟨-, ended⟩ | ⟨part, alone⟩
    · exact .inr (.inl (ended task member))
    · obtain ⟨other, here⟩ := List.getElem?_of_mem member
      by_cases busy : task = .ended
      · exact .inr (.inl busy)
      · exact .inr (.inr ⟨reached, (alone.eq here busy).2⟩)
  reset _ _ _ := scattering.left
  once := scattering.once
  inside slot member := scattering.inside based cut member
  rows _ part later row found bucket := by
    rw [scattering.rows part row found (.inl later), based.shareStart_eq cut]
  cursors part position cursors here bucket := by
    rw [(scattering.each part _ here).2.2 bucket, based.shareStart_eq cut]
  starts placed row found bucket := by
    rw [scattering.first row found placed, based.shareStart_zero cut]
  last handed := absurd scattering.handedOn handed
  inOrder := scattering.handedOn ▸ List.nil_prefix

/-- What is handed on so far is the beginning of what is to be handed on. -/
theorem Hands.begins {handedOn : List (Handed α)} {task : ScatterTask radix}
    (hands : Hands key elements origin handedOn task) :
    handedOn <+: shares key elements origin := by
  cases task with
  | closing => exact (show handedOn = [] from hands) ▸ List.nil_prefix
  | handing buckets =>
    obtain ⟨done, rest, split, rfl, -⟩ := hands
    rw [shares, ← split, List.map_append]
    exact List.prefix_append _ _
  | ended => exact (show handedOn = _ from hands) ▸ List.prefix_refl _
  | unreleased => exact hands.elim
  | released => exact hands.elim
  | scattering position cursors => exact hands.elim
  | placed => exact hands.elim

include cut based in
/-- What holds of a partition whose buckets are handed on, in the terms of the range. -/
theorem Closing.exact (closing : Closing key elements origin protocol) :
    Exact key elements origin protocol := by
  obtain ⟨part, task, alone, hands⟩ := closing.alone
  have finished : task.finished = true ∧ task.outstanding = false := by
    cases task with
    | closing => exact ⟨rfl, rfl⟩
    | handing buckets => exact ⟨rfl, rfl⟩
    | ended => exact ⟨rfl, rfl⟩
    | unreleased => exact hands.elim
    | released => exact hands.elim
    | scattering position cursors => exact hands.elim
    | placed => exact hands.elim
  have none : protocol.scatterers.countP ScatterTask.outstanding = 0 := by
    refine List.countP_eq_zero.mpr fun other member => ?_
    obtain ⟨place, here⟩ := List.getElem?_of_mem member
    by_cases busy : other = .ended
    · simp [busy, ScatterTask.outstanding]
    · rw [(alone.eq here busy).2, finished.2]
      simp
  refine ⟨based.window, based.held, based.kept, Nat.le_of_eq closing.sums, ?_, ?_, ?_, ?_, ?_, ?_,
    ?_, ?_, ?_, hands.begins⟩
  · intro formed
    exact absurd (formed.symm.trans closing.sums) Nat.zero_ne_one
  · intro _ other member
    rcases closing.releases with ended | ⟨last, released⟩
    · exact .inr (.inl (ended other member))
    · obtain ⟨place, here⟩ := List.getElem?_of_mem member
      by_cases busy : other = .ended
      · exact .inr (.inl busy)
      · exact .inr (.inr ⟨_, (released.eq here busy).2⟩)
  · exact fun _ _ _ => closing.left.trans none.symm
  · exact closing.written.nodup_iff.mpr List.nodup_range
  · exact fun slot member => List.mem_range.mp (closing.written.mem_iff.mp member)
  · intro _ other later row found bucket
    rw [closing.rows other row found later, based.shareStart_eq cut]
  · intro other position cursors here
    have still := (alone.eq here (by simp)).2
    rw [← still] at hands
    exact hands.elim
  · intro _ row found bucket
    rw [closing.first row found, based.shareStart_zero cut]
  · exact fun _ => ⟨closing.written, part, task, alone, finished.1⟩

end Ends

/-- What holds of a sound partition, in the terms of the range. -/
theorem Sound.exact (cut : origin.Cut) (sound : Sound key elements origin protocol) :
    Exact key elements origin protocol := by
  have unformed (none : protocol.sums = 0) (formed : protocol.sums = 1) : False :=
    absurd (none.symm.trans formed) Nat.zero_ne_one
  cases sound.phase with
  | counting now =>
    exact now.early.exact sound.based (now.sums ▸ Nat.zero_le 1)
      (fun formed => (unformed now.sums formed).elim)
      (fun formed => (unformed now.sums formed).elim)
  | summing now =>
    exact now.early.exact sound.based (now.sums ▸ Nat.zero_le 1)
      (fun formed => (unformed now.sums formed).elim)
      (fun formed => (unformed now.sums formed).elim)
  | summed now =>
    refine now.early.exact sound.based (Nat.le_of_eq now.sums) (fun _ task member => ?_)
      fun _ part _ row found bucket => ?_
    · obtain ⟨part, alone⟩ := now.alone
      obtain ⟨other, here⟩ := List.getElem?_of_mem member
      by_cases busy : task = .ended
      · exact .inr (.inl busy)
      · exact .inl (alone.eq here busy).2
    · rw [now.rows part row found, sound.based.shareStart_eq cut]
  | scattering now => exact now.exact cut sound.based
  | closing now => exact now.exact cut sound.based

/-- What a sound partition has done when no task has anything left to do. -/
theorem Sound.complete (cut : origin.Cut) (sound : Sound key elements origin protocol)
    (finished : Finished protocol) : Complete key elements origin protocol := by
  have occupied : 0 < protocol.scatterers.length := sound.based.scatterers.symm ▸ cut.parts_pos
  have here := List.getElem?_eq_getElem occupied
  rw [finished.2 _ (List.getElem_mem occupied)] at here
  have early (early : Early protocol) : Complete key elements origin protocol :=
    nomatch early.unreleased _ (List.mem_of_getElem? here)
  cases sound.phase with
  | counting now => exact early now.early
  | summing now => exact early now.early
  | summed now => exact early now.early
  | scattering now =>
    obtain ⟨task, member, busy⟩ := List.countP_pos_iff.mp (now.left ▸ now.busy)
    rw [finished.2 task member] at busy
    cases busy
  | closing now =>
    obtain ⟨part, task, alone, hands⟩ := now.alone
    rw [finished.2 task (List.mem_of_getElem? alone.1)] at hands
    have row := Array.getElem?_eq_getElem (sound.based.size.symm ▸ cut.parts_pos)
    refine ⟨now.sums, hands, now.written, _, row, fun bucket => ?_⟩
    rw [now.first _ row, sound.based.shareStart_zero cut]

/-- A range is partitioned exactly, in every interleaving of the actions of its tasks with
each other and with those of tasks of other ranges.

The threshold decides how many pieces there are. Where the number of elements times the
number of buckets fits a word, the partition can be opened. However far it has got since
then, it is `Exact`: the range itself is unchanged, the sums are formed once at most, no
slot has been written twice, and buckets are handed on once, in order and by the last task,
with what the pieces hold of them, piece by piece, each share reversed. Whatever happens
next, either a task of the range acts, and writes to one slot of the shadow side at most
unless it hands a bucket on, or cells are touched that are not the partition's. Some task
can act until all have finished, and then the partition is `Complete`: every slot has been
written, and every bucket has been handed on. -/
theorem run_partitions (key : α → Fin radix) (memory : Memory α) (window : Window)
    (depth threshold : Nat) (spans : memory.Spans window) :
    (2 ≤ radix → max window.length 1 * radix < Word.bound →
      ∃ (step : RadixStep radix) (first : StepProtocol α radix),
        RadixStep.start window depth threshold = .ok step ∧ opened memory step = .ok first) ∧
    ∀ (step : RadixStep radix) (first protocol : StepProtocol α radix),
      RadixStep.start window depth threshold = .ok step → opened memory step = .ok first →
      Run key first protocol →
        step.parts = max (Word.ceilDiv window.length threshold) 1 ∧
        (step.pieces (memory.held window)).flatten = memory.held window ∧
        (∀ part < step.parts, step.chunk part = .ok (step.begins part, step.stops part)) ∧
        Exact key (memory.held window) step protocol ∧
        (∀ next, Step key protocol next →
          Acts key (memory.held window) step protocol next ∨ Intrudes protocol next) ∧
        (¬Finished protocol → ∃ next, Step key protocol next ∧
          Acts key (memory.held window) step protocol next) ∧
        (∃ last, Run key protocol last ∧ Finished last) ∧
        (Finished protocol → Complete key (memory.held window) step protocol) := by
  constructor
  · intro wide fits
    obtain ⟨step, started⟩ := RadixStep.start_of_fits window depth threshold fits
    have cut := (RadixStep.started_of_start started).cut wide fits
    obtain ⟨first, opened⟩ := opened_of_cut memory cut
    exact ⟨step, first, started, opened⟩
  · intro step first protocol started opened run
    have begun := RadixStep.started_of_start started
    obtain rfl := begun.range
    have cut := cut_of_opened begun opened
    have sound := run_sound cut (sound_of_opened key spans begun opened) run
    exact ⟨begun.number, cut.flatten_pieces spans.length_held, cut.chunk, sound.exact cut,
      fun _ => acts_or_intrudes cut sound, exists_action cut sound,
      exists_finished cut (.done protocol) sound, sound.complete cut⟩

/-- Four elements, cut into two pieces and partitioned into four buckets. -/
theorem run_partitions_four :
    let memory : Memory (Fin 4) := ⟨#[2, 0, 3, 0], #[1, 1, 1, 1]⟩
    ∃ (step : RadixStep 4) (first last : StepProtocol (Fin 4) 4),
      RadixStep.start (Window.whole 4) 0 2 = .ok step ∧ step.parts = 2 ∧
        opened memory step = .ok first ∧ Run id first last ∧
        Complete id [2, 0, 3, 0] step last := by
  intro memory
  have spans : memory.Spans (Window.whole 4) := fun side => by cases side <;> decide
  obtain ⟨opens, exact⟩ := run_partitions id memory (Window.whole 4) 0 2 spans
  obtain ⟨step, first, started, opened⟩ := opens (by decide) (by decide)
  obtain ⟨parts, -, -, -, -, -, ⟨last, run, finished⟩, -⟩ :=
    exact step first first started opened (.done first)
  obtain ⟨-, -, -, -, -, -, -, complete⟩ := exact step first last started opened run
  exact ⟨step, first, last, started, parts, opened, run, complete finished⟩

end RadixSort.StepProtocol
