import RadixSort.Proofs.Engine.Untouched

/-!
# A job and what it gives away make up its range

Whatever it is answered when it asks for idle workers, a job comes to an end. The ranges
that it has finished and those that it has given away have no slot in common and together
are its range. What it gives away is a bucket of one of its frames, one digit deeper than
the frame, and holds its elements by then.
-/
namespace RadixSort.SmallJob

variable {α : Type} {radix : Nat} {rules : Rules α radix} {idle : Nat → Bool} {job : Job}
  {work : Work α} {state : State α} {excused : Fault → Prop} {total : Nat}

/-- What a job has finished since it found the work, and some ranges, make up the range of the
job, slot by slot. What it has finished are buckets of one element and ranges that go to the
fallback. -/
def Tiles (rules : Rules α radix) (job : Job) (found after : Work α) (ranges : List Job) : Prop :=
  ∃ settled, after.finished = settled ++ found.finished ∧
    (slotsOf (settled ++ ranges.map Job.window)).Perm job.window.slots ∧
    ∀ window ∈ settled, Due rules job (found.memory.held job.window) window

/-- A range that a job has given away: its elements are in the primary array, more than one
of them, and all those of the job's range that belong there. -/
structure Handed (rules : Rules α radix) (job : Job) (elements : List α) (memory : Memory α)
    (given : Job) : Prop where
  donated : Donated rules job.depth given
  holds : Holds rules.digits.digit job elements memory given

/-- A job between two steps. -/
structure AtHead (rules : Rules α radix) (job : Job) (work : Work α) (state : State α) :
    Prop where
  few : state.dissolved ≤ state.stack.length
  /-- While a bucket is left to take, a frame is left to dissolve. -/
  own : ∀ top below, state.stack = top :: below → top.remaining ≠ [] →
    state.dissolved < state.stack.length
  /-- The frames at the far end of the stack that are dissolved have no bucket left. -/
  emptied : ∀ index frame, state.stack[index]? = some frame →
    state.stack.length ≤ index + state.dissolved → frame.remaining = []
  frames : ∀ frame ∈ state.stack,
    Divides rules.digits.digit job (work.memory.held job.window) frame
  tiles : Tiles rules job work state.work (openRanges state)
  handed : ∀ given ∈ state.donated,
    Handed rules job (work.memory.held job.window) state.work.memory given

/-- The job goes on to the same end, whatever is put into the ranges it has given away, and
leaves these ranges as they are. -/
def Untouched (rules : Rules α radix) (idle : Nat → Bool) (state : State α) : Prop :=
  ∀ other : Memory α, (∀ side, (state.work.memory.side side).size = (other.side side).size) →
    (∀ side, ∀ cell ∉ slotsOf (state.donated.map Job.window),
      (state.work.memory.side side)[cell]? = (other.side side)[cell]?) →
    ∃ last memory, resume rules idle state = .ok last ∧
      resume rules idle { state with work := { state.work with memory := other } } =
        .ok { last with work := { last.work with memory } } ∧
      Memory.Tied (slotsOf (state.donated.map Job.window)) state.work.memory other
        last.work.memory memory

/-- The windows of a job's ledger make up its range. -/
theorem tiles_of_underway {after : Work α} {ranges : List Job} {donations : Nat}
    {settled : List Window} {counts : Recursion.Counts}
    (underway : Underway rules total (assigned rules job work) after
      (ranges.map (Job.obligation rules)) donations settled counts)
    (due : ∃ settled, after.finished = settled ++ work.finished ∧
      ∀ window ∈ settled, Due rules job (work.memory.held job.window) window) :
    Tiles rules job work after ranges := by
  obtain ⟨own, finished, each⟩ := due
  obtain rfl : own = settled := List.append_cancel_right (finished.symm.trans underway.finished)
  have tiles := underway.ledger.tiles
  rw [List.map_map, slotsOf_append] at tiles
  refine ⟨own, finished, ?_, each⟩
  rw [slotsOf_append]
  exact List.perm_append_comm.trans tiles

/-- A job from any state it reaches comes to the end that it comes to from the start. -/
theorem Reached.run_eq (reached : Reached rules idle job work state) :
    run rules idle job work = resume rules idle state >>= fun last =>
      .ok (last.work, last.donated) := by
  induction reached with
  | entered goesOn ran =>
    refine (if_neg goesOn).trans ?_
    rw [ran]
    rfl
  | stepped _ ran ih =>
    rw [ih, resume_eq, ran]
    rfl

section Reached

variable (excuses : JobExcuses rules total excused) (spans : work.memory.Spans job.window)
  (within : job.window.length ≤ total)

include excuses spans within

/-- Between two steps the open ranges and the finished ones make up the range of the job. -/
theorem Reached.atHead (reached : Reached rules idle job work state) :
    AtHead rules job work state := by
  have sound := reached.sound excuses spans within
  have contents := reached.contents excuses spans within
  refine ⟨sound.few, ?_, sound.emptied, contents.frames, ?_, ?_⟩
  · intro top below stacked left
    obtain ⟨bucket, remaining, unsorted⟩ := List.exists_cons_of_ne_nil left
    exact (sound.take stacked unsorted).2
  · obtain ⟨settled, counts, underway⟩ := sound.underway
    rw [List.nil_append, obligations_eq] at underway
    exact tiles_of_underway underway contents.settled
  · intro given listed
    exact ⟨sound.donated given listed, contents.ranges given (mem_openRanges.mpr (.inr listed))⟩

/-- What a job has given away by any state it reaches, it does not touch again. -/
theorem Reached.untouched (strict : ∀ fault, ¬excused fault)
    (reached : Reached rules idle job work state) : Untouched rules idle state := by
  intro other size agree
  have sound := reached.sound excuses spans within
  have contents := reached.contents excuses spans within
  obtain ⟨last, ran, -⟩ := (resume_ensures excuses idle sound).exists_ok strict
  have tied : State.Tied (slotsOf (state.donated.map Job.window)) state.work.memory other state
      { state with work := { state.work with memory := other } } :=
    ⟨_, rfl, other, rfl, size, agree, fun _ _ _ => rfl, fun _ _ _ => rfl⟩
  have given : ∀ cell ∈ slotsOf (state.donated.map Job.window),
      ∃ given ∈ state.donated, cell ∈ given.window.slots := by
    simp [slotsOf]
  have alike := resume_alike excuses idle sound contents given tied
  obtain ⟨_, repeated, _, rfl, memory, rfl, tied⟩ := alike.exists_ok ran
  exact ⟨last, memory, ran, repeated, tied⟩

/-- The end of a job that has entered its range. -/
theorem Reached.ends (strict : ∀ fault, ¬excused fault)
    (reached : Reached rules idle job work state) :
    ∃ last, resume rules idle state = .ok last ∧ Tiles rules job work last.work last.donated ∧
      ∀ given ∈ last.donated,
        Handed rules job (work.memory.held job.window) last.work.memory given := by
  have sound := reached.sound excuses spans within
  have contents := reached.contents excuses spans within
  obtain ⟨last, ran, ⟨settled, counts, underway⟩, donated⟩ :=
    (resume_ensures excuses idle sound).exists_ok strict
  have kept := (resume_contents excuses idle sound contents).of_ok ran
  exact ⟨last, ran, tiles_of_underway underway kept.settled, fun given listed =>
    ⟨donated given listed, kept.ranges given (mem_openRanges.mpr (.inr listed))⟩⟩

end Reached

/-- A job comes to an end, whatever it is answered when it asks for idle workers, and
together with what it gives away it handles every slot of its range once.

In every state it reaches there is a frame left to dissolve whenever it may ask, the frames
it has dissolved have no bucket left, and no slot is lost or counted twice. A step cannot
fail. It gives away at most what is left of one frame, each bucket as a range of its own
one digit deeper. The job never reads or writes a range again that it has given away. -/
theorem run_tiles (rules : Rules α radix) (idle : Nat → Bool) (job : Job) (work : Work α)
    (spans : work.memory.Spans job.window) (fits : job.window.length < Word.bound)
    (readable : ∀ x depth, rules.digits.refusal? x depth = none)
    (finishes : ∀ elements, ∃ sorted, rules.fallback elements = .ok sorted ∧
      sorted.length = elements.length) :
    (∃ last given, run rules idle job work = .ok (last, given) ∧
      Tiles rules job work last given ∧
      ∀ range ∈ given, Handed rules job (work.memory.held job.window) last.memory range) ∧
    ∀ state, Reached rules idle job work state →
      AtHead rules job work state ∧
      (∃ progress, step rules idle state = .ok progress ∧
        Gives rules.digits.digit job (work.memory.held job.window) state progress.after ∧
        ∀ last, progress = .finished last → ∀ frame ∈ last.stack, frame.remaining = []) ∧
      (run rules idle job work = resume rules idle state >>= fun last =>
        .ok (last.work, last.donated)) ∧
      Untouched rules idle state := by
  have excuses := JobExcuses.of_faultless fits readable finishes
  have within := Nat.le_refl job.window.length
  have strict (fault : Fault) : ¬False := id
  constructor
  · by_cases ends : rules.Ends job.window.settled.length job.depth
    · obtain ⟨finished, ran, sorted, -, rfl⟩ := (Work.finish_ensures excuses
        { work with memory := work.memory.copyBack job.window } job.window.settled).exists_ok strict
      refine ⟨_, [], (if_pos ends).trans (bind_eq_ok.mpr ⟨_, ran, rfl⟩),
        ⟨[job.window.settled], rfl, by simp [slotsOf], ?_⟩, by simp⟩
      intro window member
      cases List.mem_singleton.mp member
      exact ⟨job.depth, _, .whole, .inr ends⟩
    · obtain ⟨entered, ran, -⟩ := (entered_ensures excuses spans within ends).exists_ok strict
      have reached : Reached rules idle job work entered := .entered ends ran
      obtain ⟨last, finished, tiles, handed⟩ := reached.ends excuses spans within strict
      refine ⟨last.work, last.donated, ?_, tiles, handed⟩
      rw [reached.run_eq, finished]
      rfl
  · intro state reached
    have sound := reached.sound excuses spans within
    have contents := reached.contents excuses spans within
    obtain ⟨progress, ran, -⟩ := (step_ensures excuses idle sound).exists_ok strict
    refine ⟨reached.atHead excuses spans within, ⟨progress, ran, ?_, ?_⟩, reached.run_eq,
      reached.untouched excuses spans within strict⟩
    · exact ((step_contents idle sound contents).of_ok ran).2
    · rintro last rfl
      exact sound.emptied_of_finished ran

/-- Four numbers of two binary digits, where a worker is idle at every question: the job
keeps the numbers whose first digit is zero and gives the others away. -/
theorem run_tiles_four :
    let rules : Rules (Fin 4) 2 := {
      settings := { threads := 2, subsortThreshold := 2 }
      digits := .ofTotal fun x depth =>
        if depth = 0 then ⟨x.val / 2, by omega⟩ else ⟨x.val % 2, Nat.mod_lt _ (by decide)⟩
      fallback := .ok
      maxDepth := 2 }
    let job : Job := ⟨.whole 4, 0⟩
    let work : Work (Fin 4) := .fresh #[2, 0, 3, 1]
    let given : Job := ⟨⟨2, 2, false⟩, 1⟩
    ∃ last, run rules (fun _ => true) job work = .ok (last, [given]) ∧
      Tiles rules job work last [given] ∧ Handed rules job [2, 0, 3, 1] last.memory given := by
  intro rules job work given
  have spans : work.memory.Spans job.window := fun side => by cases side <;> decide
  obtain ⟨⟨last, all, ran, tiles, handed⟩, -⟩ := run_tiles rules (fun _ => true) job work spans
    (by decide) (fun _ _ => rfl) fun elements => ⟨elements, rfl, rfl⟩
  have only : (run rules (fun _ => true) job work).toOption.map Prod.snd = some [given] := by
    decide +kernel
  rw [ran] at only
  obtain rfl : all = [given] := Option.some.inj only
  exact ⟨last, ran, tiles, handed given List.mem_cons_self⟩

end RadixSort.SmallJob
