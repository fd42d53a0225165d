import RadixSort.Proofs.Engine.Phases

/-!
# The second phase of a partition

One law for each action again: releasing a task, reading the shares of a piece, placing an
element, ending a piece, counting a task off, and handing the buckets on. A slot that is
about to be written is free, since a slot that has been written lies in a share that its
writer has a cursor in, and different shares have no slot in common.
-/
namespace RadixSort.StepProtocol

variable {α : Type} {radix : Nat} {key : α → Fin radix} {elements : List α}
  {origin : RadixStep radix} {protocol : StepProtocol α radix}
  {tasks : List (ScatterTask radix)} {counters : List (CountTask radix)}

section Tasks

variable {part : Nat} {old next : ScatterTask radix}

/-- The slots that a task has passed, and those that the other tasks have. -/
theorem passed_set (here : tasks[part]? = some old) (next : ScatterTask radix) (slot : Nat) :
    Passed key elements origin (tasks.set part next) slot ↔
      (∃ other task, other ≠ part ∧ tasks[other]? = some task ∧
        PassedBy key elements origin other task slot) ∨
      PassedBy key elements origin part next slot := by
  have inside := (List.getElem?_eq_some_iff.mp here).1
  constructor
  · rintro ⟨other, task, found, passed⟩
    by_cases same : other = part
    · subst same
      rw [List.getElem?_set_self inside] at found
      cases found
      exact .inr passed
    · rw [List.getElem?_set_ne (Ne.symm same)] at found
      exact .inl ⟨other, task, same, found, passed⟩
  · rintro (⟨other, task, different, found, passed⟩ | passed)
    · refine ⟨other, task, ?_, passed⟩
      rw [List.getElem?_set_ne (Ne.symm different)]
      exact found
    · exact ⟨part, next, List.getElem?_set_self inside, passed⟩

/-- A task that is not changed has passed the slots it had. -/
theorem passed_iff (here : tasks[part]? = some old) (slot : Nat) :
    Passed key elements origin tasks slot ↔
      (∃ other task, other ≠ part ∧ tasks[other]? = some task ∧
        PassedBy key elements origin other task slot) ∨
      PassedBy key elements origin part old slot := by
  have kept : tasks.set part old = tasks := by
    obtain ⟨inside, rfl⟩ := List.getElem?_eq_some_iff.mp here
    exact List.set_getElem_self inside
  have split : Passed key elements origin (tasks.set part old) slot ↔ _ :=
    passed_set here old slot
  rwa [kept] at split

/-- A task whose cursors stay where they are passes no slot. -/
theorem passed_same (here : tasks[part]? = some old)
    (same : ∀ bucket, cursor key elements origin part bucket next =
      cursor key elements origin part bucket old) (slot : Nat) :
    Passed key elements origin (tasks.set part next) slot ↔
      Passed key elements origin tasks slot := by
  rw [passed_set here, passed_iff here]
  simp only [PassedBy, same]

/-- Whether the first piece has been placed is not changed by a task that places none. -/
theorem firstPlaced_set (here : tasks[part]? = some old) (next : ScatterTask radix)
    (same : next.finished = old.finished) :
    FirstPlaced (tasks.set part next) ↔ FirstPlaced tasks := by
  have inside := (List.getElem?_eq_some_iff.mp here).1
  unfold FirstPlaced
  by_cases first : part = 0
  · subst first
    rw [List.getElem?_set_self inside, here]
    simp [same]
  · rw [List.getElem?_set_ne first]

/-- A task that goes on has been released before. -/
theorem Releases.set {parts reached : Nat} (releases : Releases parts counters tasks reached)
    (here : tasks[part]? = some old) (before : old ≠ .unreleased) (after : next ≠ .unreleased) :
    Releases parts counters (tasks.set part next) reached where
  upTo := releases.upTo
  tasks := by
    refine forall_set part (fun other task found _ => releases.tasks other task found) ?_
    exact iff_of_false after (mt (releases.tasks part old here).mpr before)
  last := releases.last

/-- A task that releases others knows how far they are released. -/
theorem Releases.eq {parts reached other : Nat} (releases : Releases parts counters tasks reached)
    (here : counters[part]? = some (.releasing other)) :
    reached = other ∧ Alone counters .ended part (.releasing other) := by
  rcases releases.last with ⟨-, ended⟩ | ⟨last, alone⟩
  · cases ended _ (List.mem_of_getElem? here)
  · obtain ⟨rfl, same⟩ := alone.eq here (by simp)
    cases same
    exact ⟨rfl, alone⟩

/-- The cursors of a task do not leave its shares. -/
theorem Scatters.start_le_cursor {part : Nat} (valid : part < origin.parts)
    {task : ScatterTask radix} (right : Scatters key elements origin part task)
    (bucket : Fin radix) :
    shareStart key elements origin part bucket ≤ cursor key elements origin part bucket task := by
  have ends := shareStart_succ key elements valid bucket
  cases task with
  | unreleased => simp only [cursor]; omega
  | released => simp only [cursor]; omega
  | scattering position cursors => simp only [cursor, right.2.2 bucket]; omega
  | placed => exact Nat.le_refl _
  | closing => exact right.elim
  | handing buckets => exact right.elim
  | ended => exact Nat.le_refl _

/-- A task that has placed an element has cursors for the elements that are left. -/
theorem Scatters.placed {part position slot : Nat} {cursors : Vector Nat radix} {x : α}
    (right : Scatters key elements origin part (.scattering position cursors))
    (more : position < origin.stops part) (read : elements[position]? = some x)
    (next : cursors.get (key x) = slot + 1) :
    Scatters key elements origin part
      (.scattering (position + 1) (assign cursors (key x) slot)) := by
  obtain ⟨low, -, cursorsAt⟩ := right
  refine ⟨by omega, more, fun bucket => ?_⟩
  have before := cursorsAt bucket
  rw [between_cons read more] at before
  by_cases own : key x = bucket
  · subst own
    rw [List.countP_cons_of_pos (by simp), next] at before
    rw [get_assign_self]
    omega
  · rw [List.countP_cons_of_neg (by simpa using own)] at before
    rw [get_assign_of_ne _ own]
    exact before

/-- A task that has placed an element has passed the slot of the element and no other. -/
theorem passedBy_placed {part position slot : Nat} {cursors : Vector Nat radix}
    {bucket : Fin radix} (next : cursors.get bucket = slot + 1)
    (high : slot < shareStart key elements origin (part + 1) bucket) (other : Nat) :
    PassedBy key elements origin part
        (.scattering (position + 1) (assign cursors bucket slot)) other ↔
      PassedBy key elements origin part (.scattering position cursors) other ∨ other = slot := by
  simp only [PassedBy, cursor]
  constructor
  · rintro ⟨second, reached, below⟩
    by_cases own : bucket = second
    · subst own
      rw [get_assign_self] at reached
      rcases Nat.eq_or_lt_of_le reached with same | behind
      · exact .inr same.symm
      · exact .inl ⟨bucket, by omega, below⟩
    · rw [get_assign_of_ne _ own] at reached
      exact .inl ⟨second, reached, below⟩
  · rintro (⟨second, reached, below⟩ | rfl)
    · refine ⟨second, ?_, below⟩
      by_cases own : bucket = second
      · subst own
        rw [get_assign_self]
        omega
      · rwa [get_assign_of_ne _ own]
    · exact ⟨bucket, by rw [get_assign_self], high⟩

end Tasks

section Scattering

variable (based : Based elements origin protocol)
  (scattering : Scattering key elements origin protocol)

include based scattering in
/-- Releasing a task goes on with the second phase. -/
theorem Scattering.release {part next : Nat}
    (here : protocol.counters[part]? = some (.releasing next)) (more : next < origin.parts) :
    protocol.scatterers[next]? = some .unreleased ∧ Scattering key elements origin
      ((protocol.counter part (.releasing (next + 1))).scatterer next .released) := by
  obtain ⟨reached, releases⟩ := scattering.releases
  obtain ⟨rfl, alone⟩ := releases.eq here
  have found := List.getElem?_eq_getElem (based.scatterers.symm ▸ more)
  have waits : protocol.scatterers[reached]? = some .unreleased := by
    rw [found, (releases.tasks reached _ found).mpr (Nat.le_refl _)]
  have first := firstPlaced_set waits .released rfl
  refine ⟨waits, scattering.sums, scattering.handedOn, ?_, scattering.busy, ⟨reached + 1, ?_⟩, ?_,
    ?_, ?_, ?_, scattering.once, scattering.stored⟩
  · exact scattering.left.trans (countP_set_same waits (by rfl)).symm
  · refine ⟨more, ?_, .inr ⟨part, alone.set _⟩⟩
    refine forall_set reached (fun other task found different => ?_) ?_
    · rw [releases.tasks other task found]
      omega
    · exact iff_of_false (by simp) (by omega)
  · exact forall_set reached (fun other task found _ => scattering.each other task found) trivial
  · intro other row found apart
    exact scattering.rows other row found (apart.imp_right (mt first.mpr))
  · intro row found done
    exact scattering.first row found (first.mp done)
  · intro slot
    exact (scattering.passed slot).trans (passed_same waits (by exact fun _ => rfl) slot).symm

include scattering in
/-- A task that has released all others has ended. -/
theorem Scattering.endRelease {part : Nat}
    (here : protocol.counters[part]? = some (.releasing origin.parts)) :
    Scattering key elements origin (protocol.counter part .ended) := by
  obtain ⟨reached, releases⟩ := scattering.releases
  obtain ⟨rfl, alone⟩ := releases.eq here
  have releases : Releases origin.parts (protocol.counters.set part .ended) protocol.scatterers
      origin.parts := ⟨Nat.le_refl _, releases.tasks, .inl ⟨rfl, (alone.set .ended).ended⟩⟩
  exact ⟨scattering.sums, scattering.handedOn, scattering.left, scattering.busy, ⟨_, releases⟩,
    scattering.each, scattering.rows, scattering.first, scattering.passed, scattering.once,
    scattering.stored⟩

include based scattering in
/-- A task that has read its row has the ends of its shares for cursors. -/
theorem Scattering.readShares {part : Nat} {cursors : Vector Nat radix}
    (here : protocol.scatterers[part]? = some .released)
    (row : protocol.step.table[part]? = some cursors) :
    Scattering key elements origin
      (protocol.scatterer part (.scattering (origin.begins part) cursors)) := by
  have unread : part ≠ 0 ∨ ¬FirstPlaced protocol.scatterers := by
    by_cases first : part = 0
    · subst first
      refine .inr ?_
      rintro ⟨task, found, done⟩
      cases found.symm.trans here
      cases done
    · exact .inl first
  have ends := scattering.rows part cursors row unread
  have first := firstPlaced_set here (.scattering (origin.begins part) cursors) rfl
  obtain ⟨reached, releases⟩ := scattering.releases
  refine ⟨scattering.sums, scattering.handedOn, ?_, scattering.busy,
    ⟨reached, releases.set here (by simp) (by simp)⟩, ?_, ?_, ?_, ?_, scattering.once,
    scattering.stored⟩
  · exact scattering.left.trans (countP_set_same here (by rfl)).symm
  · refine forall_set part (fun other task found _ => scattering.each other task found) ?_
    refine ⟨Nat.le_refl _, RadixStep.begins_le_stops origin part, fun bucket => ?_⟩
    rw [ends bucket, shareStart_succ key elements (based.scatters here)]
  · intro other entries found apart
    exact scattering.rows other entries found (apart.imp_right (mt first.mpr))
  · intro entries found done
    exact scattering.first entries found (first.mp done)
  · intro slot
    exact (scattering.passed slot).trans (passed_same here (by exact ends) slot).symm

/-- What a task finds when it is about to place an element: the slot is one below its
cursor, nobody has written to it, and the partitioned range has the element there. -/
structure Free (key : α → Fin radix) (elements : List α) (origin : RadixStep radix)
    (protocol : StepProtocol α radix) (part : Nat) (cursors : Vector Nat radix) (x : α)
    (slot : Nat) : Prop where
  lowered : Word.checkedSub (cursors.get (key x)) 1 = .ok slot
  next : cursors.get (key x) = slot + 1
  high : slot < shareStart key elements origin (part + 1) (key x)
  inside : slot < origin.window.length
  fresh : slot ∉ protocol.written
  aims : (target key elements origin)[slot]? = some x

include based scattering in
/-- The slot for the next element of a piece is free.

A slot that has been written lies in a share that its writer has a cursor in. Shares with
a slot in common are the same, and the cursor of the task itself has not passed it. -/
theorem Scattering.exists_free (cut : origin.Cut) {part position : Nat}
    {cursors : Vector Nat radix} {x : α}
    (here : protocol.scatterers[part]? = some (.scattering position cursors))
    (more : position < origin.stops part) (read : elements[position]? = some x) :
    ∃ slot, Free key elements origin protocol part cursors x slot := by
  obtain ⟨low, -, placed⟩ := scattering.each part _ here
  have valid := based.scatters here
  have rest := between_cons read more
  have own := placed (key x)
  have ends := shareStart_succ key elements valid (key x)
  have split : between elements (origin.begins part) (origin.stops part) =
      between elements (origin.begins part) position ++
        x :: between elements (position + 1) (origin.stops part) := by
    rw [← rest, between_append elements low (Nat.le_of_lt more)]
  rw [rest, List.countP_cons_of_pos (by simp)] at own
  rw [split, List.countP_append, List.countP_cons_of_pos (by simp)] at ends
  have bound := shareStart_le key cut based.length (show part + 1 ≤ origin.parts from valid)
    (key x)
  refine ⟨shareStart key elements origin part (key x) +
    (between elements (position + 1) (origin.stops part)).countP (key · = key x),
    ?_, own, by omega, by omega, ?_, target_of_piece valid split⟩
  · exact Word.checkedSub_eq_ok_iff.mpr ⟨by omega, by omega⟩
  · intro written
    obtain ⟨other, task, found, bucket, reached, below⟩ := (scattering.passed _).mp written
    have otherValid := based.scatters found
    have started := (scattering.each other task found).start_le_cursor otherValid bucket
    obtain ⟨rfl, rfl⟩ := Shares.share_unique
      (by rwa [RadixStep.length_pieces]) (by rwa [RadixStep.length_pieces])
      (Nat.le_trans started reached) below
      (Nat.le_add_right (shareStart key elements origin part (key x)) _)
      (show _ < shareStart key elements origin (part + 1) (key x) by omega)
    cases here.symm.trans found
    simp only [cursor] at reached
    omega

/-- A protocol in which a task has placed one element in a slot. -/
def placeIn (protocol : StepProtocol α radix) (part position : Nat) (cursors : Vector Nat radix)
    (bucket : Fin radix) (slot : Nat) (memory : Memory α) : StepProtocol α radix :=
  { protocol.scatterer part (.scattering (position + 1) (assign cursors bucket slot)) with
    memory, written := protocol.written ++ [slot] }

include based scattering in
/-- Placing an element writes it to a free slot of the shadow side and to nothing else. -/
theorem Scattering.place {part position slot : Nat} {cursors : Vector Nat radix} {x : α}
    (here : protocol.scatterers[part]? = some (.scattering position cursors))
    (more : position < origin.stops part) (read : elements[position]? = some x)
    (free : Free key elements origin protocol part cursors x slot) :
    ∃ memory, protocol.memory.writeShadow protocol.step.window [(slot, x)] = .ok memory ∧
      memory = protocol.memory.modifySide origin.window.shadowSide
        (·.setIfInBounds (origin.window.offset + slot) x) ∧
      Based elements origin (placeIn protocol part position cursors (key x) slot memory) ∧
      Scattering key elements origin
        (placeIn protocol part position cursors (key x) slot memory) := by
  have fits : ∀ write ∈ [(slot, x)], write.1 < origin.window.length := by
    simpa using free.inside
  obtain ⟨memory, wrote, elsewhere, held, shadow⟩ :=
    protocol.memory.writeShadow_exact origin.window fits
  have changed : memory = protocol.memory.modifySide origin.window.shadowSide
      (·.setIfInBounds (origin.window.offset + slot) x) := (Memory.writeShadow_eq_ok_iff.mp wrote).2
  have holds := held.trans (based.held scattering.handedOn)
  have spans := elsewhere.spans based.spans
  refine ⟨memory, by rw [based.window]; exact wrote, changed, ?_, ?_⟩
  · refine ⟨based.shape, spans, based.length, fun slot inside _ => ?_, based.counters,
      (List.length_set ..).trans based.scatterers, based.size⟩
    rw [← holds, Memory.held_eq_slice, getElem?_slice, if_pos inside]
    rfl
  · have first := firstPlaced_set here
      (.scattering (position + 1) (assign cursors (key x) slot)) rfl
    obtain ⟨reached, releases⟩ := scattering.releases
    refine ⟨scattering.sums, scattering.handedOn, ?_, scattering.busy,
      ⟨reached, releases.set here (by simp) (by simp)⟩, ?_, ?_, ?_, ?_, ?_, ?_⟩
    · exact scattering.left.trans (countP_set_same here (by rfl)).symm
    · refine forall_set part (fun other task found _ => scattering.each other task found) ?_
      exact (scattering.each part _ here).placed more read free.next
    · intro other entries found apart
      exact scattering.rows other entries found (apart.imp_right (mt first.mpr))
    · intro entries found done
      exact scattering.first entries found (first.mp done)
    · intro other
      refine List.mem_append.trans ?_
      rw [scattering.passed, passed_iff here, placeIn, scatterer, passed_set here,
        passedBy_placed free.next free.high, or_assoc, List.mem_singleton]
    · refine List.nodup_append.mpr ⟨scattering.once, by simp, ?_⟩
      rintro other written _ single rfl
      exact free.fresh (List.mem_singleton.mp single ▸ written)
    · intro other member
      have bound := based.spans origin.window.shadowSide
      have inside := free.inside
      change (memory.side _)[_]? = _
      rw [shadow, applyWrites, applyWrites]
      rcases List.mem_append.mp member with written | single
      · have apart : origin.window.offset + slot ≠ origin.window.offset + other := by
          intro same
          exact free.fresh (Nat.add_left_cancel same ▸ written)
        rw [Array.getElem?_setIfInBounds_ne apart]
        exact scattering.stored other written
      · rw [List.mem_singleton.mp single, free.aims, Array.getElem?_setIfInBounds_self_of_lt
          (by omega)]

include scattering in
/-- A task that has placed its whole piece has the starts of its shares for cursors. -/
theorem Scattering.cursors_eq {part : Nat} {cursors : Vector Nat radix}
    (here : protocol.scatterers[part]? = some (.scattering (origin.stops part) cursors))
    (bucket : Fin radix) :
    cursors.get bucket = shareStart key elements origin part bucket := by
  have placed := (scattering.each part _ here).2.2 bucket
  rwa [between_self, List.countP_nil, Nat.add_zero] at placed

include based in
/-- The row of the first piece can be replaced, and no other row is. -/
theorem Based.storeStarts (part : Nat) (cursors : Vector Nat radix) (cut : origin.Cut) :
    ∃ table, (if part = 0 then protocol.step.storeRow 0 cursors else .ok protocol.step) =
        .ok { protocol.step with table } ∧ table.size = origin.parts ∧
      (part = 0 → table[0]? = some cursors) ∧
      ∀ other, ¬(part = 0 ∧ other = 0) → table[other]? = protocol.step.table[other]? := by
  have occupied : 0 < protocol.step.table.size := based.size.symm ▸ cut.parts_pos
  by_cases first : part = 0
  · refine ⟨protocol.step.table.setIfInBounds 0 cursors, (if_pos first).trans (if_pos occupied),
      ?_, fun _ => ?_, fun other apart => ?_⟩
    · exact (Array.size_setIfInBounds ..).trans based.size
    · exact Array.getElem?_setIfInBounds_self_of_lt occupied
    · exact Array.getElem?_setIfInBounds_ne fun same => apart ⟨first, same.symm⟩
  · exact ⟨protocol.step.table, if_neg first, based.size, fun same => absurd same first,
      fun _ _ => rfl⟩

include based scattering in
/-- A task ends its piece. Only the first row changes, if the piece is the first, and then it
holds the starts of the buckets. -/
theorem Scattering.endChunk (cut : origin.Cut) {part : Nat} {cursors : Vector Nat radix}
    (here : protocol.scatterers[part]? = some (.scattering (origin.stops part) cursors)) :
    ∃ step, (if part = 0 then protocol.step.storeRow 0 cursors else .ok protocol.step) =
        .ok step ∧
      Based elements origin { protocol.scatterer part .placed with step } ∧
      Scattering key elements origin { protocol.scatterer part .placed with step } := by
  obtain ⟨table, stored, size, firstRow, otherRows⟩ := based.storeStarts part cursors cut
  have inside : part < protocol.scatterers.length := (List.getElem?_eq_some_iff.mp here).1
  have final := scattering.cursors_eq here
  have own : part = 0 → FirstPlaced (protocol.scatterers.set part .placed) := by
    rintro rfl
    exact ⟨.placed, List.getElem?_set_self inside, rfl⟩
  have other (apart : part ≠ 0) : FirstPlaced (protocol.scatterers.set part .placed) ↔
      FirstPlaced protocol.scatterers := by
    unfold FirstPlaced
    rw [List.getElem?_set_ne apart]
  obtain ⟨reached, releases⟩ := scattering.releases
  refine ⟨_, stored, (based.scatterer part .placed).restep ?_ size, ?_⟩
  · rw [based.shape]
  · refine ⟨scattering.sums, scattering.handedOn, ?_, scattering.busy,
      ⟨reached, releases.set here (by simp) (by simp)⟩, ?_, ?_, ?_, ?_, scattering.once,
      scattering.stored⟩
    · exact scattering.left.trans (countP_set_same here (by rfl)).symm
    · exact forall_set part (fun other task found _ => scattering.each other task found) trivial
    · intro row entries found apart
      have kept : ¬(part = 0 ∧ row = 0) := by
        rintro ⟨first, rfl⟩
        exact apart.elim (absurd rfl) (absurd (own first))
      refine scattering.rows row entries ((otherRows row kept).symm.trans found) ?_
      by_cases first : part = 0
      · exact .inl fun same => kept ⟨first, same⟩
      · exact apart.imp_right (mt (other first).mpr)
    · intro entries found done bucket
      by_cases first : part = 0
      · subst first
        cases (firstRow rfl).symm.trans found
        exact final bucket
      · have before := (otherRows 0 fun both => first both.1).symm.trans found
        exact scattering.first entries before ((other first).mp done) bucket
    · intro slot
      refine (scattering.passed slot).trans (passed_same here (fun bucket => ?_) slot).symm
      exact (final bucket).symm

include scattering in
/-- A task that is counted off while others are outstanding has ended. -/
theorem Scattering.endScatter_more {part : Nat}
    (here : protocol.scatterers[part]? = some .placed) (more : protocol.step.left ≠ 1) :
    Scattering key elements origin (protocol.countOff.scatterer part .ended) := by
  have first := firstPlaced_set here .ended rfl
  have busy := scattering.busy
  obtain ⟨reached, releases⟩ := scattering.releases
  refine ⟨scattering.sums, scattering.handedOn, ?_, ?_,
    ⟨reached, releases.set here (by simp) (by simp)⟩, ?_, ?_, ?_, ?_, scattering.once,
    scattering.stored⟩
  · exact (congrArg (· - 1) scattering.left).trans (countP_set_done here rfl rfl).symm
  · simp only [scatterer, countOff]
    omega
  · exact forall_set part (fun other task found _ => scattering.each other task found) trivial
  · intro other row found apart
    exact scattering.rows other row found (apart.imp_right (mt first.mpr))
  · intro row found done
    exact scattering.first row found (first.mp done)
  · intro slot
    exact (scattering.passed slot).trans (passed_same here (by exact fun _ => rfl) slot).symm

include scattering in
/-- The task that is counted off last finds all others ended. -/
theorem Scattering.alone {part : Nat} (here : protocol.scatterers[part]? = some .placed)
    (last : protocol.step.left = 1) : Alone protocol.scatterers .ended part .placed := by
  refine ⟨here, fun other task found different => ?_⟩
  have idle := idle_of_last here rfl .ended rfl (scattering.left ▸ last) found different
  have right := scattering.each other task found
  cases task with
  | unreleased => cases idle
  | released => cases idle
  | scattering position cursors => cases idle
  | placed => cases idle
  | closing => exact right.elim
  | handing buckets => exact right.elim
  | ended => rfl

include based scattering in
/-- Only slots of the range are written. -/
theorem Scattering.inside (cut : origin.Cut) {slot : Nat} (member : slot ∈ protocol.written) :
    slot < origin.window.length := by
  obtain ⟨part, task, found, bucket, -, high⟩ := (scattering.passed slot).mp member
  have valid : part + 1 ≤ origin.parts := based.scatters found
  exact Nat.lt_of_lt_of_le high (shareStart_le key cut based.length valid bucket)

include based scattering in
/-- When all pieces have been placed, every slot has been written. -/
theorem Scattering.all_written (cut : origin.Cut)
    (placed : ∀ task ∈ protocol.scatterers, task = .placed ∨ task = .ended) :
    protocol.written.Perm (List.range origin.window.length) := by
  refine (List.perm_ext_iff_of_nodup scattering.once List.nodup_range).mpr fun slot => ?_
  rw [List.mem_range]
  refine ⟨scattering.inside based cut, fun inside => (scattering.passed slot).mpr ?_⟩
  obtain ⟨part, valid, bucket, low, high⟩ := exists_share key cut based.length inside
  have here := List.getElem?_eq_getElem (based.scatterers.symm ▸ valid)
  refine ⟨part, _, here, bucket, ?_, high⟩
  rcases placed _ (List.getElem_mem _) with same | same <;> rw [same] <;> exact low

include based scattering in
/-- The task that is counted off last finds every slot written and the starts of the buckets
in the first row. -/
theorem Scattering.endScatter_last (cut : origin.Cut) {part : Nat}
    (here : protocol.scatterers[part]? = some .placed) (last : protocol.step.left = 1) :
    Closing key elements origin (protocol.countOff.scatterer part .closing) := by
  have alone := scattering.alone here last
  have placed : ∀ task ∈ protocol.scatterers, task = .placed ∨ task = .ended := by
    intro task member
    obtain ⟨other, found⟩ := List.getElem?_of_mem member
    by_cases busy : task = .ended
    · exact .inr busy
    · exact .inl (alone.eq found busy).2
  have written := scattering.all_written based cut placed
  have first : FirstPlaced protocol.scatterers := by
    have found := List.getElem?_eq_getElem (based.scatterers.symm ▸ cut.parts_pos)
    refine ⟨_, found, ?_⟩
    rcases placed _ (List.getElem_mem _) with same | same <;> rw [same] <;> rfl
  refine ⟨scattering.sums, congrArg (· - 1) last, ?_, ?_, ?_, ?_, written, ?_⟩
  · obtain ⟨reached, releases⟩ := scattering.releases
    have all : reached = origin.parts := by
      rcases Nat.eq_or_lt_of_le releases.upTo with all | short
      · exact all
      · have found := List.getElem?_eq_getElem (based.scatterers.symm ▸ short)
        have waits := (releases.tasks reached _ found).mpr (Nat.le_refl _)
        rcases placed _ (List.getElem_mem _) with same | same <;> cases same.symm.trans waits
    exact releases.last.imp And.right (all ▸ ·)
  · exact ⟨part, .closing, alone.set .closing, scattering.handedOn⟩
  · exact fun other row found later => scattering.rows other row found (.inl later)
  · exact fun row found => scattering.first row found first
  · intro slot inside _
    exact scattering.stored slot (written.mem_iff.mpr (List.mem_range.mpr inside))

end Scattering

/-- The memory has changed at most in cells that are not the partition's any more. -/
structure Apart (origin : RadixStep radix) (handedOn : List (Handed α))
    (before after : Memory α) : Prop where
  size : ∀ side, (after.side side).size = (before.side side).size
  cell : ∀ side, ∀ slot < origin.window.length, ¬Given handedOn slot →
    (after.side side)[origin.window.offset + slot]? =
      (before.side side)[origin.window.offset + slot]?

section Apart

variable {memory : Memory α}

/-- Changes of other cells leave the range as it is. -/
theorem Based.apart (based : Based elements origin protocol)
    (apart : Apart origin protocol.handedOn protocol.memory memory) :
    Based elements origin { protocol with memory } where
  shape := based.shape
  spans side := (apart.size side).symm ▸ based.spans side
  length := based.length
  kept slot inside mine := (apart.cell _ slot inside mine).trans (based.kept slot inside mine)
  counters := based.counters
  scatterers := based.scatterers
  size := based.size

/-- Changes of other cells leave the phase as it is. -/
theorem Phase.apart (phase : Phase key elements origin protocol)
    (based : Based elements origin protocol) (cut : origin.Cut)
    (apart : Apart origin protocol.handedOn protocol.memory memory) :
    Phase key elements origin { protocol with memory } := by
  cases phase with
  | counting now =>
    exact .counting ⟨⟨now.early.unreleased, now.early.written, now.early.handedOn⟩, now.sums,
      now.left, now.busy, now.each⟩
  | summing now =>
    exact .summing ⟨⟨now.early.unreleased, now.early.written, now.early.handedOn⟩, now.sums,
      now.left, now.alone, now.rows⟩
  | summed now =>
    exact .summed ⟨⟨now.early.unreleased, now.early.written, now.early.handedOn⟩, now.sums,
      now.left, now.alone, now.rows⟩
  | scattering now =>
    refine .scattering ⟨now.sums, now.handedOn, now.left, now.busy, now.releases, now.each,
      now.rows, now.first, now.passed, now.once, fun slot member => ?_⟩
    have mine : ¬Given protocol.handedOn slot := by
      rw [now.handedOn]
      exact not_given_nil slot
    exact (apart.cell _ slot (now.inside based cut member) mine).trans (now.stored slot member)
  | closing now =>
    exact .closing ⟨now.sums, now.left, now.releases, now.alone, now.rows, now.first, now.written,
      fun slot inside mine => (apart.cell _ slot inside mine).trans (now.stored slot inside mine)⟩

end Apart

section Closing

variable (based : Based elements origin protocol) (closing : Closing key elements origin protocol)

include closing in
/-- A task that has released all others may end after all others have. -/
theorem Closing.endRelease {part : Nat}
    (here : protocol.counters[part]? = some (.releasing origin.parts)) :
    Closing key elements origin (protocol.counter part .ended) := by
  have ended : ∀ task ∈ protocol.counters.set part .ended, task = .ended := by
    rcases closing.releases with ended | ⟨last, alone⟩
    · cases ended _ (List.mem_of_getElem? here)
    · obtain ⟨rfl, -⟩ := alone.eq here (by simp)
      exact (alone.set .ended).ended
  exact ⟨closing.sums, closing.left, .inl ended, closing.alone, closing.rows, closing.first,
    closing.written, closing.stored⟩

include closing in
/-- A task that is not idle is the one that hands the buckets on. -/
theorem Closing.hands {part : Nat} {task : ScatterTask radix}
    (here : protocol.scatterers[part]? = some task) (busy : task ≠ .ended) :
    Alone protocol.scatterers .ended part task ∧
      Hands key elements origin protocol.handedOn task := by
  obtain ⟨last, own, alone, hands⟩ := closing.alone
  obtain ⟨rfl, rfl⟩ := alone.eq here busy
  exact ⟨alone, hands⟩

include based closing in
/-- The starts of the buckets can be read, and the buckets are found between them. -/
theorem Closing.readStarts (cut : origin.Cut) {part : Nat}
    (here : protocol.scatterers[part]? = some .closing) :
    protocol.step.buckets = .ok ((digits key elements).map (place key elements)) ∧
      Closing key elements origin (protocol.scatterer part
        (.handing ((digits key elements).map (place key elements)))) := by
  obtain ⟨alone, none⟩ := closing.hands here (by simp)
  have row := Array.getElem?_eq_getElem (based.size.symm ▸ cut.parts_pos)
  have found := buckets_exact cut based.length protocol.step.left row (closing.first _ row)
  refine ⟨(congrArg RadixStep.buckets based.shape).trans found, closing.sums, closing.left,
    closing.releases, ⟨part, _, alone.set _, [], digits key elements, rfl, none, rfl⟩,
    closing.rows, closing.first, closing.written, closing.stored⟩

include closing in
/-- When no bucket is left, the task has ended. -/
theorem Closing.endHanding {part : Nat}
    (here : protocol.scatterers[part]? = some (.handing [])) :
    Closing key elements origin (protocol.scatterer part .ended) := by
  obtain ⟨alone, done, rest, split, handed, none⟩ := closing.hands here (by simp)
  have all : done = digits key elements := by
    rw [← split, List.map_eq_nil_iff.mp none.symm, List.append_nil]
  exact ⟨closing.sums, closing.left, closing.releases,
    ⟨part, _, alone.set .ended, handed.trans (by rw [all, shares])⟩, closing.rows, closing.first,
    closing.written, closing.stored⟩

/-- What has been handed on stays so when one more bucket is. -/
theorem given_append {handedOn : List (Handed α)} {handed : Handed α} {slot : Nat} :
    Given (handedOn ++ [handed]) slot ↔ Given handedOn slot ∨ InBucket handed.bucket slot := by
  simp [Given, or_and_right, exists_or]

/-- Handing a bucket on changes nothing outside it. -/
theorem elsewhere_handOver (protocol : StepProtocol α radix) (bucket : Bucket) (window : Window) :
    Memory.Elsewhere window protocol.memory (protocol.handOver bucket window).memory := by
  unfold handOver
  split
  · exact Memory.elsewhere_copyBack _ _
  · exact Memory.Elsewhere.refl _ _

/-- The slots of a bucket are not given away with the buckets of other digits. -/
theorem not_given {done : List (Fin radix)} {digit : Fin radix} (unlisted : digit ∉ done)
    {slot : Nat} (own : InBucket (place key elements digit) slot) :
    ¬Given (done.map (share key elements origin)) slot := by
  rintro ⟨other, listed, within⟩
  obtain ⟨earlier, member, rfl⟩ := List.mem_map.mp listed
  exact unlisted (place_unique own within ▸ member)

/-- The window of a bucket, with the sides exchanged. -/
def bucketWindow (origin : RadixStep radix) (bucket : Bucket) : Window :=
  ⟨origin.window.offset + bucket.start, bucket.length, !origin.window.flipped⟩

/-- The slots of the window of a bucket are those of the bucket. -/
theorem mem_bucketWindow {bucket : Bucket} {slot : Nat} :
    origin.window.offset + slot ∈ (bucketWindow origin bucket).slots ↔ InBucket bucket slot := by
  rw [Window.mem_slots, bucketWindow, InBucket, Nat.add_assoc, Nat.add_le_add_iff_left,
    Nat.add_lt_add_iff_left]

include based in
/-- The window of a bucket can be named. -/
theorem Based.flip_place (cut : origin.Cut) (digit : Fin radix) :
    protocol.step.window.flip (place key elements digit).start
        (place key elements digit).length =
      .ok (bucketWindow origin (place key elements digit)) := by
  have inside := place_le key elements digit
  rw [based.length] at inside
  rw [based.window]
  exact Window.flip_eq_ok_iff.mpr ⟨Nat.lt_of_le_of_lt inside cut.fits, inside, rfl⟩

include based closing in
/-- A bucket that is not yet handed on holds what the pieces hold of it. -/
theorem Closing.held_bucket (cut : origin.Cut) {done : List (Fin radix)} {digit : Fin radix}
    (handed : protocol.handedOn = done.map (share key elements origin)) (unlisted : digit ∉ done) :
    (protocol.memory.active (bucketWindow origin (place key elements digit))).toList =
      (share key elements origin digit).held := by
  have inside := place_le key elements digit
  rw [based.length] at inside
  have content := slice_place cut based.length digit fun slot own =>
    closing.stored slot (Nat.lt_of_lt_of_le own.2 inside) (handed ▸ not_given unlisted own)
  have side : (bucketWindow origin (place key elements digit)).activeSide =
      origin.window.shadowSide := Window.activeSide_exchanged origin.window
  rw [← content, ← side]
  rfl

include based closing in
/-- The next bucket can be handed on. It holds what the pieces hold of it.

First the bucket is listed as handed on, and from then on its cells may change. -/
theorem Closing.handOn (cut : origin.Cut) {part : Nat} {bucket : Bucket} {rest : List Bucket}
    (here : protocol.scatterers[part]? = some (.handing (bucket :: rest))) :
    protocol.step.window.flip bucket.start bucket.length = .ok (bucketWindow origin bucket) ∧
      Based elements origin
        ((protocol.handOver bucket (bucketWindow origin bucket)).scatterer part (.handing rest)) ∧
      Phase key elements origin
        ((protocol.handOver bucket (bucketWindow origin bucket)).scatterer part
          (.handing rest)) := by
  obtain ⟨alone, done, left, split, handed, buckets⟩ := closing.hands here (by simp)
  obtain ⟨digit, later, rfl, rfl, rfl⟩ := List.map_eq_cons_iff.mp buckets.symm
  have unlisted : digit ∉ done := by
    have nodup := digits_nodup key elements
    rw [← split] at nodup
    exact fun listed => (List.nodup_append.mp nodup).2.2 digit listed digit List.mem_cons_self rfl
  have held := closing.held_bucket based cut handed unlisted
  let window := bucketWindow origin (place key elements digit)
  let handedOn := (protocol.handOver (place key elements digit) window).handedOn
  let given : StepProtocol α radix :=
    { protocol.scatterer part (.handing (later.map (place key elements))) with handedOn }
  have grown (slot : Nat) (other : ¬Given handedOn slot) : ¬Given protocol.handedOn slot :=
    fun earlier => other (given_append.mpr (.inl earlier))
  have basedGiven : Based elements origin given := ⟨based.shape, based.spans, based.length,
    fun slot inside other => based.kept slot inside (grown slot other), based.counters,
    (List.length_set ..).trans based.scatterers, based.size⟩
  have closingGiven : Closing key elements origin given := by
    refine ⟨closing.sums, closing.left, closing.releases, ⟨part, _, alone.set _,
      done ++ [digit], later, ?_, ?_, rfl⟩, closing.rows, closing.first, closing.written,
      fun slot inside other => closing.stored slot inside (grown slot other)⟩
    · rw [← split, List.append_assoc, List.singleton_append]
    · rw [List.map_append, ← handed]
      exact congrArg (fun held => protocol.handedOn ++ [⟨place key elements digit, held⟩]) held
  have elsewhere := elsewhere_handOver protocol (place key elements digit) window
  have apart : Apart origin handedOn protocol.memory
      (protocol.handOver (place key elements digit) window).memory :=
    ⟨elsewhere.size, fun side slot _ other => elsewhere.cell side _ fun member =>
      other (given_append.mpr (.inr (mem_bucketWindow.mp member)))⟩
  exact ⟨based.flip_place cut digit, basedGiven.apart apart,
    (Phase.closing closingGiven).apart basedGiven cut apart⟩

end Closing

end RadixSort.StepProtocol
