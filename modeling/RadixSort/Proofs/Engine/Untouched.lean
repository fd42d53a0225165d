import RadixSort.Proofs.Engine.Descent
import RadixSort.Proofs.Msd.Locality

/-!
# A job does not touch what it has given away

Two runs of a job are followed side by side, from memories that differ in the ranges it
has given away and nowhere else. The job never reads these ranges, so it makes the same
steps in both runs; and it never writes to them, so each run leaves them as they were.
-/
namespace RadixSort

variable {α β γ : Type} {radix : Nat}

/-- Two computations end alike: in results that are related, or in the same fault. -/
def EndAlike (related : β → γ → Prop) : Except Fault β → Except Fault γ → Prop
  | .ok first, .ok second => related first second
  | .error fault, .error other => fault = other
  | _, _ => False

namespace EndAlike

/-- A computation ends like itself. -/
theorem refl (computation : Except Fault β) : EndAlike Eq computation computation := by
  cases computation <;> rfl

/-- What follows may rely on what went before, which was alike. -/
theorem bind {β' γ' : Type} {related : β → γ → Prop} {later : β' → γ' → Prop}
    {first : Except Fault β} {second : Except Fault γ} {one : β → Except Fault β'}
    {other : γ → Except Fault γ'} (before : EndAlike related first second)
    (after : ∀ x y, related x y → EndAlike later (one x) (other y)) :
    EndAlike later (first >>= one) (second >>= other) := by
  cases first <;> cases second
  · exact before
  · exact before.elim
  · exact before.elim
  · exact after _ _ before

/-- Two computations that branch on one test end alike if their branches do. -/
theorem ite {related : β → γ → Prop} {test : Prop} [Decidable test] {one other : Except Fault β}
    {two three : Except Fault γ} (holds : test → EndAlike related one two)
    (fails : ¬test → EndAlike related other three) :
    EndAlike related (if test then one else other) (if test then two else three) := by
  split
  case isTrue yes => exact holds yes
  case isFalse no => exact fails no

/-- A result of one computation has a counterpart in the other. -/
theorem exists_ok {related : β → γ → Prop} {first : Except Fault β} {second : Except Fault γ}
    (alike : EndAlike related first second) {result : β} (ran : first = .ok result) :
    ∃ other, second = .ok other ∧ related result other := by
  subst ran
  cases second with
  | ok other => exact ⟨other, rfl, alike⟩
  | error fault => exact alike.elim

end EndAlike

/-- A change of an array that treats every cell by itself. -/
structure Pointwise (change : Array α → Array α) : Prop where
  size : ∀ cells, (change cells).size = cells.size
  cell : ∀ (first second : Array α) (cell : Nat), first.size = second.size →
    first[cell]? = second[cell]? → (change first)[cell]? = (change second)[cell]?

/-- Overwriting treats every cell by itself. -/
theorem pointwise_overwrite (start : Nat) (values : List α) :
    Pointwise (overwrite · start values) where
  size cells := size_overwrite cells start values
  cell first second cell size same := by
    rcases Nat.lt_or_ge cell first.size with inside | outside
    · rw [getElem?_overwrite _ _ _ _ inside, getElem?_overwrite _ _ _ _ (size ▸ inside), same]
    · rw [Array.getElem?_eq_none (by rwa [size_overwrite]),
        Array.getElem?_eq_none (by rwa [size_overwrite, ← size])]

/-- Writes treat every cell by itself. -/
theorem pointwise_applyWrites (base : Nat) (writes : List (SlotWrite α)) :
    Pointwise (applyWrites · base writes) where
  size cells := size_applyWrites cells base writes
  cell first second cell size same := by
    induction writes generalizing first second with
    | nil => exact same
    | cons write rest ih =>
      apply ih
      · simpa using size
      · rw [Array.getElem?_setIfInBounds, Array.getElem?_setIfInBounds, size, same]

namespace Memory

variable {slots : List Nat} {base other first second : Memory α} {window : Window}

/-- Two memories that differ in some slots only, and there hold what two others do. -/
structure Tied (slots : List Nat) (base other first second : Memory α) : Prop where
  size : ∀ side, (first.side side).size = (second.side side).size
  agree : ∀ side, ∀ cell ∉ slots, (first.side side)[cell]? = (second.side side)[cell]?
  one : ∀ side, ∀ cell ∈ slots, (first.side side)[cell]? = (base.side side)[cell]?
  two : ∀ side, ∀ cell ∈ slots, (second.side side)[cell]? = (other.side side)[cell]?

/-- Changing the same array in the same way, outside those slots, keeps memories tied. -/
theorem Tied.modifySide (tied : Tied slots base other first second) (side : Side)
    {change : Array α → Array α} (pointwise : Pointwise change)
    (outside : ∀ cells, ∀ cell ∈ slots, (change cells)[cell]? = cells[cell]?) :
    Tied slots base other (first.modifySide side change) (second.modifySide side change) where
  size other := by
    rw [side_modifySide, side_modifySide]
    split
    · rw [pointwise.size, pointwise.size, tied.size]
    · exact tied.size other
  agree other cell apart := by
    rw [side_modifySide, side_modifySide]
    split
    · exact pointwise.cell _ _ cell (tied.size side) (tied.agree side cell apart)
    · exact tied.agree other cell apart
  one other cell member := by
    rw [side_modifySide]
    split
    · rename_i same
      rw [outside _ cell member, same]
      exact tied.one side cell member
    · exact tied.one other cell member
  two other cell member := by
    rw [side_modifySide]
    split
    · rename_i same
      rw [outside _ cell member, same]
      exact tied.two side cell member
    · exact tied.two other cell member

section

variable (tied : Tied slots base other first second) (apart : ∀ cell ∈ window.slots, cell ∉ slots)

include tied apart

/-- Tied memories hold the same in a window apart from the slots. -/
theorem Tied.cells_eq (side : Side) : first.cells side window = second.cells side window :=
  Array.toList_inj.mp (slice_congr fun cell low high =>
    tied.agree side cell (apart cell (Window.mem_slots.mpr ⟨low, high⟩)))

/-- Storing the same values in such a window keeps memories tied. -/
theorem Tied.fill (side : Side) (values : List α) :
    Tied slots base other (first.fill side window values) (second.fill side window values) := by
  refine tied.modifySide side (pointwise_overwrite _ _) fun cells cell member => ?_
  apply getElem?_overwrite_of_outside
  rintro ⟨low, high⟩
  rw [List.length_take] at high
  exact apart cell (Window.mem_slots.mpr ⟨low, by omega⟩) member

/-- Copying such a window back keeps memories tied. -/
theorem Tied.copyBack :
    Tied slots base other (first.copyBack window) (second.copyBack window) := by
  rw [Memory.copyBack, Memory.copyBack, tied.cells_eq apart]
  split
  · exact tied.fill apart .primary _
  · exact tied

/-- The same writes to the shadow side of such a window end alike. -/
theorem Tied.writeShadow (writes : List (SlotWrite α)) :
    EndAlike (Tied slots base other) (first.writeShadow window writes)
      (second.writeShadow window writes) := by
  cases stray : strayWrite? window.length writes with
  | some fault =>
    rw [Memory.writeShadow, Memory.writeShadow, stray]
    rfl
  | none =>
    have fits := strayWrite_eq_none_iff.mp stray
    rw [Memory.writeShadow, Memory.writeShadow, stray]
    refine tied.modifySide _ (pointwise_applyWrites _ _) fun cells cell member => ?_
    apply getElem?_applyWrites_of_forall_ne
    rintro write written rfl
    have := fits write written
    exact apart _ (Window.mem_slots.mpr ⟨by omega, by omega⟩) member

end

end Memory

section Jobs

open Memory

variable {rules : Rules α radix} {slots : List Nat} {base other : Memory α}

/-- Two works that are the same but for their memories, which are tied. -/
def Work.Tied (slots : List Nat) (base other : Memory α) (first second : Work α) : Prop :=
  ∃ memory, second = { first with memory } ∧ Memory.Tied slots base other first.memory memory

section

variable {first second : Memory α} {window : Window}
  (tied : Memory.Tied slots base other first second)
  (apart : ∀ cell ∈ window.slots, cell ∉ slots)

include tied apart

/-- The elements of a window apart from the slots are moved alike. -/
theorem Partitioned.move_alike (inPlace : Bool) (key : α → Fin radix) (sizes : Vector Nat radix) :
    EndAlike (fun one two => one.2 = two.2 ∧ Memory.Tied slots base other one.1 two.1)
      (move inPlace key sizes first window) (move inPlace key sizes second window) := by
  have same : first.active window = second.active window := tied.cells_eq apart window.activeSide
  cases inPlace with
  | true =>
    simp only [move, same, if_true]
    refine (EndAlike.refl _).bind ?_
    rintro permuted _ rfl
    exact ⟨rfl, tied.fill apart _ _⟩
  | false =>
    simp only [move, same, Bool.false_eq_true, if_false]
    refine (EndAlike.refl _).bind ?_
    rintro layout _ rfl
    refine (EndAlike.refl _).bind ?_
    rintro writes _ rfl
    refine (tied.writeShadow apart _).bind fun one two wrote => ?_
    cases flips : window.flip 0 window.length with
    | error fault => rfl
    | ok flipped =>
      obtain ⟨-, -, rfl⟩ := Window.flip_eq_ok_iff.mp flips
      exact ⟨rfl, wrote.copyBack (by simpa using apart)⟩

/-- A window apart from the slots is partitioned alike. -/
theorem Partitioned.ofRange_alike (rule : DigitRule α radix) (inPlace : Bool) (depth : Nat) :
    EndAlike (fun one two => ∃ memory, two = { one with memory } ∧
        Memory.Tied slots base other one.memory memory)
      (ofRange rule inPlace first window depth) (ofRange rule inPlace second window depth) := by
  have same : first.active window = second.active window := tied.cells_eq apart window.activeSide
  unfold ofRange
  dsimp only
  rw [same]
  refine (EndAlike.refl _).bind fun _ _ _ => ?_
  refine (EndAlike.refl _).bind ?_
  rintro sizes _ rfl
  refine (move_alike tied apart _ _ _).bind ?_
  rintro ⟨one, moved⟩ ⟨two, _⟩ ⟨rfl, still⟩
  refine (EndAlike.refl _).bind ?_
  rintro layout _ rfl
  split
  · exact ⟨two, rfl, still⟩
  · rfl

end

/-- Recording a finished range keeps works tied. -/
theorem Work.Tied.settle {first second : Work α} (tied : Work.Tied slots base other first second)
    (settings : Settings) (window : Window) :
    Work.Tied slots base other (first.settle settings window) (second.settle settings window) := by
  obtain ⟨memory, rfl, tied⟩ := tied
  exact ⟨memory, rfl, tied⟩

/-- A window apart from the slots is finished alike. -/
theorem Work.finish_alike {first second : Work α} {window : Window}
    (tied : Work.Tied slots base other first second)
    (apart : ∀ cell ∈ window.slots, cell ∉ slots) :
    EndAlike (Work.Tied slots base other) (first.finish rules window)
      (second.finish rules window) := by
  obtain ⟨memory, rfl, tied⟩ := tied
  have same : first.memory.active window = memory.active window :=
    tied.cells_eq apart window.activeSide
  unfold Work.finish
  dsimp only
  rw [same]
  refine (EndAlike.refl _).bind ?_
  rintro sorted _ rfl
  exact ⟨_, rfl, tied.fill apart _ _⟩

namespace SmallJob

/-- Two states that are the same but for their memories, which are tied. -/
def State.Tied (slots : List Nat) (base other : Memory α) (first second : State α) : Prop :=
  ∃ work, second = { first with work } ∧ Work.Tied slots base other first.work work

section

variable {first second : State α} {window : Window}
  (tied : State.Tied slots base other first second)

include tied

/-- A window apart from the slots is entered alike. -/
theorem enter_alike (apart : ∀ cell ∈ window.slots, cell ∉ slots) (depth : Nat) :
    EndAlike (State.Tied slots base other) (enter rules first window depth)
      (enter rules second window depth) := by
  obtain ⟨_, rfl, memory, rfl, tied⟩ := tied
  refine (Partitioned.ofRange_alike tied apart _ _ depth).bind ?_
  rintro one _ ⟨moved, rfl, still⟩
  refine (EndAlike.refl (one.frame depth)).bind ?_
  rintro frame _ rfl
  exact ⟨_, rfl, _, rfl, still⟩

/-- A window apart from the slots is handled alike. -/
theorem handle_alike (apart : ∀ cell ∈ window.slots, cell ∉ slots) (depth : Nat) :
    EndAlike (State.Tied slots base other) (handle rules first window depth)
      (handle rules second window depth) := by
  unfold handle
  split
  · obtain ⟨work, rfl, tied⟩ := tied
    exact (Work.finish_alike tied apart).bind fun one two finished => ⟨two, rfl, finished⟩
  · exact enter_alike tied apart depth

end

/-- A frame is given away alike, whatever the memories. -/
theorem giveAway_alike (settings : Settings) (frame : Frame) (buckets : List Bucket)
    {first second : Work α} (tied : Work.Tied slots base other first second) :
    EndAlike (fun one two => one.1 = two.1 ∧ Work.Tied slots base other one.2 two.2)
      (giveAway settings frame buckets first) (giveAway settings frame buckets second) := by
  induction buckets generalizing first second with
  | nil => exact ⟨rfl, tied⟩
  | cons bucket rest ih =>
    refine (EndAlike.refl (frame.window.sub bucket.start bucket.length)).bind ?_
    rintro window _ rfl
    refine .ite (fun single => ih (tied.settle settings window)) fun several => ?_
    obtain ⟨memory, rfl, tied⟩ := tied
    have counted : Work.Tied slots base other
        { first with stats := { first.stats with donatedJobs := first.stats.donatedJobs + 1 } }
        { first with
          memory, stats := { first.stats with donatedJobs := first.stats.donatedJobs + 1 } } :=
      ⟨memory, rfl, tied⟩
    refine (ih counted).bind ?_
    rintro ⟨jobs, one⟩ ⟨_, two⟩ ⟨rfl, later⟩
    exact ⟨rfl, later⟩

/-- Work is given away alike. -/
theorem share_alike (settings : Settings) (idle : Nat → Bool) {first second : State α}
    (tied : State.Tied slots base other first second) :
    EndAlike (State.Tied slots base other) (share settings idle first)
      (share settings idle second) := by
  obtain ⟨work, rfl, tied⟩ := tied
  unfold share
  refine .ite (fun sharing => ?_) fun alone => ⟨work, rfl, tied⟩
  dsimp only
  refine .ite (fun waiting => ?_) fun busy => ⟨work, rfl, tied⟩
  unfold dissolve
  dsimp only
  refine .ite (fun own => ?_) fun none => rfl
  cases first.stack[first.stack.length - 1 - first.dissolved]? with
  | none => rfl
  | some frame =>
    refine (giveAway_alike settings frame frame.remaining tied).bind ?_
    rintro ⟨jobs, one⟩ ⟨_, two⟩ ⟨rfl, later⟩
    exact ⟨two, rfl, later⟩

/-- Two outcomes of a step that are the same but for the memories, which are tied. -/
def Progress.Tied (slots : List Nat) (base other : Memory α) : Progress α → Progress α → Prop
  | .running first, .running second => State.Tied slots base other first second
  | .finished first, .finished second => State.Tied slots base other first second
  | _, _ => False

variable {total depth : Nat} {assignment : Assignment α} {excused : Fault → Prop} {job : Job}
  {found : Work α}

/-- A job makes the same step from tied memories, if the slots belong to what it has given
away. -/
theorem step_alike (idle : Nat → Bool) {first second : State α}
    (sound : Sound rules total depth assignment [] first)
    (given : ∀ cell ∈ slots, ∃ given ∈ first.donated, cell ∈ given.window.slots)
    (tied : State.Tied slots base other first second) :
    EndAlike (Progress.Tied slots base other) (step rules idle first) (step rules idle second) := by
  obtain ⟨work, rfl, tied⟩ := tied
  unfold step
  cases stacked : first.stack with
  | nil => exact ⟨work, by rw [stacked], tied⟩
  | cons top below =>
    dsimp only
    cases unsorted : top.remaining with
    | nil =>
      dsimp only
      split <;> exact ⟨work, rfl, tied⟩
    | cons bucket remaining =>
      obtain ⟨taken, -⟩ := sound.take stacked unsorted
      have apart : ∀ cell ∈ (top.window.part bucket).slots, cell ∉ slots := by
        intro cell own member
        obtain ⟨job, listed, inside⟩ := given cell member
        exact taken.apart (mem_openRanges.mpr (.inr listed)) cell inside own
      dsimp only
      cases narrowed : top.window.sub bucket.start bucket.length with
      | error fault => rfl
      | ok window =>
        obtain ⟨-, -, rfl⟩ := Window.sub_eq_ok_iff.mp narrowed
        refine .ite (fun single => ⟨_, rfl, tied.settle _ _⟩) fun several => ?_
        have before : State.Tied slots base other
            { first with stack := { top with remaining } :: below }
            { first with work, stack := { top with remaining } :: below } := ⟨work, rfl, tied⟩
        refine (handle_alike before apart (top.depth + 1)).bind fun one two handled => ?_
        exact (share_alike rules.settings idle handled).bind fun one two shared => shared

/-- A job goes on to the same end from tied memories. -/
theorem resume_alike (excuses : JobExcuses rules total excused) (idle : Nat → Bool)
    {first second : State α} (sound : Sound rules total depth assignment [] first)
    (contents : Contents rules job found first)
    (given : ∀ cell ∈ slots, ∃ given ∈ first.donated, cell ∈ given.window.slots)
    (tied : State.Tied slots base other first second) :
    EndAlike (State.Tied slots base other) (resume rules idle first)
      (resume rules idle second) := by
  fun_induction resume rules idle first generalizing second with
  | case1 state fault stepped =>
    have alike := step_alike idle sound given tied
    -- The induction has opened one side; `resume_eq` opens the other.
    rw [resume_eq rules idle second]
    cases ran : step rules idle second with
    | error other =>
      rw [stepped, ran] at alike
      exact alike
    | ok progress =>
      rw [stepped, ran] at alike
      exact alike.elim
  | case2 state last stepped =>
    obtain ⟨progress, ran, alike⟩ := (step_alike idle sound given tied).exists_ok stepped
    rw [resume_eq rules idle second, ran]
    cases progress with
    | running next => exact alike.elim
    | finished end' => exact alike
  | case3 state next stepped lighter ih =>
    obtain ⟨progress, ran, alike⟩ := (step_alike idle sound given tied).exists_ok stepped
    rw [resume_eq rules idle second, ran]
    cases progress with
    | finished end' => exact alike.elim
    | running after =>
      obtain ⟨kept, gives⟩ := (step_contents idle sound contents).of_ok stepped
      refine ih ((step_ensures excuses idle sound).of_ok stepped) kept ?_ alike
      intro cell member
      obtain ⟨range, listed, inside⟩ := given cell member
      exact ⟨range, gives.donated listed, inside⟩

end SmallJob

end Jobs

end RadixSort
