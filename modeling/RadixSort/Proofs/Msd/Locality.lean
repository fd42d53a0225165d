import RadixSort.Msd
import RadixSort.Proofs.Ensures
import RadixSort.Proofs.Memory
import RadixSort.Proofs.Partition.Cycle

/-!
# A sort reads no element but those of its input

Both arrays start out with the elements of the input, and whatever a task stores it has
read before or was given by the fallback, which makes up no elements. So nothing that a
digit rule would refuse matters unless it is in the input: a sort comes to the same end
under two rules that differ in what they refuse and agree on the elements of the input.

Two runs are followed side by side here. At every point they have come to the same state,
and both its arrays are drawn from the input.
-/
namespace RadixSort

variable {α β γ : Type} {radix : Nat}

/-- Two computations come to the same end, and if that is a result, it satisfies `post`. -/
def Coincide (post : β → Prop) (first second : Except Fault β) : Prop :=
  first = second ∧ Ensures (fun _ => True) first post

namespace Coincide

/-- A computation coincides with itself. -/
theorem refl {computation : Except Fault β} {post : β → Prop}
    (ensured : Ensures (fun _ => True) computation post) : Coincide post computation computation :=
  ⟨rfl, ensured⟩

/-- What follows may rely on what went before, which was the same. -/
theorem bind {first second : Except Fault β} {one other : β → Except Fault γ}
    {middle : β → Prop} {post : γ → Prop} (before : Coincide middle first second)
    (after : ∀ result, middle result → Coincide post (one result) (other result)) :
    Coincide post (first >>= one) (second >>= other) := by
  obtain ⟨rfl, ensured⟩ := before
  cases first with
  | ok result => exact after result ensured
  | error fault => exact ⟨rfl, trivial⟩

/-- Two computations that branch on one test coincide if their branches do. -/
theorem ite {test : Prop} [Decidable test] {one other two three : Except Fault β}
    {post : β → Prop} (holds : test → Coincide post one two)
    (fails : ¬test → Coincide post other three) :
    Coincide post (if test then one else other) (if test then two else three) := by
  split
  case isTrue yes => exact holds yes
  case isFalse no => exact fails no

/-- A result satisfies what is known of it. -/
theorem pure {result : β} {post : β → Prop} (holds : post result) :
    Coincide post (.ok result) (.ok result) :=
  ⟨rfl, holds⟩

end Coincide

/-- Where every fault is excused and nothing is asked of the result, there is nothing to show. -/
theorem Ensures.trivial {computation : Except Fault β} :
    Ensures (fun _ => True) computation fun _ => True := by
  cases computation with
  | ok result => exact True.intro
  | error fault => exact True.intro

section Values

variable {drawn : α → Prop}

/-- A cell that has been overwritten holds what it held or one of the values. -/
theorem mem_overwrite {cells : Array α} {start : Nat} {values : List α} {x : α}
    (member : x ∈ overwrite cells start values) : x ∈ cells ∨ x ∈ values := by
  induction values generalizing cells start with
  | nil => exact .inl member
  | cons value rest ih =>
    rcases ih member with stored | later
    · rcases Array.mem_or_eq_of_mem_setIfInBounds stored with old | rfl
      · exact .inl old
      · exact .inr List.mem_cons_self
    · exact .inr (List.mem_cons_of_mem _ later)

/-- A cell holds what it held before some writes, or a value that is written. -/
theorem mem_applyWrites {cells : Array α} {base : Nat} {writes : List (SlotWrite α)} {x : α}
    (member : x ∈ applyWrites cells base writes) : x ∈ cells ∨ ∃ write ∈ writes, write.2 = x := by
  induction writes generalizing cells with
  | nil => exact .inl member
  | cons write rest ih =>
    rcases ih member with stored | ⟨later, listed, rfl⟩
    · rcases Array.mem_or_eq_of_mem_setIfInBounds stored with old | rfl
      · exact .inl old
      · exact .inr ⟨write, List.mem_cons_self, rfl⟩
    · exact .inr ⟨later, List.mem_cons_of_mem _ listed, rfl⟩

/-- A scatter with rising cursors writes the elements it goes through. -/
theorem Scatter.mem_of_rising {key : α → Fin radix} {next : Vector Nat radix} {elements : List α}
    {write : SlotWrite α} (member : write ∈ rising key next elements) : write.2 ∈ elements := by
  induction elements generalizing next with
  | nil => cases member
  | cons x rest ih =>
    rcases List.mem_cons.mp member with rfl | later
    · exact List.mem_cons_self
    · exact List.mem_cons_of_mem _ (ih later)

/-- A scatter with falling cursors writes the elements it goes through. -/
theorem Scatter.mem_of_falling {key : α → Fin radix} {next last : Vector Nat radix}
    {elements : List α} {writes : List (SlotWrite α)}
    (ok : falling key next elements = .ok (writes, last)) :
    ∀ write ∈ writes, write.2 ∈ elements := by
  induction elements generalizing next writes with
  | nil =>
    cases ok
    simp
  | cons x rest ih =>
    obtain ⟨slot, -, later⟩ := bind_eq_ok.mp ok
    obtain ⟨⟨others, _⟩, ran, made⟩ := bind_eq_ok.mp later
    cases made
    intro write member
    rcases List.mem_cons.mp member with rfl | listed
    · exact List.mem_cons_self
    · exact List.mem_cons_of_mem _ (ih ran write listed)

namespace Memory

/-- Both arrays hold nothing but values of one kind. -/
def Drawn (drawn : α → Prop) (memory : Memory α) : Prop :=
  ∀ side, ∀ x ∈ memory.side side, drawn x

variable {memory : Memory α}

/-- Changing one array to values of the kind keeps both arrays of the kind. -/
theorem Drawn.modifySide (kept : memory.Drawn drawn) {side : Side} {change : Array α → Array α}
    (changed : ∀ x ∈ change (memory.side side), drawn x) :
    (memory.modifySide side change).Drawn drawn := by
  intro other x member
  rw [side_modifySide] at member
  split at member
  · exact changed x member
  · exact kept other x member

/-- What a window holds in either array is of the kind. -/
theorem Drawn.cells (kept : memory.Drawn drawn) (side : Side) (window : Window) :
    ∀ x ∈ (memory.cells side window).toList, drawn x := by
  intro x member
  obtain ⟨place, inside, rfl⟩ := Array.mem_extract_iff_getElem.mp (Array.mem_def.mpr member)
  exact kept side _ (Array.getElem_mem _)

/-- Storing values of the kind keeps both arrays of the kind. -/
theorem Drawn.fill (kept : memory.Drawn drawn) {side : Side} {window : Window} {values : List α}
    (given : ∀ x ∈ values, drawn x) : (memory.fill side window values).Drawn drawn := by
  apply kept.modifySide
  intro x member
  rcases mem_overwrite member with old | new
  · exact kept side x old
  · exact given x (List.mem_of_mem_take new)

/-- Copying back keeps both arrays of the kind. -/
theorem Drawn.copyBack (kept : memory.Drawn drawn) (window : Window) :
    (memory.copyBack window).Drawn drawn := by
  unfold Memory.copyBack
  split
  · exact kept.fill (kept.cells .scratch window)
  · exact kept

/-- Writing values of the kind to the shadow side keeps both arrays of the kind. -/
theorem Drawn.writeShadow (kept : memory.Drawn drawn) (window : Window)
    {writes : List (SlotWrite α)} (given : ∀ write ∈ writes, drawn write.2) :
    Ensures (fun _ => True) (memory.writeShadow window writes) (Drawn drawn) := by
  unfold Memory.writeShadow
  split
  · trivial
  · apply kept.modifySide
    intro x member
    rcases mem_applyWrites member with old | ⟨write, listed, rfl⟩
    · exact kept _ x old
    · exact given write listed

end Memory

end Values

/-- The rules with other refusals in the place of their own. -/
def Rules.refusing (rules : Rules α radix) (refusal? : α → Nat → Option Fault) : Rules α radix :=
  { rules with digits := { rules.digits with refusal? } }

section Runs

variable {drawn : α → Prop} {rules : Rules α radix} {refusal? : α → Nat → Option Fault}

/-- Elements on which two rules agree are read to the same end. -/
theorem DigitRule.readAll_coincide
    (agree : ∀ x depth, drawn x → rules.digits.refusal? x depth = refusal? x depth)
    {elements : List α} (given : ∀ x ∈ elements, drawn x) (depth : Nat) :
    Coincide (fun _ => True) (rules.digits.readAll elements depth)
      ((rules.refusing refusal?).digits.readAll elements depth) := by
  refine ⟨?_, Ensures.trivial⟩
  have same : elements.findSome? (rules.digits.refusal? · depth) =
      elements.findSome? (refusal? · depth) := by
    rw [← List.head?_filterMap, ← List.head?_filterMap]
    exact congrArg List.head?
      (List.filterMap_congr fun x member => agree x depth (given x member))
  rw [readAll, same]
  rfl

/-- Moving the elements of a range to their buckets moves nothing else into the arrays. -/
theorem Partitioned.move_drawn (inPlace : Bool) (key : α → Fin radix) {memory : Memory α}
    (kept : memory.Drawn drawn) (window : Window) :
    Ensures (fun _ => True)
      (move inPlace key (histogram key (memory.active window).toList) memory window)
      fun moved => moved.1.Drawn drawn := by
  have held := kept.cells window.activeSide window
  unfold move
  cases inPlace with
  | true =>
    refine (Cycle.partition_ensures key (memory.active window) (.inr trivial)).bind ?_
    rintro permuted ⟨same, -⟩
    exact kept.fill fun x member => held x (same.mem_iff.mp member)
  | false =>
    refine Ensures.trivial.bind fun layout _ => ?_
    refine (Scatter.checkedRising_ensures key layout.starts (memory.active window).toList
      (.inr trivial)).bind ?_
    rintro writes rfl
    refine (kept.writeShadow _ fun write member => held _ (Scatter.mem_of_rising member)).bind ?_
    intro written still
    refine Ensures.trivial.bind fun flipped _ => ?_
    exact still.copyBack flipped

section

variable (agree : ∀ x depth, drawn x → rules.digits.refusal? x depth = refusal? x depth)
  (keeps : ∀ elements sorted, rules.fallback elements = .ok sorted → ∀ x ∈ sorted, x ∈ elements)

include agree in
/-- A range is partitioned to the same end. -/
theorem Partitioned.ofRange_coincide {memory : Memory α} (kept : memory.Drawn drawn)
    (window : Window) (depth : Nat) :
    Coincide (fun partitioned => partitioned.memory.Drawn drawn)
      (ofRange rules.digits rules.settings.inPlace memory window depth)
      (ofRange (rules.refusing refusal?).digits rules.settings.inPlace memory window depth) := by
  have held := kept.cells window.activeSide window
  refine (DigitRule.readAll_coincide agree held depth).bind fun _ _ => .refl ?_
  refine (checkedHistogram_ensures _ (.inr trivial)).bind ?_
  rintro sizes rfl
  refine (move_drawn _ _ kept window).bind fun moved still => ?_
  refine Ensures.trivial.bind fun layout _ => ?_
  split
  · exact still
  · trivial

include keeps in
/-- Finishing a range by comparison brings no new elements into the arrays. -/
theorem Work.finish_drawn {work : Work α} (kept : work.memory.Drawn drawn) (window : Window) :
    Ensures (fun _ => True) (work.finish rules window)
      fun finished => finished.memory.Drawn drawn := by
  unfold Work.finish
  cases ran : rules.fallback (work.memory.active window).toList with
  | error fault => trivial
  | ok sorted =>
    exact kept.fill fun x member => kept.cells _ window x (keeps _ _ ran x member)

namespace SmallJob

include agree in
/-- A range is entered to the same end. -/
theorem enter_coincide {state : State α} (kept : state.work.memory.Drawn drawn) (window : Window)
    (depth : Nat) : Coincide (fun next => next.work.memory.Drawn drawn)
      (enter rules state window depth)
      (enter (rules.refusing refusal?) state window depth) := by
  refine (Partitioned.ofRange_coincide agree kept window depth).bind fun partitioned still => ?_
  exact .refl (Ensures.trivial.bind fun frame _ => still)

include agree keeps in
/-- A bucket is handled to the same end. -/
theorem handle_coincide {state : State α} (kept : state.work.memory.Drawn drawn) (window : Window)
    (depth : Nat) : Coincide (fun next => next.work.memory.Drawn drawn)
      (handle rules state window depth)
      (handle (rules.refusing refusal?) state window depth) := by
  refine .ite (fun ends => .refl ?_) fun large => enter_coincide agree kept window depth
  exact (Work.finish_drawn keeps kept window).bind fun finished still => still

/-- Giving a frame away touches neither array. -/
theorem giveAway_memory (settings : Settings) (frame : Frame) (buckets : List Bucket)
    (work : Work α) : Ensures (fun _ => True) (giveAway settings frame buckets work)
      fun given => given.2.memory = work.memory := by
  induction buckets generalizing work with
  | nil => rfl
  | cons bucket rest ih =>
    refine Ensures.trivial.bind fun window _ => ?_
    split
    · exact ih _
    · exact (ih _).bind fun given same => same

/-- Giving work away touches neither array. -/
theorem share_memory (settings : Settings) (idle : Nat → Bool) (state : State α) :
    Ensures (fun _ => True) (share settings idle state)
      fun next => next.work.memory = state.work.memory := by
  unfold share
  split
  · dsimp only
    split
    · unfold dissolve
      split
      · dsimp only
        split
        · exact (giveAway_memory settings _ _ state.work).bind fun given same => same
        · trivial
      · trivial
    · rfl
  · rfl

/-- What a job is after a step has arrays of the kind. -/
def Progress.Drawn (drawn : α → Prop) : Progress α → Prop
  | .running state => state.work.memory.Drawn drawn
  | .finished state => state.work.memory.Drawn drawn

include agree keeps in
/-- A step of a job comes to the same end. -/
theorem step_coincide (idle : Nat → Bool) {state : State α}
    (kept : state.work.memory.Drawn drawn) :
    Coincide (Progress.Drawn drawn) (step rules idle state)
      (step (rules.refusing refusal?) idle state) := by
  unfold step
  cases state.stack with
  | nil => exact .pure kept
  | cons top below =>
    dsimp only
    cases top.remaining with
    | nil =>
      refine .pure ?_
      split <;> exact kept
    | cons bucket remaining =>
      refine (Coincide.refl Ensures.trivial).bind fun window _ => ?_
      refine .ite (fun single => .pure kept) fun several => ?_
      refine (handle_coincide agree keeps (by exact kept) window _).bind fun handled still => ?_
      refine .refl ((share_memory rules.settings idle handled).bind fun shared same => ?_)
      change shared.work.memory.Drawn drawn
      rw [same]
      exact still

/-- A job goes on from what a step makes of it. -/
theorem resume_eq (rules : Rules α radix) (idle : Nat → Bool) (state : State α) :
    resume rules idle state = step rules idle state >>= fun
      | .finished last => .ok last
      | .running next => resume rules idle next := by
  rw [resume]
  split
  case h_1 fault stepped =>
    rw [stepped]
    rfl
  case h_2 last stepped =>
    rw [stepped]
    rfl
  case h_3 next stepped =>
    change resume rules idle next = _
    rw [stepped]
    rfl

include agree keeps in
/-- A job that goes on until it has finished comes to the same end. -/
theorem resume_coincide (idle : Nat → Bool) {state : State α}
    (kept : state.work.memory.Drawn drawn) :
    Coincide (fun last => last.work.memory.Drawn drawn) (resume rules idle state)
      (resume (rules.refusing refusal?) idle state) := by
  fun_induction resume rules idle state with
  | case1 state fault stepped =>
    obtain ⟨same, -⟩ := step_coincide agree keeps idle kept
    -- The induction has opened one side; `resume_eq` opens the other.
    rw [resume_eq (rules.refusing refusal?) _ state, ← same, stepped]
    exact ⟨rfl, trivial⟩
  | case2 state last stepped =>
    obtain ⟨same, still⟩ := step_coincide agree keeps idle kept
    rw [stepped] at same still
    rw [resume_eq (rules.refusing refusal?) _ state, ← same]
    exact .pure still
  | case3 state next stepped lighter ih =>
    obtain ⟨same, still⟩ := step_coincide agree keeps idle kept
    rw [stepped] at same still
    rw [resume_eq (rules.refusing refusal?) idle state, ← same]
    exact ih still

include agree keeps in
/-- A job comes to the same end. -/
theorem run_coincide (idle : Nat → Bool) (job : Job) {work : Work α}
    (kept : work.memory.Drawn drawn) :
    Coincide (fun ended => ended.1.memory.Drawn drawn) (run rules idle job work)
      (run (rules.refusing refusal?) idle job work) := by
  let settled : Work α := { work with memory := work.memory.copyBack job.window }
  have still : settled.memory.Drawn drawn := kept.copyBack job.window
  refine .ite (fun ends => .refl ?_) fun large => ?_
  · exact (Work.finish_drawn keeps still job.window.settled).bind fun finished held => held
  · refine (enter_coincide agree still job.window.settled job.depth).bind fun entered held => ?_
    exact (resume_coincide agree keeps idle held).bind fun last held => .pure held

end SmallJob

namespace RadixStep

/-- The elements of a chunk are of the kind. -/
theorem elements_drawn {memory : Memory α} (kept : memory.Drawn drawn) (step : RadixStep radix)
    (part : Nat) : Ensures (fun _ => True) (step.elements memory part)
      fun elements => ∀ x ∈ elements, drawn x := by
  refine Ensures.trivial.bind fun range _ => ?_
  refine Ensures.trivial.known.bind ?_
  rintro cells ⟨cut, -⟩ x member
  obtain ⟨-, -, rfl⟩ := part_eq_ok_iff.mp cut
  have inside := Array.mem_extract_iff_getElem.mp (Array.mem_def.mpr member)
  obtain ⟨place, within, rfl⟩ := inside
  exact kept.cells _ step.window _ (Array.mem_def.mp (Array.getElem_mem _))

include agree in
/-- A chunk is counted to the same end. -/
theorem count_coincide {memory : Memory α} (kept : memory.Drawn drawn) (step : RadixStep radix)
    (part : Nat) : Coincide (fun _ => True) (step.count rules.digits memory part)
      (step.count (rules.refusing refusal?).digits memory part) := by
  refine (Coincide.refl (elements_drawn kept step part)).bind fun elements given => ?_
  exact (DigitRule.readAll_coincide agree given step.depth).bind fun _ _ =>
    .refl Ensures.trivial

include agree in
/-- A chunk is scattered to the same end. -/
theorem distribute_coincide {memory : Memory α} (kept : memory.Drawn drawn)
    (step : RadixStep radix) (part : Nat) :
    Coincide (fun scattered => scattered.2.Drawn drawn)
      (step.distribute rules.digits memory part)
      (step.distribute (rules.refusing refusal?).digits memory part) := by
  refine (Coincide.refl (elements_drawn kept step part)).bind fun elements given => ?_
  refine (DigitRule.readAll_coincide agree given step.depth).bind fun _ _ => .refl ?_
  split
  · trivial
  · rename_i ends found
    cases ran : Scatter.falling (rules.digits.digit · step.depth) ends elements with
    | error fault => trivial
    | ok result =>
      have written := kept.writeShadow step.window fun write member =>
        given _ (Scatter.mem_of_falling ran write member)
      refine written.bind fun memory still => ?_
      dsimp only
      split
      · exact Ensures.trivial.bind fun scattered _ => still
      · exact still

end RadixStep

namespace Engine

/-- Making the tasks of a range touches neither array. -/
theorem dispatch_memory (rules : Rules α radix) (settled : Job → Nat) (engine : Engine α radix)
    (job : Job) : Ensures (fun _ => True) (dispatch rules settled engine job)
      fun made => made.1.work.memory = engine.work.memory := by
  unfold dispatch
  split
  · exact Ensures.trivial.bind fun step _ => rfl
  · rfl

/-- Dispatching the buckets of a range asks for no digit and finishes nothing, so rules that
differ in nothing else dispatch them alike. -/
theorem dispatchBuckets_congr (rules other : Rules α radix)
    (settings : rules.settings = other.settings) (depths : rules.maxDepth = other.maxDepth)
    (settled : Job → Nat) (window : Window) (depth : Nat) (buckets : List Bucket)
    (engine : Engine α radix) : dispatchBuckets rules settled window depth buckets engine =
      dispatchBuckets other settled window depth buckets engine := by
  obtain ⟨own, digits, fallback, maxDepth⟩ := rules
  obtain ⟨_, _, _, _⟩ := other
  cases settings
  cases depths
  induction buckets generalizing engine with
  | nil => rfl
  | cons bucket rest ih =>
    rw [dispatchBuckets, dispatchBuckets]
    simp only [ih]
    rfl

/-- Dispatching the buckets of a range brings no new elements into the arrays. -/
theorem dispatchBuckets_drawn (rules : Rules α radix) (settled : Job → Nat) (window : Window)
    (depth : Nat) (buckets : List Bucket) {engine : Engine α radix}
    (kept : engine.work.memory.Drawn drawn) :
    Ensures (fun _ => True) (dispatchBuckets rules settled window depth buckets engine)
      fun made => made.1.work.memory.Drawn drawn := by
  induction buckets generalizing engine with
  | nil => exact kept
  | cons bucket rest ih =>
    refine Ensures.trivial.bind fun part _ => ?_
    split
    · exact ih (kept.copyBack part)
    · refine (dispatch_memory rules settled engine ⟨part, depth + 1⟩).bind fun made same => ?_
      have held : made.1.work.memory.Drawn drawn := same.symm ▸ kept
      exact (ih held).bind fun later still => still

include agree keeps in
/-- A task is executed to the same end. -/
theorem perform_coincide (news : News) (task : EngineTask) {engine : Engine α radix}
    (kept : engine.work.memory.Drawn drawn) :
    Coincide (fun made => made.1.work.memory.Drawn drawn) (perform rules news task engine)
      (perform (rules.refusing refusal?) news task engine) := by
  cases task with
  | small job =>
    exact (SmallJob.run_coincide agree keeps news.idle job (by exact kept)).bind fun ended held =>
      .pure held
  | count number part =>
    refine (Coincide.refl Ensures.trivial).bind fun step _ => ?_
    refine (RadixStep.count_coincide agree kept step part).bind fun counted _ => .refl ?_
    split
    · exact Ensures.trivial.bind fun laidOut _ => kept
    · exact kept
  | distribute number part =>
    refine (Coincide.refl Ensures.trivial).bind fun step _ => ?_
    refine (RadixStep.distribute_coincide agree kept step part).bind fun scattered held => ?_
    refine .ite (fun last => ?_) fun more => .pure held
    refine (Coincide.refl Ensures.trivial).bind fun buckets _ => ?_
    exact ⟨dispatchBuckets_congr rules (rules.refusing refusal?) rfl rfl news.settled step.window
      step.depth buckets _,
      dispatchBuckets_drawn rules news.settled step.window step.depth buckets held⟩

end Engine

namespace Msd

open Engine

include agree keeps in
/-- Any number of tasks is executed to the same end. -/
theorem serve_refusing (schedule : Schedule) (count turn : Nat) (pool : Pool EngineTask)
    {engine : Engine α radix} (kept : engine.work.memory.Drawn drawn) :
    Pool.serve (execute rules schedule) schedule.pick count turn pool engine =
      Pool.serve (execute (rules.refusing refusal?) schedule) schedule.pick count turn pool
        engine := by
  induction count generalizing turn pool engine with
  | zero => rfl
  | succ count ih =>
    rw [Pool.serve, Pool.serve]
    cases took : pool.take? (schedule.pick turn % pool.queue.length) with
    | none => rfl
    | some taken =>
      obtain ⟨task, rest⟩ := taken
      obtain ⟨same, held⟩ := perform_coincide agree keeps (schedule.news turn) task kept
      dsimp only [execute, carryOut]
      rw [← same]
      cases ran : perform rules (schedule.news turn) task engine with
      | error fault => rfl
      | ok next => exact ih (turn + 1) _ (held.of_ok ran)

include agree keeps in
/-- The tasks of a sort are executed to the same end. -/
theorem serveTasks_refusing (schedule : Schedule) (count : Nat) {data : Array α}
    (given : ∀ x ∈ data, drawn x) :
    serveTasks rules schedule count data =
      serveTasks (rules.refusing refusal?) schedule count data := by
  have fresh : (fresh data : Engine α radix).work.memory.Drawn drawn := by
    intro side x member
    cases side <;> exact given x member
  have dispatched := dispatch_memory rules (fun _ => 0) (Engine.fresh data)
    ⟨Window.whole data.size, 0⟩
  suffices same : Coincide (fun _ => True) (serveTasks rules schedule count data)
      (serveTasks (rules.refusing refusal?) schedule count data) from same.1
  refine (Coincide.refl Ensures.trivial).bind fun pool _ => ?_
  refine (Coincide.refl dispatched).bind fun made untouched => ?_
  have kept : made.1.work.memory.Drawn drawn := by
    rw [untouched]
    exact fresh
  exact ⟨congrArg Except.ok (serve_refusing agree keeps schedule count 0 _ kept), trivial⟩

/-- A sort comes to the same end under a rule that refuses the same elements of the input:
it meets no others. -/
theorem sort_refusing {data : Array α}
    (agree : ∀ x depth, x ∈ data → rules.digits.refusal? x depth = refusal? x depth)
    (keeps : ∀ elements sorted, rules.fallback elements = .ok sorted → ∀ x ∈ sorted, x ∈ elements)
    (resources : Resources) (schedule : Schedule) :
    sort rules resources schedule data =
      sort (rules.refusing refusal?) resources schedule data := by
  have served := serveTasks_refusing agree keeps schedule (allowance data.size rules.maxDepth)
    fun _ member => member
  have started : sortStarted rules schedule data =
      sortStarted (rules.refusing refusal?) schedule data := congrArg (· >>= _) served
  unfold sort
  rw [← started]
  rfl

end Msd

end

end Runs

end RadixSort
