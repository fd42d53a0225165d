import RadixSort.Proofs.Engine.Pieces
import RadixSort.Proofs.Engine.SmallJob

/-!
# The ranges that a job comes down to

A job takes a bucket of its range, a bucket of that bucket, and so on, one digit deeper
every time. Where such a range lies and which elements belong to it follows from the
digits alone, and before the range itself is touched it holds these elements. So do the
buckets that a job has not taken yet and those it has given away, at any time.
-/
namespace RadixSort

open Recursion

variable {α : Type} {radix : Nat}

/-- Grouping elements is grouping them as one chunk. -/
theorem Recursion.group_eq_buckets (key : α → Fin radix) (elements : List α) :
    group key elements = Shares.buckets id key [elements] := by
  simp [group, Shares.buckets]

namespace Bucket

variable {key : α → Fin radix} {elements : List α}

/-- The buckets that are filled are those of the digits that elements have. -/
theorem mem_filled {bucket : Bucket} : bucket ∈ filled key elements ↔ ∃ digit : Fin radix,
    elements.countP (key · = digit) ≠ 0 ∧
      bucket = ⟨elements.countP fun x => (key x).val < digit.val,
        elements.countP (key · = digit)⟩ := by
  simp only [filled, List.mem_filterMap, List.mem_finRange, true_and]
  refine exists_congr fun digit => ?_
  split <;> simp_all [eq_comm]

/-- Rearranging the elements fills the same buckets. -/
theorem filled_perm {other : List α} (same : elements.Perm other) :
    filled key elements = filled key other := by
  rw [filled, filled]
  simp only [same.countP_eq]

/-- The groups of elements, taken as blocks, are the buckets that are filled. -/
theorem ofBlocks_group (key : α → Fin radix) (elements : List α) :
    ofBlocks 0 (group key elements) = filled key elements := by
  have lengths (share : List α) : (id share).length = share.length := rfl
  rw [group_eq_buckets, Shares.ofBlocks_buckets lengths, List.flatten_singleton]

/-- Where a range holds groups of elements, each bucket holds the elements with its digit. -/
theorem held_part {memory : Memory α} {window : Window}
    (held : memory.held window = (group key elements).flatten) (digit : Fin radix) :
    memory.held (window.part ⟨elements.countP fun x => (key x).val < digit.val,
      elements.countP (key · = digit)⟩) = elements.filter (key · = digit) := by
  have lengths (share : List α) : (id share).length = share.length := rfl
  have stored : ∀ slot < (Shares.buckets id key [elements]).flatten.length,
      (memory.side window.activeSide)[window.offset + slot]? =
        (Shares.buckets id key [elements]).flatten[slot]? := by
    intro slot inside
    rw [← group_eq_buckets, ← held] at inside ⊢
    exact getElem?_eq_slice inside
  have part := Shares.slice_bucket lengths stored digit
  rw [List.flatten_singleton, List.flatMap_singleton] at part
  exact part

end Bucket

/-- The range that a frame divides. -/
def Frame.range (frame : Frame) : Job := ⟨frame.window, frame.depth⟩

/-- The range of a bucket of a frame, one digit deeper. -/
def Frame.child (frame : Frame) (bucket : Bucket) : Job :=
  ⟨frame.window.part bucket, frame.depth + 1⟩

/-- What is given away of a frame. A bucket of one element is not. -/
def Frame.away (frame : Frame) : List Job :=
  (frame.remaining.filter (·.length ≠ 1)).map frame.child

/-- A range that a job comes down to, and the elements that belong to it. -/
inductive Descends (digit : α → Nat → Fin radix) (job : Job) (elements : List α) :
    Job → List α → Prop
  | whole : Descends digit job elements ⟨job.window.settled, job.depth⟩ elements
  | bucket {range : Job} {members : List α} (above : Descends digit job elements range members)
      (taken : Fin radix) : Descends digit job elements
        ⟨range.window.part ⟨members.countP fun x => (digit x range.depth).val < taken.val,
          members.countP (digit · range.depth = taken)⟩, range.depth + 1⟩
        (members.filter (digit · range.depth = taken))

/-- If the elements of a job have all digits before its depth in common, those of a range that
it comes down to have all digits before the depth of the range in common. -/
theorem Descends.uniform {digit : α → Nat → Fin radix} {job range : Job}
    {elements members : List α} (descends : Descends digit job elements range members)
    (uniform : Uniform digit job.depth elements) : Uniform digit range.depth members := by
  induction descends with
  | whole => exact uniform
  | bucket above taken ih => exact ih.filter taken

/-- The memory holds, in a range that a job comes down to, the elements that belong there. -/
def Holds (digit : α → Nat → Fin radix) (job : Job) (elements : List α) (memory : Memory α)
    (range : Job) : Prop :=
  ∃ members, Descends digit job elements range members ∧
    (memory.held range.window).Perm members

/-- A frame divides a range that the job comes down to, and what is left of it are the last
of its buckets. -/
def Divides (digit : α → Nat → Fin radix) (job : Job) (elements : List α) (frame : Frame) :
    Prop :=
  ∃ members, Descends digit job elements frame.range members ∧
    frame.remaining <:+ Bucket.filled (digit · frame.depth) members

/-- A range that a job may finish: one that it comes down to, and that has one element or
goes to the fallback. -/
def Due (rules : Rules α radix) (job : Job) (elements : List α) (window : Window) : Prop :=
  ∃ level members, Descends rules.digits.digit job elements ⟨window, level⟩ members ∧
    (window.length = 1 ∨ rules.Ends window.length level)

/-- A change within another range leaves a range its elements. -/
theorem Holds.undisturbed {digit : α → Nat → Fin radix} {job : Job} {elements : List α}
    {memory after : Memory α} {window : Window} {range : Job}
    (holds : Holds digit job elements memory range)
    (change : Memory.Elsewhere window memory after)
    (apart : ∀ cell ∈ range.window.slots, cell ∉ window.slots) :
    Holds digit job elements after range := by
  obtain ⟨members, descends, held⟩ := holds
  exact ⟨members, descends, (change.held_eq apart).symm ▸ held⟩

/-- What a range that holds its elements has in common. -/
theorem Holds.uniform {digit : α → Nat → Fin radix} {job range : Job} {elements : List α}
    {memory : Memory α} (holds : Holds digit job elements memory range)
    (uniform : Uniform digit job.depth elements) :
    Uniform digit range.depth (memory.held range.window) := by
  obtain ⟨members, descends, held⟩ := holds
  exact (descends.uniform uniform).mono fun x member => held.mem_iff.mp member

namespace SmallJob

/-- The ranges that are still to be sorted: the buckets that are left of the frames, and what
has been given away. -/
def openRanges (state : State α) : List Job :=
  state.stack.flatMap (fun frame => frame.remaining.map frame.child) ++ state.donated

/-- Every open range holds its elements, and every range that has been finished since the
job found the work was due. -/
structure Contents (rules : Rules α radix) (job : Job) (found : Work α) (state : State α) :
    Prop where
  frames : ∀ frame ∈ state.stack,
    Divides rules.digits.digit job (found.memory.held job.window) frame
  ranges : ∀ range ∈ openRanges state,
    Holds rules.digits.digit job (found.memory.held job.window) state.work.memory range
  settled : ∃ settled, state.work.finished = settled ++ found.finished ∧
    ∀ window ∈ settled, Due rules job (found.memory.held job.window) window

/-- What a step gives away: nothing, or what is left of one frame, which is the coarsest one
that was still the job's own. -/
def Gives (digit : α → Nat → Fin radix) (job : Job) (elements : List α) (state next : State α) :
    Prop :=
  next.dissolved = state.dissolved ∧ next.donated = state.donated ∨
    ∃ frame, Divides digit job elements frame ∧
      next.stack[next.stack.length - 1 - state.dissolved]? = some { frame with remaining := [] } ∧
      next.dissolved = state.dissolved + 1 ∧ next.donated = state.donated ++ frame.away

variable {rules : Rules α radix} {digit : α → Nat → Fin radix} {job : Job} {elements : List α}
  {found : Work α} {state : State α} {excused : Fault → Prop} {total depth : Nat}
  {assignment : Assignment α}

theorem mem_openRanges {range : Job} : range ∈ openRanges state ↔
    (∃ frame ∈ state.stack, ∃ bucket ∈ frame.remaining, frame.child bucket = range) ∨
      range ∈ state.donated := by
  simp [openRanges]

/-- The open ranges are those that the job still owes something for. -/
theorem obligations_eq (rules : Rules α radix) (state : State α) :
    obligations rules state = (openRanges state).map (Job.obligation rules) := by
  rw [obligations, openRanges, List.map_append, List.map_flatMap]
  simp only [List.map_map]
  rfl

/-- What has been given away stays given away. -/
theorem Gives.donated {next : State α} (gives : Gives digit job elements state next)
    {range : Job} (listed : range ∈ state.donated) : range ∈ next.donated := by
  rcases gives with ⟨-, same⟩ | ⟨frame, -, -, -, more⟩
  · exact same ▸ listed
  · exact more ▸ List.mem_append_left _ listed

/-- A range that is owed has no slot in common with an open one. -/
theorem Sound.apart {obligation : Obligation α}
    (sound : Sound rules total depth assignment [obligation] state) {range : Job}
    (member : range ∈ openRanges state) :
    ∀ cell ∈ range.window.slots, cell ∉ obligation.window.slots := by
  obtain ⟨settled, counts, underway⟩ := sound.underway
  refine underway.ledger.apart.1 (range.obligation rules) ?_
  change range.obligation rules ∈ obligations rules state
  rw [obligations_eq]
  exact List.mem_map_of_mem member

/-- What is given away of a frame. The buckets of one element are finished, and the memory
stays as it is. -/
theorem giveAway_exact (settings : Settings) (frame : Frame) (buckets : List Bucket)
    (work : Work α) : Ensures (fun _ => True) (giveAway settings frame buckets work)
      fun given => given.1 = (buckets.filter (·.length ≠ 1)).map frame.child ∧
        given.2.memory = work.memory ∧ ∃ singles, given.2.finished = singles ++ work.finished ∧
          ∀ window ∈ singles, ∃ bucket ∈ buckets,
            bucket.length = 1 ∧ frame.window.part bucket = window := by
  induction buckets generalizing work with
  | nil => exact ⟨rfl, rfl, [], rfl, by simp⟩
  | cons bucket rest ih =>
    have part : Ensures (fun _ => True) (frame.window.sub bucket.start bucket.length)
        (· = frame.window.part bucket) := by
      cases narrowed : frame.window.sub bucket.start bucket.length with
      | ok window => exact (Window.sub_eq_ok_iff.mp narrowed).2.2
      | error fault => trivial
    refine part.bind ?_
    rintro window rfl
    by_cases single : bucket.length = 1
    · rw [if_pos single, List.filter_cons_of_neg (by simpa using single)]
      refine (ih _).mono ?_
      rintro ⟨jobs, after⟩ ⟨rfl, same, singles, finished, each⟩
      refine ⟨rfl, same, singles ++ [frame.window.part bucket], ?_, ?_⟩
      · rw [List.append_assoc]
        exact finished
      · intro window member
        rcases List.mem_append.mp member with later | own
        · obtain ⟨other, listed, one⟩ := each window later
          exact ⟨other, List.mem_cons_of_mem bucket listed, one⟩
        · exact ⟨bucket, List.mem_cons_self, single, (List.mem_singleton.mp own).symm⟩
    · rw [if_neg single, List.filter_cons_of_pos (by simpa using single)]
      refine (ih _).bind ?_
      rintro ⟨jobs, after⟩ ⟨rfl, same, singles, finished, each⟩
      refine ⟨rfl, same, singles, finished, fun window member => ?_⟩
      obtain ⟨other, listed, one⟩ := each window member
      exact ⟨other, List.mem_cons_of_mem bucket listed, one⟩

/-- Finishing ranges that are due keeps the account of the finished ranges. -/
theorem Contents.settle (contents : Contents rules job found state) (singles : List Window)
    (due : ∀ window ∈ singles, Due rules job (found.memory.held job.window) window) :
    ∃ settled, singles ++ state.work.finished = settled ++ found.finished ∧
      ∀ window ∈ settled, Due rules job (found.memory.held job.window) window := by
  obtain ⟨settled, finished, each⟩ := contents.settled
  refine ⟨singles ++ settled, ?_, ?_⟩
  · rw [finished, List.append_assoc]
  · intro window member
    exact (List.mem_append.mp member).elim (due window) (each window)

/-- Dissolving a frame keeps the contents, and what is given away is what is left of the
coarsest frame. -/
theorem dissolve_contents (contents : Contents rules job found state) :
    Ensures (fun _ => True) (dissolve rules.settings state) fun next =>
      Contents rules job found next ∧
        Gives rules.digits.digit job (found.memory.held job.window) state next := by
  unfold dissolve
  split
  · dsimp only
    split
    · rename_i frame here
      have member := List.mem_of_getElem? here
      have divides := contents.frames frame member
      have left {bucket : Bucket} (listed : bucket ∈ frame.remaining) :
          frame.child bucket ∈ openRanges state :=
        mem_openRanges.mpr (.inl ⟨frame, member, bucket, listed, rfl⟩)
      refine (giveAway_exact rules.settings frame frame.remaining state.work).bind ?_
      rintro ⟨jobs, work⟩ ⟨rfl, same, singles, finished, each⟩
      have inside := (List.getElem?_eq_some_iff.mp here).1
      refine ⟨⟨?_, ?_, ?_⟩, .inr ⟨frame, divides, ?_, rfl, rfl⟩⟩
      · intro other member
        rcases List.mem_or_eq_of_mem_set member with old | rfl
        · exact contents.frames other old
        · obtain ⟨members, descends, -⟩ := divides
          exact ⟨members, descends, List.nil_suffix⟩
      · intro range member
        refine same.symm ▸ contents.ranges range ?_
        rcases mem_openRanges.mp member with ⟨other, listed, bucket, rest, rfl⟩ | given
        · rcases List.mem_or_eq_of_mem_set listed with old | rfl
          · exact mem_openRanges.mpr (.inl ⟨other, old, bucket, rest, rfl⟩)
          · cases rest
        · rcases List.mem_append.mp given with old | new
          · exact mem_openRanges.mpr (.inr old)
          · obtain ⟨bucket, listed, rfl⟩ := List.mem_map.mp new
            exact left (List.mem_filter.mp listed).1
      · rw [finished]
        refine contents.settle singles fun window member => ?_
        obtain ⟨bucket, listed, single, rfl⟩ := each window member
        obtain ⟨members, descends, -⟩ := contents.ranges _ (left listed)
        exact ⟨_, members, descends, .inl single⟩
      · rw [List.length_set]
        exact List.getElem?_set_self inside
    · trivial
  · trivial

/-- Asking for an idle worker keeps the contents, and gives away what is left of the coarsest
frame at most. -/
theorem share_contents (idle : Nat → Bool) (contents : Contents rules job found state) :
    Ensures (fun _ => True) (share rules.settings idle state) fun next =>
      Contents rules job found next ∧
        Gives rules.digits.digit job (found.memory.held job.window) state next := by
  have answered : Contents rules job found { state with asked := state.asked + 1 } :=
    ⟨contents.frames, contents.ranges, contents.settled⟩
  unfold share
  split
  · dsimp only
    split
    · exact dissolve_contents answered
    · exact ⟨answered, .inl ⟨rfl, rfl⟩⟩
  · exact ⟨contents, .inl ⟨rfl, rfl⟩⟩

/-- Entering a range makes a frame of it, whose buckets hold their elements. -/
theorem enter_contents (contents : Contents rules job found state)
    {window : Window} {level : Nat} (primary : window.flipped = false)
    (spans : state.work.memory.Spans window)
    (holds : Holds rules.digits.digit job (found.memory.held job.window) state.work.memory
      ⟨window, level⟩)
    (apart : ∀ range ∈ openRanges state, ∀ cell ∈ range.window.slots, cell ∉ window.slots) :
    Ensures (fun _ => True) (enter rules state window level) fun entered =>
      Contents rules job found entered ∧ entered.dissolved = state.dissolved ∧
        entered.donated = state.donated := by
  obtain ⟨members, descends, held⟩ := holds
  refine (Partitioned.ofRange_ensures rules.digits rules.settings.inPlace level spans primary
    (.inr trivial) fun _ _ _ => trivial).bind ?_
  rintro partitioned ⟨-, groups⟩
  refine (Ensures.of_eq_ok (Partitioned.frame_exact groups level) rfl).bind ?_
  rintro frame rfl
  let key := (rules.digits.digit · level)
  let arranged := arrange rules.settings.inPlace key (state.work.memory.held window)
  have same : arranged.Perm members := (arrange_perm _ _ _).trans held
  have buckets : Bucket.ofBlocks 0 (group key arranged) = Bucket.filled key members :=
    (Bucket.ofBlocks_group key arranged).trans (Bucket.filled_perm same)
  have others : ∀ range ∈ openRanges state,
      Holds rules.digits.digit job (found.memory.held job.window) partitioned.memory range :=
    fun range member =>
      (contents.ranges range member).undisturbed groups.elsewhere (apart range member)
  refine ⟨⟨?_, ?_, contents.settled⟩, rfl, rfl⟩
  · intro other member
    rcases List.mem_cons.mp member with rfl | old
    · exact ⟨members, descends, buckets ▸ List.suffix_rfl⟩
    · exact contents.frames other old
  · intro range member
    rcases mem_openRanges.mp member with ⟨frame, listed, bucket, left, rfl⟩ | given
    · rcases List.mem_cons.mp listed with rfl | old
      · obtain ⟨taken, -, rfl⟩ := Bucket.mem_filled.mp (buckets ▸ left)
        refine ⟨_, descends.bucket taken, ?_⟩
        have kept := Bucket.held_part groups.held taken
        rw [same.countP_eq, same.countP_eq] at kept
        rw [Frame.child, kept]
        exact same.filter _
      · exact others _ (mem_openRanges.mpr (.inl ⟨frame, old, bucket, left, rfl⟩))
    · exact others _ (mem_openRanges.mpr (.inr given))

/-- Handling a bucket changes nothing but the bucket and what is entered of it. -/
theorem handle_contents (contents : Contents rules job found state)
    {window : Window} {level : Nat} (primary : window.flipped = false) (some : 0 < window.length)
    (sound : Sound rules total depth assignment
      [⟨window, fun elements result => JobSorts rules elements level result⟩] state)
    (holds : Holds rules.digits.digit job (found.memory.held job.window) state.work.memory
      ⟨window, level⟩) :
    Ensures (fun _ => True) (handle rules state window level) fun handled =>
      Contents rules job found handled ∧ handled.dissolved = state.dissolved ∧
        handled.donated = state.donated := by
  have apart (range : Job) (member : range ∈ openRanges state) := sound.apart member
  unfold handle
  split
  · rename_i ends
    unfold Work.finish
    cases rules.fallback (state.work.memory.active window).toList with
    | error fault => trivial
    | ok sorted =>
      refine ⟨⟨contents.frames, fun range member => ?_, ?_⟩, rfl, rfl⟩
      · exact (contents.ranges range member).undisturbed
          (Memory.elsewhere_fillActive state.work.memory window sorted) (apart range member)
      · obtain ⟨members, descends, -⟩ := holds
        refine contents.settle [window] fun other member => ?_
        cases List.mem_singleton.mp member
        exact ⟨level, members, descends, .inr ends⟩
  · obtain ⟨settled, counts, underway⟩ := sound.underway
    have spans := underway.spans_of_mem List.mem_cons_self some
    exact enter_contents contents primary spans holds apart

/-- The next bucket of a frame holds its elements, and so do those that are left. -/
theorem Contents.take (contents : Contents rules job found state) {top : Frame}
    {below : List Frame} {bucket : Bucket} {remaining : List Bucket}
    (stacked : state.stack = top :: below) (unsorted : top.remaining = bucket :: remaining) :
    Contents rules job found { state with stack := { top with remaining } :: below } ∧
      Holds rules.digits.digit job (found.memory.held job.window) state.work.memory
        (top.child bucket) := by
  have here : top ∈ state.stack := stacked ▸ List.mem_cons_self
  have others {frame : Frame} (member : frame ∈ below) : frame ∈ state.stack :=
    stacked ▸ List.mem_cons_of_mem top member
  refine ⟨⟨?_, ?_, contents.settled⟩, ?_⟩
  · intro frame member
    rcases List.mem_cons.mp member with rfl | old
    · obtain ⟨members, descends, last⟩ := contents.frames top here
      exact ⟨members, descends, (unsorted ▸ List.suffix_cons bucket remaining).trans last⟩
    · exact contents.frames frame (others old)
  · intro range member
    apply contents.ranges
    rcases mem_openRanges.mp member with ⟨frame, listed, other, left, rfl⟩ | given
    · rcases List.mem_cons.mp listed with rfl | old
      · have still : other ∈ top.remaining := unsorted ▸ List.mem_cons_of_mem bucket left
        exact mem_openRanges.mpr (.inl ⟨top, here, other, still, rfl⟩)
      · exact mem_openRanges.mpr (.inl ⟨frame, others old, other, left, rfl⟩)
    · exact mem_openRanges.mpr (.inr given)
  · have first : bucket ∈ top.remaining := unsorted ▸ List.mem_cons_self
    exact contents.ranges _ (mem_openRanges.mpr (.inl ⟨top, here, bucket, first, rfl⟩))

/-- The state after a step. -/
def Progress.after : Progress α → State α
  | .running state => state
  | .finished state => state

/-- Every step keeps the contents, and gives away what is left of one frame at most. -/
theorem step_contents (idle : Nat → Bool)
    (sound : Sound rules total depth assignment [] state)
    (contents : Contents rules job found state) :
    Ensures (fun _ => True) (step rules idle state) fun progress =>
      Contents rules job found progress.after ∧
        Gives rules.digits.digit job (found.memory.held job.window) state progress.after := by
  unfold step
  split
  · exact ⟨contents, .inl ⟨rfl, rfl⟩⟩
  · rename_i top below stacked
    split
    · have left : Contents rules job found { state with stack := below } := by
        refine ⟨?_, ?_, contents.settled⟩
        · intro frame member
          exact contents.frames frame (stacked ▸ List.mem_cons_of_mem top member)
        · intro range member
          apply contents.ranges
          refine mem_openRanges.mpr ((mem_openRanges.mp member).imp_left ?_)
          rintro ⟨frame, listed, bucket, rest, rfl⟩
          exact ⟨frame, stacked ▸ List.mem_cons_of_mem top listed, bucket, rest, rfl⟩
      dsimp only
      split <;> exact ⟨left, .inl ⟨rfl, rfl⟩⟩
    · rename_i bucket remaining unsorted
      obtain ⟨taken, -⟩ := sound.take stacked unsorted
      obtain ⟨kept, holds⟩ := contents.take stacked unsorted
      have well := sound.frames top (stacked ▸ List.mem_cons_self)
      obtain ⟨some, bound⟩ := well.buckets bucket (unsorted ▸ List.mem_cons_self)
      have part : Ensures (fun _ => True) (top.window.sub bucket.start bucket.length)
          (· = top.window.part bucket) := Window.sub_ensures (.inr trivial) bound
      refine part.bind ?_
      rintro window rfl
      by_cases single : bucket.length = 1
      · rw [if_pos single]
        obtain ⟨members, descends, -⟩ := holds
        refine ⟨⟨kept.frames, kept.ranges, ?_⟩, .inl ⟨rfl, rfl⟩⟩
        refine kept.settle [top.window.part bucket] fun other member => ?_
        cases List.mem_singleton.mp member
        exact ⟨_, members, descends, .inl single⟩
      · rw [if_neg single]
        have primary : (top.window.part bucket).flipped = false := well.primary
        refine (handle_contents kept primary some taken holds).bind ?_
        rintro handled ⟨handledContents, sameDissolved, sameDonated⟩
        refine (share_contents idle handledContents).bind ?_
        rintro shared ⟨sharedContents, gives⟩
        rw [Gives, sameDissolved, sameDonated] at gives
        exact ⟨sharedContents, gives⟩

/-- A job that has finished has no bucket left. -/
theorem Sound.emptied_of_finished {idle : Nat → Bool} {last : State α}
    (sound : Sound rules total depth assignment [] state)
    (ran : step rules idle state = .ok (.finished last)) :
    ∀ frame ∈ last.stack, frame.remaining = [] := by
  unfold step at ran
  split at ran
  · rename_i stacked
    cases ran
    simp [stacked]
  · rename_i top below stacked
    split at ran
    · dsimp only at ran
      split at ran
      · cases ran
      · rename_i dissolved
        cases ran
        intro frame member
        obtain ⟨index, here⟩ := List.mem_iff_getElem?.mp member
        refine sound.emptied (index + 1) frame (by simpa [stacked] using here) ?_
        rw [stacked, List.length_cons]
        omega
    · rename_i bucket remaining unsorted
      obtain ⟨window, -, ran⟩ := bind_eq_ok.mp ran
      split at ran
      · cases ran
      · obtain ⟨handled, -, ran⟩ := bind_eq_ok.mp ran
        obtain ⟨shared, -, ran⟩ := bind_eq_ok.mp ran
        cases ran

/-- A job that goes on until it has finished keeps the contents. -/
theorem resume_contents (excuses : JobExcuses rules total excused) (idle : Nat → Bool)
    (sound : Sound rules total depth assignment [] state)
    (contents : Contents rules job found state) :
    Ensures (fun _ => True) (resume rules idle state)
      (Contents rules job found) := by
  fun_induction resume rules idle state with
  | case1 state fault stepped => trivial
  | case2 state last stepped => exact ((step_contents idle sound contents).of_ok stepped).1
  | case3 state next stepped lighter ih =>
    exact ih ((step_ensures excuses idle sound).of_ok stepped)
      ((step_contents idle sound contents).of_ok stepped).1

/-- The states that a job reaches between two steps, from when it has entered its range on. -/
inductive Reached (rules : Rules α radix) (idle : Nat → Bool) (job : Job) (work : Work α) :
    State α → Prop
  | entered {state : State α} (goesOn : ¬rules.Ends job.window.settled.length job.depth)
      (ran : enter rules
        { work := { work with memory := work.memory.copyBack job.window }, stack := [] }
        job.window.settled job.depth = .ok state) : Reached rules idle job work state
  | stepped {state next : State α} (reached : Reached rules idle job work state)
      (ran : step rules idle state = .ok (.running next)) : Reached rules idle job work next

section Reached

variable {idle : Nat → Bool} {work : Work α} (excuses : JobExcuses rules total excused)
  (spans : work.memory.Spans job.window) (within : job.window.length ≤ total)

include excuses spans within

/-- Every state that a job reaches is sound. -/
theorem Reached.sound (reached : Reached rules idle job work state) :
    Sound rules total job.depth (assigned rules job work) [] state := by
  induction reached with
  | entered goesOn ran => exact (entered_ensures excuses spans within goesOn).of_ok ran
  | stepped _ ran ih => exact (step_ensures excuses idle ih).of_ok ran

/-- In every state that a job reaches, the open ranges hold their elements. -/
theorem Reached.contents (reached : Reached rules idle job work state) :
    Contents rules job work state := by
  induction reached with
  | entered goesOn ran =>
    have whole : Holds rules.digits.digit job (work.memory.held job.window)
        (work.memory.copyBack job.window) ⟨job.window.settled, job.depth⟩ :=
      ⟨_, .whole, by rw [Memory.held_copyBack spans]⟩
    have primary : job.window.settled.flipped = false := rfl
    have copied : (work.memory.copyBack job.window).Spans job.window.settled :=
      (Memory.elsewhere_copyBack work.memory job.window).spans spans
    have begun : Contents rules job work
        { work := { work with memory := work.memory.copyBack job.window }, stack := [] } :=
      ⟨by simp, by simp [openRanges], [], rfl, by simp⟩
    exact ((enter_contents begun primary copied whole (by simp [openRanges])).of_ok ran).1
  | stepped reached ran ih =>
    exact ((step_contents idle (reached.sound excuses spans within) ih).of_ok ran).1

/-- What a job gives away holds its elements once the job has come to its end. -/
theorem run_holds (idle : Nat → Bool) : Ensures (fun _ => True) (run rules idle job work)
    fun ended => ∀ given ∈ ended.2,
      Holds rules.digits.digit job (work.memory.held job.window) ended.1.memory given := by
  unfold run
  dsimp only
  split
  · cases Work.finish _ rules job.window.settled with
    | error fault => trivial
    | ok finished => exact fun given listed => absurd listed List.not_mem_nil
  · rename_i goesOn
    cases ran : enter rules _ job.window.settled job.depth with
    | error fault => trivial
    | ok entered =>
      have reached : Reached rules idle job work entered := .entered goesOn ran
      have ended := resume_contents excuses idle (reached.sound excuses spans within)
        (reached.contents excuses spans within)
      exact ended.bind fun last kept given listed =>
        kept.ranges given (mem_openRanges.mpr (.inr listed))

end Reached

end SmallJob

end RadixSort
