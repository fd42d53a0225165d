import RadixSort.Proofs.Scheduler.Drained

/-!
# No notification is lost

The owner falls asleep when it has found tasks pending and no fault reported, and by then
neither may be so any more. But whoever counts off the last task, or has reported a fault,
has still to notify the owner, and needs the lock for it, which the owner has until it
sleeps. So an owner that sleeps although it need not wait is going to be notified: some worker
is on its way.
-/
namespace RadixSort

variable {τ σ : Type} {execute : Nat → τ → σ → Pool.Effect τ σ}

/-- A worker that is about to notify the owner. -/
def Worker.notifies : Worker τ → Bool
  | .notifying _ => true
  | _ => false

/-- A worker that is about to notify the owner, or will be when its task is counted off. -/
def Worker.warns : Worker τ → Bool
  | .notifying _ => true
  | .failing _ _ => true
  | _ => false

/-- The owner has found tasks pending since it took the lock. -/
def Watch.hasCounted : Watch → Bool
  | .doubting => true
  | .drowsy => true
  | .asleep => true
  | _ => false

/-- The owner has found tasks pending and no fault since it took the lock. -/
def Watch.hasDoubted : Watch → Bool
  | .drowsy => true
  | .asleep => true
  | _ => false

/-- A notification leaves no owner behind that has found what it was looking for. -/
theorem Watch.notified_exact {watch : Watch} (unlocked : watch.locks = false) :
    watch.notified.hasCounted = false ∧ watch.notified.hasDoubted = false := by
  cases watch <;> first | exact ⟨rfl, rfl⟩ | cases unlocked

namespace Crew

variable {crew next : Crew τ σ} {position : Nat} {before after : Worker τ}

/-- An owner that has found tasks pending, or no fault, is going to be notified if that is so no
more. -/
structure Heard (crew : Crew τ σ) : Prop where
  drained : crew.owner.hasCounted = true → crew.pending = 0 →
    ∃ worker ∈ crew.workers, worker.notifies = true
  poisoned : crew.owner.hasDoubted = true → crew.poisoned = true →
    ∃ worker ∈ crew.workers, worker.warns = true

/-- An owner that does not wait need not be notified. -/
theorem heard_of_away (away : crew.owner = .away) : crew.Heard where
  drained counted := by
    rw [away] at counted
    cases counted
  poisoned doubted := by
    rw [away] at doubted
    cases doubted

/-- A worker that acts is in its place afterwards. -/
theorem mem_become (here : crew.workers[position]? = some before) (after : Worker τ) :
    after ∈ (crew.become position after).workers :=
  List.mem_of_getElem? (List.getElem?_set_self (List.getElem?_eq_some_iff.mp here).1)

/-- What some worker is about to do, some worker still is when another has acted. -/
theorem exists_become {does : Worker τ → Bool} (here : crew.workers[position]? = some before)
    (after : Worker τ) (other : does before = false)
    (some : ∃ worker ∈ crew.workers, does worker = true) :
    ∃ worker ∈ (crew.become position after).workers, does worker = true := by
  obtain ⟨worker, member, able⟩ := some
  obtain ⟨others, front, back⟩ := exists_others here
  rcases List.mem_cons.mp (front.mem_iff.mp member) with rfl | inside
  · cases other.symm.trans able
  · exact ⟨worker, (back after).mem_iff.mp (List.mem_cons_of_mem _ inside), able⟩

/-- A worker that acts without a notification to make leaves those of the others, and has to
make one if it counts off the last task or reports a fault. -/
theorem Heard.become (heard : crew.Heard) (here : crew.workers[position]? = some before)
    (workers : next.workers = (crew.become position after).workers)
    (owner : next.owner = crew.owner)
    (counts : next.pending = 0 → after.notifies = true ∨
      crew.pending = 0 ∧ before.notifies = false)
    (reports : next.poisoned = true → after.warns = true ∨
      crew.poisoned = true ∧ before.warns = false) : next.Heard := by
  constructor
  · intro counted zero
    rw [workers]
    rcases counts zero with new | ⟨old, other⟩
    · exact ⟨after, mem_become here after, new⟩
    · exact exists_become here after other (heard.drained (owner ▸ counted) old)
  · intro doubted poisoned
    rw [workers]
    rcases reports poisoned with new | ⟨old, other⟩
    · exact ⟨after, mem_become here after, new⟩
    · exact exists_become here after other (heard.poisoned (owner ▸ doubted) old)

/-- A worker that acts without a notification to make, and neither counts off a task nor reports
a fault, leaves those of the others. -/
theorem Heard.rest (heard : crew.Heard) (here : crew.workers[position]? = some before)
    (workers : next.workers = (crew.become position after).workers)
    (owner : next.owner = crew.owner) (pending : next.pending = 0 → crew.pending = 0)
    (poisoned : next.poisoned = crew.poisoned) (quiet : before.warns = false) :
    next.Heard := by
  have silent : before.notifies = false := by
    cases before <;> first | rfl | cases quiet
  refine heard.become here workers owner (fun zero => .inr ⟨pending zero, silent⟩) ?_
  exact fun hurt => .inr ⟨poisoned ▸ hurt, quiet⟩

/-- The owner looks on, or falls asleep. -/
theorem Heard.look (heard : crew.Heard) : ({ crew with owner := crew.look } : Crew τ σ).Heard := by
  have counted : crew.look.hasCounted = true → crew.pending = 0 →
      crew.owner.hasCounted = true := by
    unfold Crew.look
    cases crew.owner with
    | reading =>
      intro counted zero
      rw [if_pos zero] at counted
      cases counted
    | doubting => exact fun _ _ => rfl
    | drowsy => exact fun _ _ => rfl
    | asleep => exact fun _ _ => rfl
    | away => nofun
    | woken => nofun
  have doubted : crew.look.hasDoubted = true → crew.poisoned = true →
      crew.owner.hasDoubted = true := by
    unfold Crew.look
    cases crew.owner with
    | doubting =>
      intro doubted poisoned
      rw [if_pos poisoned] at doubted
      cases doubted
    | reading =>
      by_cases zero : crew.pending = 0
      · simp [zero, Watch.hasDoubted]
      · simp [zero, Watch.hasDoubted]
    | drowsy => exact fun _ _ => rfl
    | asleep => exact fun _ _ => rfl
    | away => nofun
    | woken => nofun
  exact ⟨fun has zero => heard.drained (counted has zero) zero,
    fun has hurt => heard.poisoned (doubted has hurt) hurt⟩

/-- The worker that counts off the last task is going to notify the owner. -/
theorem Heard.finish (heard : crew.Heard) (sound : crew.Sound) {execution : Execution τ}
    (here : crew.workers[position]? = some (.busy execution [] false)) :
    (crew.countOff position execution crew.afterwards).Heard := by
  refine heard.become here rfl rfl (fun zero => .inl ?_) fun hurt => .inr ⟨hurt, rfl⟩
  have some := sound.pending_pos (List.mem_of_getElem? here) (List.cons_ne_nil _ _)
  have last : crew.pending = 1 := by
    change crew.pending - 1 = 0 at zero
    omega
  rw [afterwards, if_pos last]
  rfl

/-- Every action leaves a worker on its way to an owner that need not wait any longer. -/
theorem Step.heard (action : Step execute crew next) (sound : crew.Sound) (heard : crew.Heard) :
    next.Heard := by
  cases action with
  | start count free idle => exact heard_of_away free
  | announce task free => exact heard_of_away free
  | submit task rest free counted => exact heard_of_away free
  | close free => exact heard_of_away free
  | look awake => exact heard.look
  | findOpen position here _ => exact heard.rest here rfl rfl id rfl rfl
  | findClosed position here _ => exact heard.rest here rfl rfl id rfl rfl
  | take position place ticket here queued => exact heard.rest here rfl rfl id rfl rfl
  | park position here _ _ => exact heard.rest here rfl rfl id rfl rfl
  | wake position here _ _ => exact heard.rest here rfl rfl id rfl rfl
  | count position execution left here _ => exact heard.rest here rfl rfl nofun rfl rfl
  | spawn position execution task left here => exact heard.rest here rfl rfl id rfl rfl
  | finish position execution here _ => exact heard.finish sound here
  | report position execution fault here _ =>
    exact heard.become here rfl rfl (fun zero => .inr ⟨zero, rfl⟩) fun _ => .inl rfl
  | fail position execution fault here =>
    exact heard.become here rfl rfl (fun _ => .inl rfl) fun _ => .inl rfl
  | notify position fault here unlocked =>
    obtain ⟨counted, doubted⟩ := Watch.notified_exact unlocked
    exact ⟨fun has => Bool.noConfusion (counted.symm.trans has),
      fun has => Bool.noConfusion (doubted.symm.trans has)⟩

/-- Any number of actions leaves a worker on its way to an owner that need not wait any
longer. -/
theorem Run.heard {first last : Crew τ σ} (run : Run execute first last) (sound : first.Sound)
    (heard : first.Heard) : last.Heard := by
  induction run with
  | done => exact heard
  | step before action ih => exact action.heard (before.sound sound) ih

end Crew

end RadixSort
