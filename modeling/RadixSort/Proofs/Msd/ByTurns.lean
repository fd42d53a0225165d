import RadixSort.Proofs.Msd.Run
import RadixSort.Proofs.Scheduler.OneByOne

/-!
# A sort by turns of its workers

The tasks that the workers of a sort execute, whichever they take and whoever is lost to a
fault, are tasks that the engine could execute one after the other. No more of them can be
executed than the array allows, so every run comes to its end. What it gives then is what the
tasks give that are executed in some order by a schedule: the same array and the same counters
if no task ended in a fault, and otherwise a fault with which the schedule ends as well. The
fault that a worker hands over at the end is never turned into a result, although no one asks
then whether tasks are left.
-/
namespace RadixSort

open Engine

variable {α : Type} {radix : Nat} {rules : Rules α radix} {data : Array α} {news : Nat → News}

namespace Msd

/-- A task of the engine that ends without a fault changes the engine and makes tasks. -/
theorem carryOut_of_ok {heard : News} {task : EngineTask} {engine next : Engine α radix}
    {spawned : List EngineTask} (ran : engine.perform rules heard task = .ok (next, spawned)) :
    carryOut rules heard task engine = { state := next, spawned } := by
  rw [carryOut, ran]

/-- A task of the engine that ends in a fault leaves nothing but the fault. -/
theorem carryOut_of_error {heard : News} {task : EngineTask} {engine : Engine α radix}
    {fault : Fault} (ran : engine.perform rules heard task = .error fault) :
    carryOut rules heard task engine = { state := engine, fault } := by
  rw [carryOut, ran]

/-- The tasks of the engine are harmless. -/
theorem harmless_carryOut (rules : Rules α radix) (news : Nat → News) :
    Harmless fun turn => carryOut rules (news turn) := by
  intro turn task engine fault faulty
  dsimp only at faulty ⊢
  cases ran : engine.perform rules (news turn) task with
  | error other =>
    rw [carryOut_of_error ran]
    exact ⟨rfl, rfl⟩
  | ok made =>
    rw [carryOut_of_ok ran] at faulty
    cases faulty

/-- The fallback gives back as many elements as it is given. -/
def KeepsLength (rules : Rules α radix) : Prop :=
  ∀ elements sorted, rules.fallback elements = .ok sorted → sorted.length = elements.length

/-- If every fault is excused, only the length of what the fallback gives back matters. -/
theorem KeepsLength.excuses (keeps : KeepsLength rules) (total : Nat) :
    Excuses rules total fun _ => True :=
  ⟨fun _ _ _ _ _ => trivial, fun _ _ _ => trivial, keeps, .inr trivial⟩

/-- Tasks that are executed one after the other keep the ledger, and use up the allowance. -/
theorem sound_of_serial (keeps : KeepsLength rules) {numbers : List Nat}
    {waiting left : List EngineTask} {engine last : Engine α radix}
    (serial : Serial (fun turn => carryOut rules (news turn)) numbers waiting engine left last)
    {budget : Nat} {jobs : List Job} {stages : List (Stage radix)} {counts : Recursion.Counts}
    (sound : Sound rules data [] waiting engine budget jobs stages counts) :
    ∃ jobs stages counts, numbers.length ≤ budget ∧
      Sound rules data [] left last (budget - numbers.length) jobs stages counts := by
  induction serial generalizing budget jobs stages counts with
  | done same engine =>
    exact ⟨jobs, stages, counts, Nat.zero_le _,
      { sound with queued := same.symm.trans sound.queued }⟩
  | @step number numbers waiting rest left task engine last waits clean later ih =>
    obtain ⟨less, rfl⟩ := sound.exists_succ (waits.mem_iff.mpr List.mem_cons_self)
    have performed := perform_ensures (keeps.excuses _) (news number) sound waits
    cases ran : engine.perform rules (news number) task with
    | error fault =>
      rw [carryOut_of_error ran] at clean
      cases clean
    | ok made =>
      rw [carryOut_of_ok ran] at ih
      obtain ⟨jobs, stages, counts, sound⟩ := performed.of_ok ran
      obtain ⟨jobs, stages, counts, few, sound⟩ := ih sound
      refine ⟨jobs, stages, counts, Nat.succ_le_succ few, ?_⟩
      rwa [List.length_cons, Nat.add_sub_add_right]

/-- No more tasks can be executed, with those that are left then, than the allowance permits. -/
theorem length_of_serial (keeps : KeepsLength rules) {numbers : List Nat}
    {waiting left : List EngineTask} {engine last : Engine α radix} {budget : Nat} {jobs : List Job}
    {stages : List (Stage radix)} {counts : Recursion.Counts}
    (sound : Sound rules data [] waiting engine budget jobs stages counts)
    (serial : Serial (fun turn => carryOut rules (news turn)) numbers waiting engine left last) :
    numbers.length + left.length ≤ budget := by
  obtain ⟨_, _, _, few, later⟩ := sound_of_serial keeps serial sound
  have waits := later.queue_le
  omega

/-- The pool of a sort is run for tasks that the engine can execute. -/
theorem manned_exact (keeps : KeepsLength rules) (many : 2 ≤ data.size)
    {life : Lifecycle EngineTask (Engine α radix)} (opened : manned rules data = .ok life) :
    ∃ engine tasks, 0 < rules.settings.threads ∧
      (Engine.fresh data).dispatch rules (fun _ => 0) ⟨Window.whole data.size, 0⟩ =
        .ok (engine, tasks) ∧
      life = .once rules.settings.threads engine tasks ∧ ∃ jobs stages counts,
        Sound rules data [] tasks engine (allowance data.size rules.maxDepth) jobs stages
          counts := by
  obtain ⟨pool, workers, more⟩ := bind_eq_ok.mp opened
  obtain ⟨⟨engine, tasks⟩, dispatched, same⟩ := bind_eq_ok.mp more
  cases same
  have positive : 0 < rules.settings.threads := by
    refine Nat.pos_of_ne_zero fun zero => ?_
    rw [Pool.opened, if_pos zero] at workers
    cases workers
  have whole : 2 ≤ (Window.whole data.size).length := many
  obtain ⟨jobs, stages, counts, sound⟩ := (dispatch_ensures (keeps.excuses data.size) (fun _ => 0)
    (sound_fresh rules many) whole).of_ok dispatched
  exact ⟨engine, tasks, positive, dispatched, rfl, jobs, stages, counts, sound⟩

/-- Where the pool of a sort cannot be opened, no schedule gets further. -/
theorem sortStarted_of_manned_error {fault : Fault} (unopened : manned rules data = .error fault)
    (schedule : Schedule) : sortStarted rules schedule data = .error fault := by
  unfold manned at unopened
  unfold sortStarted serveTasks
  cases workers : (Pool.opened rules.settings.threads : Except Fault (Pool EngineTask)) with
  | error other =>
    rw [workers] at unopened
    cases unopened
    rfl
  | ok pool =>
    rw [workers] at unopened
    cases dispatched : (Engine.fresh data).dispatch rules (fun _ => 0)
        ⟨Window.whole data.size, 0⟩ with
    | error other =>
      rw [dispatched] at unopened
      cases unopened
      rfl
    | ok made =>
      rw [dispatched] at unopened
      cases unopened

/-- The fault of a task is that of the sort. -/
theorem sortStarted_of_fault {schedule : Schedule} {fault : Fault}
    {served : Pool.Served EngineTask (Engine α radix)}
    (serves : serveTasks rules schedule (allowance data.size rules.maxDepth) data = .ok served)
    (faulty : served.fault = some fault) : sortStarted rules schedule data = .error fault := by
  rw [sortStarted, serves]
  dsimp only [bind, Except.bind]
  rw [faulty]
  rfl

/-- A sort whose tasks have all been executed returns what they leave. -/
theorem sortStarted_of_drained {schedule : Schedule}
    {served : Pool.Served EngineTask (Engine α radix)}
    (serves : serveTasks rules schedule (allowance data.size rules.maxDepth) data = .ok served)
    (clean : served.fault = none) (drained : served.pool.pending = 0) :
    sortStarted rules schedule data = returned rules served.state.work := by
  rw [sortStarted, serves]
  dsimp only [bind, Except.bind]
  rw [clean]
  exact if_neg fun some => some drained

/-- A sort by turns that comes to its end gives what some schedule gives. -/
theorem startedByTurns_eq (keeps : KeepsLength rules) (many : 2 ≤ data.size) {turns : List Turn}
    {result : Except Fault (Array α × Stats)}
    (finished : startedByTurns? rules news turns data = some result) :
    ∃ schedule, result = sortStarted rules schedule data := by
  unfold startedByTurns? at finished
  cases opened : manned rules data with
  | error fault =>
    rw [opened] at finished
    cases finished
    exact ⟨.inOrder, (sortStarted_of_manned_error opened .inOrder).symm⟩
  | ok life =>
    rw [opened] at finished
    obtain ⟨final, played, more⟩ := Option.bind_eq_some_iff.mp finished
    obtain ⟨verdict, first, ended⟩ := Option.bind_eq_some_iff.mp more
    obtain ⟨rest, past⟩ := List.head?_eq_some_iff.mp first
    obtain ⟨engine, tasks, positive, dispatched, rfl, jobs, stages, counts, sound⟩ :=
      manned_exact keeps many opened
    have harmless := harmless_carryOut rules news
    have once := (Lifecycle.once_once positive engine tasks).play harmless played
    let workers : Pool EngineTask := { workers := rules.settings.threads }
    have queue : (workers.enqueueAll tasks).queue = tasks := Pool.queue_enqueueAll workers tasks
    have counted : (workers.enqueueAll tasks).pending =
        (workers.enqueueAll tasks).queue.length := by
      rw [queue]
      exact (Pool.pending_enqueueAll workers tasks).trans (Nat.zero_add _)
    obtain ⟨pick, label, ends, drained⟩ := once.served past
      (fun _ _ _ => length_of_serial keeps sound) queue counted
    let schedule : Schedule := ⟨pick, fun turn => news (label turn)⟩
    let served := Pool.serve (execute rules schedule) pick (allowance data.size rules.maxDepth) 0
      (workers.enqueueAll tasks) engine
    have serves : serveTasks rules schedule (allowance data.size rules.maxDepth) data =
        .ok served := by
      have some : (Pool.opened rules.settings.threads : Except Fault (Pool EngineTask)) =
          .ok workers := if_neg (Nat.ne_of_gt positive)
      exact bind_eq_ok.mpr ⟨workers, some, bind_eq_ok.mpr ⟨(engine, tasks), dispatched, rfl⟩⟩
    refine ⟨schedule, ?_⟩
    cases verdict with
    | some fault =>
      cases ended
      exact (sortStarted_of_fault serves ends).symm
    | none =>
      obtain ⟨state, pending⟩ := drained rfl
      have state : served.state = final.crew.state := state
      cases ended
      rw [sortStarted_of_drained serves ends pending, state]

/-- A call by turns that comes to its end ends as it does with some schedule. -/
theorem sortByTurns_eq (keeps : KeepsLength rules) {resources : Resources} {turns : List Turn}
    {outcome : Outcome α Stats}
    (finished : sortByTurns? rules resources news turns data = some outcome) :
    ∃ schedule, outcome = sort rules resources schedule data := by
  unfold sortByTurns? at finished
  unfold sort
  cases early : early? rules.settings resources data with
  | some other =>
    rw [early] at finished
    exact ⟨.inOrder, (Option.some.inj finished).symm⟩
  | none =>
    rw [early] at finished
    obtain ⟨result, ended, rfl⟩ := Option.map_eq_some_iff.mp finished
    obtain ⟨schedule, rfl⟩ := startedByTurns_eq keeps (many_of_not_early early) ended
    exact ⟨schedule, rfl⟩

/-- No execution of the pool of a sort is longer than some bound, and until its run is over,
some turn is possible. -/
theorem turns_conclude (news : Nat → News) (keeps : KeepsLength rules) (many : 2 ≤ data.size)
    {life : Lifecycle EngineTask (Engine α radix)} (opened : manned rules data = .ok life) :
    ∃ bound, ∀ turns reached, playTurns rules news turns life = some reached →
      turns.length ≤ bound ∧
        (reached.verdicts = [] → ∃ turn next, playTurns rules news [turn] reached = some next) := by
  obtain ⟨engine, tasks, positive, -, rfl, jobs, stages, counts, sound⟩ :=
    manned_exact keeps many opened
  obtain ⟨bound, each⟩ := Lifecycle.once_ends positive (harmless_carryOut rules news)
    fun _ _ _ => length_of_serial keeps sound
  refine ⟨bound, fun turns reached played => ?_⟩
  obtain ⟨short, goesOn⟩ := each turns reached played
  refine ⟨short, fun running => ?_⟩
  obtain ⟨turn, next, turned⟩ := goesOn running
  exact ⟨turn, next, Option.bind_eq_some_iff.mpr ⟨next, turned, rfl⟩⟩

/-- If the cells of its tables can be counted in a machine word, the pool of a sort can be
opened. -/
theorem exists_manned (workers : 0 < rules.settings.threads)
    (many : 2 ≤ data.size) (fits : rules.Fits data.size) :
    ∃ life, manned rules data = .ok life := by
  -- Making the first tasks asks for no digit and finishes nothing.
  let quiet : Rules α radix := { rules with
    digits := ⟨rules.digits.digit, fun _ _ => none⟩, fallback := .ok }
  have excuses : Excuses quiet data.size fun _ => False :=
    .of_total (fun _ _ => rfl) (fun elements => ⟨elements, rfl, rfl⟩) (.inl fits)
  have whole : 2 ≤ (Window.whole data.size).length := many
  obtain ⟨made, dispatched, -⟩ := (dispatch_ensures excuses (fun _ => 0)
    (sound_fresh quiet many) whole).exists_ok fun _ => id
  have opened : (Pool.opened rules.settings.threads : Except Fault (Pool EngineTask)) =
      .ok { workers := rules.settings.threads } := if_neg (Nat.ne_of_gt workers)
  exact ⟨_, bind_eq_ok.mpr ⟨_, opened, bind_eq_ok.mpr ⟨made, dispatched, rfl⟩⟩⟩

end Msd

end RadixSort
