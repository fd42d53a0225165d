import RadixSort.Scheduler.Pool
import Mathlib.Data.List.Perm.Basic
import Mathlib.Logic.Function.Basic

/-!
# Tasks executed one after the other

A pool of which one task at a time is taken executes its tasks in an order that the choices of
the schedule bring about, and every order can be brought about. So what can come of tasks that
are executed one after the other, whatever order they wait in, comes of `Pool.serve` as well:
its choices only have to name the places at which the tasks happen to be.
-/
namespace RadixSort

variable {τ σ : Type}

namespace Pool

/-- Taking a task leaves the others waiting, and it stays pending. -/
theorem perm_of_take {pool taken : Pool τ} {position : Nat} {task : τ}
    (took : pool.take? position = some (task, taken)) :
    pool.queue.Perm (task :: taken.queue) ∧ taken.pending = pool.pending := by
  unfold take? at took
  split at took
  · rename_i found here
    cases took
    obtain ⟨inside, rfl⟩ := List.getElem?_eq_some_iff.mp here
    exact ⟨(List.getElem_cons_eraseIdx_perm inside).symm, rfl⟩
  · cases took

/-- A task that waits can be taken, and some choice takes it. -/
theorem exists_take {pool : Pool τ} {task : τ} (waits : task ∈ pool.queue) :
    ∃ choice taken, pool.take? (choice % pool.queue.length) = some (task, taken) := by
  obtain ⟨position, here⟩ := List.mem_iff_getElem?.mp waits
  obtain ⟨inside, -⟩ := List.getElem?_eq_some_iff.mp here
  refine ⟨position, { pool with queue := pool.queue.eraseIdx position }, ?_⟩
  rw [Nat.mod_eq_of_lt inside, take?, here]

/-- A task that was taken and executed without a fault adds the tasks it made. -/
theorem absorb_exact (pool : Pool τ) (state : σ) (spawned : List τ) :
    (pool.absorb { state, spawned }).queue = pool.queue ++ spawned ∧
      (pool.pending = pool.queue.length + 1 →
        (pool.absorb { state, spawned }).pending =
          (pool.absorb { state, spawned }).queue.length) := by
  have queue : (pool.absorb { state, spawned }).queue = pool.queue ++ spawned :=
    queue_enqueueAll pool spawned
  refine ⟨queue, fun pending => ?_⟩
  have counted : (pool.absorb { state, spawned }).pending = pool.pending + spawned.length - 1 :=
    congrArg (· - 1) (pending_enqueueAll pool spawned)
  rw [counted, queue, List.length_append, pending]
  omega

/-- Only an empty queue has no task to take. -/
theorem queue_of_take {pool : Pool τ} {choice : Nat}
    (none : pool.take? (choice % pool.queue.length) = none) : pool.queue = [] := by
  by_contra some
  obtain ⟨task, waits⟩ := List.exists_mem_of_ne_nil _ some
  have inside : choice % pool.queue.length < pool.queue.length :=
    Nat.mod_lt _ (List.length_pos_of_mem waits)
  rw [take?, List.getElem?_eq_getElem inside] at none
  cases none

variable {execute other : Nat → Pool τ → τ → σ → Effect τ σ} {pick choose : Nat → Nat}

/-- Where no task waits, none is executed. -/
theorem serve_idle (execute : Nat → Pool τ → τ → σ → Effect τ σ) (pick : Nat → Nat)
    (count turn : Nat) {pool : Pool τ} (idle : pool.queue = []) (state : σ) :
    serve execute pick count turn pool state = { pool, state } := by
  cases count with
  | zero => rfl
  | succ count =>
    rw [serve, take?, idle]
    rfl

/-- What is executed from a turn on depends on the choices of this turn and of later ones. -/
theorem serve_congr (count turn : Nat)
    (same : ∀ later, turn ≤ later → pick later = choose later ∧ execute later = other later)
    (pool : Pool τ) (state : σ) :
    serve execute pick count turn pool state = serve other choose count turn pool state := by
  induction count generalizing turn pool state with
  | zero => rfl
  | succ count ih =>
    obtain ⟨picked, executed⟩ := same turn (Nat.le_refl turn)
    rw [serve, serve, picked, executed]
    cases pool.take? (choose turn % pool.queue.length) with
    | none => rfl
    | some found =>
      obtain ⟨task, taken⟩ := found
      dsimp only
      cases (other turn taken task state).fault with
      | some fault => rfl
      | none => exact ih (turn + 1) (fun later after => same later (Nat.le_of_succ_le after)) _ _

end Pool

/-- Tasks are executed one after the other, each under a number of its own, and none of them
ends in a fault. At first some tasks wait, and every task that is executed adds those that it
enqueues. The order in which tasks wait does not matter. -/
inductive Serial (execute : Nat → τ → σ → Pool.Effect τ σ) :
    List Nat → List τ → σ → List τ → σ → Prop where
  | done {waiting left : List τ} (same : waiting.Perm left) (state : σ) :
      Serial execute [] waiting state left state
  | step {number : Nat} {numbers : List Nat} {waiting rest left : List τ} {task : τ}
      {state last : σ} (waits : waiting.Perm (task :: rest))
      (clean : (execute number task state).fault = none)
      (later : Serial execute numbers (rest ++ (execute number task state).spawned)
        (execute number task state).state left last) :
      Serial execute (number :: numbers) waiting state left last

namespace Serial

variable {execute : Nat → τ → σ → Pool.Effect τ σ} {numbers : List Nat}
  {waiting left rest : List τ} {task : τ} {state last : σ}

/-- The order of the tasks that are left does not matter. -/
theorem reorder {ordered : List τ} (serial : Serial execute numbers waiting state left last)
    (same : left.Perm ordered) : Serial execute numbers waiting state ordered last := by
  induction serial with
  | done before state => exact .done (before.trans same) state
  | step waits clean _ ih => exact .step waits clean (ih same)

/-- One more task is executed. -/
theorem snoc {number : Nat} (serial : Serial execute numbers waiting state left last)
    (waits : left.Perm (task :: rest)) (clean : (execute number task last).fault = none) :
    Serial execute (numbers ++ [number]) waiting state
      (rest ++ (execute number task last).spawned) (execute number task last).state := by
  induction serial with
  | done before state => exact .step (before.trans waits) clean (.done (.refl _) _)
  | step first clear _ ih => exact .step first clear (ih waits clean)

/-- A choice that is made for an earlier turn does not matter. -/
theorem serve_update (execute : Nat → τ → σ → Pool.Effect τ σ) {early turn : Nat}
    (before : early < turn) (choice number : Nat) (pick label : Nat → Nat) (count : Nat)
    (pool : Pool τ) (state : σ) :
    Pool.serve (fun later _ => execute (Function.update label early number later))
        (Function.update pick early choice) count turn pool state =
      Pool.serve (fun later _ => execute (label later)) pick count turn pool state := by
  refine Pool.serve_congr count turn (fun later after => ?_) pool state
  rw [Function.update_of_ne (by omega), Function.update_of_ne (by omega)]
  exact ⟨rfl, rfl⟩

/-- Choices that execute given tasks before they go on as they like.

Induct over the tasks. The choices for the first one are put in front of those for the others,
which are made from the next turn on. -/
theorem exists_serve (serial : Serial execute numbers waiting state left last) (turn : Nat)
    {pool : Pool τ} (queue : pool.queue.Perm waiting)
    (counted : pool.pending = pool.queue.length) :
    ∃ after : Pool τ, after.queue.Perm left ∧ after.pending = after.queue.length ∧
      ∀ choices labels : Nat → Nat, ∃ pick label : Nat → Nat,
        (∀ later, turn + numbers.length ≤ later →
          pick later = choices later ∧ label later = labels later) ∧
        ∀ count, Pool.serve (fun turn _ => execute (label turn)) pick (numbers.length + count) turn
            pool state =
          Pool.serve (fun turn _ => execute (label turn)) pick count (turn + numbers.length)
            after last := by
  induction serial generalizing turn pool with
  | done same state =>
    refine ⟨pool, queue.trans same, counted, fun choices labels => ⟨choices, labels, ?_, ?_⟩⟩
    · exact fun later _ => ⟨rfl, rfl⟩
    · intro count
      rw [List.length_nil, Nat.zero_add, Nat.add_zero]
  | @step number numbers waiting rest left task state last waits clean later ih =>
    have member : task ∈ pool.queue :=
      (queue.trans waits).mem_iff.mpr List.mem_cons_self
    obtain ⟨choice, taken, took⟩ := Pool.exists_take member
    obtain ⟨others, same⟩ := Pool.perm_of_take took
    let effect := execute number task state
    have plain : effect = { state := effect.state, spawned := effect.spawned } := by
      have absent : effect.fault = none := clean
      rw [← absent]
    obtain ⟨made, exact⟩ := Pool.absorb_exact taken effect.state effect.spawned
    rw [← plain] at made exact
    have next : (taken.absorb effect).queue.Perm (rest ++ effect.spawned) := by
      rw [made]
      exact ((others.symm.trans (queue.trans waits)).cons_inv).append_right _
    have pending : taken.pending = taken.queue.length + 1 := by
      rw [same, counted, others.length_eq, List.length_cons]
    obtain ⟨after, remains, balanced, serves⟩ := ih (turn + 1) next (exact pending)
    have shift : turn + (number :: numbers).length = turn + 1 + numbers.length := by
      rw [List.length_cons]
      omega
    refine ⟨after, remains, balanced, fun choices labels => ?_⟩
    obtain ⟨pick, label, agree, serves⟩ := serves choices labels
    refine ⟨Function.update pick turn choice, Function.update label turn number, ?_, ?_⟩
    · intro other behind
      obtain ⟨picked, labelled⟩ := agree other (by omega)
      rw [Function.update_of_ne (by omega), Function.update_of_ne (by omega)]
      exact ⟨picked, labelled⟩
    · intro count
      have longer : (number :: numbers).length + count = (numbers.length + count) + 1 := by
        rw [List.length_cons]
        omega
      have behind : turn < turn + 1 + numbers.length := by omega
      rw [shift, serve_update execute behind choice number pick label, ← serves count, longer,
        Pool.serve, Function.update_self, took]
      dsimp only
      rw [Function.update_self, clean]
      exact serve_update execute (Nat.lt_succ_self turn) _ _ _ _ _ _ _

variable {pool : Pool τ} {count : Nat}

/-- If no task is left, the pool has been drained of the same tasks. -/
theorem serve_drained (serial : Serial execute numbers waiting state [] last)
    (queue : pool.queue.Perm waiting) (counted : pool.pending = pool.queue.length)
    (enough : numbers.length ≤ count) :
    ∃ (pick label : Nat → Nat) (after : Pool τ),
      Pool.serve (fun turn _ => execute (label turn)) pick count 0 pool state =
        { pool := after, state := last } ∧ after.pending = 0 := by
  obtain ⟨after, none, pending, serves⟩ := serial.exists_serve 0 queue counted
  obtain ⟨pick, label, -, serves⟩ := serves id id
  obtain ⟨more, rfl⟩ := Nat.exists_eq_add_of_le enough
  have empty : after.queue = [] := none.eq_nil
  refine ⟨pick, label, after, ?_, by rw [pending, empty]; rfl⟩
  rw [serves, Pool.serve_idle _ _ _ _ empty]

/-- If a task is left that ends in a fault, its fault ends the execution. -/
theorem serve_faulty {number : Nat} {fault : Fault}
    (serial : Serial execute numbers waiting state left last) (member : task ∈ left)
    (faulty : (execute number task last).fault = some fault)
    (queue : pool.queue.Perm waiting) (counted : pool.pending = pool.queue.length)
    (enough : numbers.length < count) :
    ∃ pick label : Nat → Nat,
      (Pool.serve (fun turn _ => execute (label turn)) pick count 0 pool state).fault =
        some fault := by
  obtain ⟨after, remains, -, serves⟩ := serial.exists_serve 0 queue counted
  obtain ⟨choice, taken, took⟩ := Pool.exists_take (remains.mem_iff.mpr member)
  obtain ⟨pick, label, agree, serves⟩ := serves (fun _ => choice) fun _ => number
  obtain ⟨more, rfl⟩ := Nat.exists_eq_add_of_lt enough
  obtain ⟨picked, labelled⟩ := agree (0 + numbers.length) (Nat.le_refl _)
  refine ⟨pick, label, ?_⟩
  rw [Nat.add_assoc, serves, Pool.serve, picked, took]
  dsimp only
  rw [labelled, faulty]

end Serial

end RadixSort
