import RadixSort.Partition.Scatter
import RadixSort.Proofs.Memory

/-!
# What a scatter writes

A target is a list in which the elements of each bucket already stand where the
cursors of a scatter lead. Every write of the scatter then stores what the target has
at its slot, and the writes reach every slot that the cursors pass. Writes that agree
with one target can be carried out in any order and any number of times.
-/
namespace RadixSort

variable {α : Type} {radix : Nat}

/-- All writes store what the target has at their slots. -/
def Agrees (target : List α) (writes : List (SlotWrite α)) : Prop :=
  ∀ write ∈ writes, target[write.1]? = some write.2

/-- Writes that agree with a target stay within it. -/
theorem Agrees.within {target : List α} {writes : List (SlotWrite α)}
    (agrees : Agrees target writes) {write : SlotWrite α} (member : write ∈ writes) :
    write.1 < target.length :=
  (List.getElem?_eq_some_iff.mp (agrees write member)).1

/-- Some write stores a value at this slot. -/
def Reaches (writes : List (SlotWrite α)) (slot : Nat) : Prop := ∃ x, (slot, x) ∈ writes

/-- After writes that agree with a target, every slot that one of them reaches holds
what the target has there. -/
theorem getElem?_applyWrites_of_agrees {target : List α} {writes : List (SlotWrite α)}
    (agrees : Agrees target writes) (cells : Array α) (base slot : Nat)
    (inside : base + slot < cells.size) (reached : Reaches writes slot) :
    (applyWrites cells base writes)[base + slot]? = target[slot]? := by
  induction writes generalizing cells with
  | nil =>
    obtain ⟨x, member⟩ := reached
    simp at member
  | cons write rest ih =>
    have laterAgrees : Agrees target rest :=
      fun later member => agrees later (List.mem_cons_of_mem _ member)
    rw [applyWrites]
    by_cases again : Reaches rest slot
    · exact ih laterAgrees _ (by simpa using inside) again
    · obtain ⟨x, member⟩ := reached
      rcases List.mem_cons.mp member with rfl | later
      · rw [getElem?_applyWrites_of_forall_ne, agrees _ List.mem_cons_self]
        · simp [inside]
        · intro other present same
          obtain rfl : other.1 = slot := by omega
          exact again ⟨other.2, present⟩
      · exact absurd ⟨x, later⟩ again

/-- A slot that held what the target has there still does after writes that agree
with the target. -/
theorem getElem?_applyWrites_of_held {target : List α} {writes : List (SlotWrite α)}
    (agrees : Agrees target writes) (cells : Array α) (base slot : Nat)
    (inside : base + slot < cells.size) (held : cells[base + slot]? = target[slot]?) :
    (applyWrites cells base writes)[base + slot]? = target[slot]? := by
  by_cases reached : Reaches writes slot
  · exact getElem?_applyWrites_of_agrees agrees cells base slot inside reached
  · rw [getElem?_applyWrites_of_forall_ne, held]
    intro write member same
    obtain rfl : write.1 = slot := by omega
    exact reached ⟨write.2, member⟩

/-- Writes that agree with a target and reach every slot of it store the target. -/
theorem slice_applyWrites {target : List α} {writes : List (SlotWrite α)} {cells : Array α}
    {base : Nat} (inside : base + target.length ≤ cells.size) (agrees : Agrees target writes)
    (reached : ∀ slot, slot < target.length → Reaches writes slot) :
    slice (applyWrites cells base writes) base target.length = target := by
  apply slice_eq rfl
  intro slot within
  exact getElem?_applyWrites_of_agrees agrees cells base slot (by omega) (reached slot within)

namespace Scatter

variable {key : α → Fin radix}

/-- The first element is in its own bucket. -/
theorem filter_cons_own (x : α) (rest : List α) :
    (x :: rest).filter (key · = key x) = x :: rest.filter (key · = key x) := by
  simp

/-- The first element is in no bucket but its own. -/
theorem filter_cons_other {x : α} {bucket : Fin radix} (rest : List α)
    (different : key x ≠ bucket) :
    (x :: rest).filter (key · = bucket) = rest.filter (key · = bucket) := by
  simp [different]

/-- The elements of every bucket stand in the target from the bucket's cursor on. -/
def Rises (key : α → Fin radix) (target : List α) (next : Vector Nat radix)
    (elements : List α) : Prop :=
  ∀ (bucket : Fin radix) (place : Nat) (x : α),
    (elements.filter (key · = bucket))[place]? = some x → target[next.get bucket + place]? = some x

/-- Behind the first element, the remaining elements stand behind the raised cursor. -/
theorem Rises.tail {target : List α} {next : Vector Nat radix} {x : α} {rest : List α}
    (stands : Rises key target next (x :: rest)) :
    Rises key target (assign next (key x) (next.get (key x) + 1)) rest := by
  intro bucket place y found
  by_cases same : key x = bucket
  · subst same
    have here := stands (key x) (place + 1) y (by rw [filter_cons_own]; exact found)
    rw [get_assign_self, Nat.add_assoc, Nat.add_comm 1 place]
    exact here
  · rw [get_assign_of_ne next same]
    exact stands bucket place y (by rw [filter_cons_other rest same]; exact found)

/-- A scatter with rising cursors agrees with a target in which its elements stand. -/
theorem agrees_rising {target : List α} {next : Vector Nat radix} {elements : List α}
    (stands : Rises key target next elements) : Agrees target (rising key next elements) := by
  induction elements generalizing next with
  | nil => simp [Agrees, rising]
  | cons x rest ih =>
    intro write member
    rcases List.mem_cons.mp member with rfl | later
    · simpa using stands (key x) 0 x (by simp)
    · exact ih stands.tail write later

/-- A scatter with rising cursors reaches one slot for each element of a bucket. -/
theorem reaches_rising (next : Vector Nat radix) (elements : List α) (bucket : Fin radix)
    (slot : Nat) (low : next.get bucket ≤ slot)
    (high : slot < next.get bucket + (elements.filter (key · = bucket)).length) :
    Reaches (rising key next elements) slot := by
  induction elements generalizing next with
  | nil =>
    rw [List.filter_nil, List.length_nil] at high
    omega
  | cons x rest ih =>
    have later : Reaches (rising key (assign next (key x) (next.get (key x) + 1)) rest) slot →
        Reaches (rising key next (x :: rest)) slot :=
      fun ⟨y, member⟩ => ⟨y, List.mem_cons_of_mem _ member⟩
    by_cases same : key x = bucket
    · subst same
      rw [filter_cons_own, List.length_cons] at high
      rcases Nat.eq_or_lt_of_le low with here | behind
      · exact ⟨x, by rw [← here]; exact List.mem_cons_self⟩
      · apply later
        apply ih
        · rw [get_assign_self]
          omega
        · rw [get_assign_self]
          omega
    · rw [filter_cons_other rest same] at high
      apply later
      apply ih
      · rwa [get_assign_of_ne next same]
      · rwa [get_assign_of_ne next same]

/-- The elements of every bucket stand in the target in reverse, ending before the
bucket's cursor. -/
def Falls (key : α → Fin radix) (target : List α) (next : Vector Nat radix)
    (elements : List α) : Prop :=
  ∀ (bucket : Fin radix) (place : Nat) (x : α),
    (elements.filter (key · = bucket))[place]? = some x →
      place < next.get bucket ∧ target[next.get bucket - 1 - place]? = some x

/-- Before the first element, the remaining elements stand before the lowered cursor. -/
theorem Falls.tail {target : List α} {next : Vector Nat radix} {x : α} {rest : List α}
    (stands : Falls key target next (x :: rest)) :
    Falls key target (assign next (key x) (next.get (key x) - 1)) rest := by
  intro bucket place y found
  by_cases same : key x = bucket
  · subst same
    obtain ⟨room, here⟩ := stands (key x) (place + 1) y (by rw [filter_cons_own]; exact found)
    have slot : next.get (key x) - 1 - 1 - place = next.get (key x) - 1 - (place + 1) := by omega
    rw [get_assign_self, slot]
    exact ⟨by omega, here⟩
  · rw [get_assign_of_ne next same]
    exact stands bucket place y (by rw [filter_cons_other rest same]; exact found)

/-- A scatter with falling cursors never lowers a cursor below zero. It agrees with a
target in which its elements stand, it lowers every cursor by the number of elements
of the bucket, and it reaches every slot that a cursor passes. -/
theorem falling_exact {target : List α} {next : Vector Nat radix} {elements : List α}
    (stands : Falls key target next elements) :
    ∃ writes last, falling key next elements = .ok (writes, last) ∧ Agrees target writes ∧
      (∀ bucket : Fin radix,
        last.get bucket + (elements.filter (key · = bucket)).length = next.get bucket) ∧
      ∀ (bucket : Fin radix) (slot : Nat), last.get bucket ≤ slot → slot < next.get bucket →
        Reaches writes slot := by
  induction elements generalizing next with
  | nil =>
    refine ⟨[], next, rfl, by simp [Agrees], fun bucket => by simp, ?_⟩
    intro bucket slot low high
    omega
  | cons x rest ih =>
    obtain ⟨room, here⟩ := stands (key x) 0 x (by rw [filter_cons_own]; rfl)
    obtain ⟨writes, last, ran, agrees, lowered, reached⟩ := ih stands.tail
    have lowering : Word.checkedSub (next.get (key x)) 1 = .ok (next.get (key x) - 1) :=
      Word.checkedSub_eq_ok_iff.mpr ⟨by omega, rfl⟩
    refine ⟨(next.get (key x) - 1, x) :: writes, last, ?_, ?_, ?_, ?_⟩
    · exact bind_eq_ok.mpr ⟨_, lowering, bind_eq_ok.mpr ⟨_, ran, rfl⟩⟩
    · intro write member
      rcases List.mem_cons.mp member with rfl | later
      · simpa using here
      · exact agrees write later
    · intro bucket
      have rest_lowered := lowered bucket
      by_cases same : key x = bucket
      · subst same
        rw [get_assign_self] at rest_lowered
        rw [filter_cons_own, List.length_cons]
        omega
      · rw [get_assign_of_ne next same] at rest_lowered
        rwa [filter_cons_other rest same]
    · intro bucket slot low high
      have later : Reaches writes slot → Reaches ((next.get (key x) - 1, x) :: writes) slot :=
        fun ⟨y, member⟩ => ⟨y, List.mem_cons_of_mem _ member⟩
      by_cases same : key x = bucket
      · subst same
        by_cases first : slot = next.get (key x) - 1
        · exact ⟨x, by rw [first]; exact List.mem_cons_self⟩
        · apply later
          apply reached _ slot low
          rw [get_assign_self]
          omega
      · apply later
        apply reached _ slot low
        rwa [get_assign_of_ne next same]

end Scatter

end RadixSort
