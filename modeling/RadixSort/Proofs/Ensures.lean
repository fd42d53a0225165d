import RadixSort.Word

/-!
# What a computation ensures

A computation may end early. What it ensures is said in two parts: a property of its
result, and which faults can take the place of a result. With no fault excused it
always gives a result; a computation that is excused from everything promises
something of its result alone.
-/
namespace RadixSort

variable {β γ : Type} {excused : Fault → Prop}

/-- A result satisfies `post`, and a fault is one of the excused. -/
def Ensures (excused : Fault → Prop) (computation : Except Fault β) (post : β → Prop) : Prop :=
  match computation with
  | .ok result => post result
  | .error fault => excused fault

namespace Ensures

@[simp] theorem ok_iff {result : β} {post : β → Prop} :
    Ensures excused (.ok result) post ↔ post result := Iff.rfl

@[simp] theorem pure_iff {result : β} {post : β → Prop} :
    Ensures excused (pure result) post ↔ post result := Iff.rfl

@[simp] theorem error_iff {fault : Fault} {post : β → Prop} :
    Ensures excused (.error fault) post ↔ excused fault := Iff.rfl

/-- What follows may rely on what went before. -/
theorem bind {first : Except Fault β} {second : β → Except Fault γ} {middle : β → Prop}
    {post : γ → Prop} (before : Ensures excused first middle)
    (after : ∀ result, middle result → Ensures excused (second result) post) :
    Ensures excused (first >>= second) post := by
  cases first with
  | ok result => exact after result before
  | error fault => exact before

/-- What is ensured of the result of one computation in two ways holds of it together. -/
theorem both {computation : Except Fault β} {first second : β → Prop}
    (ensured : Ensures excused computation first)
    (also : Ensures (fun _ => True) computation second) :
    Ensures excused computation fun result => first result ∧ second result := by
  cases computation with
  | ok result => exact ⟨ensured, also⟩
  | error fault => exact ensured

/-- What is ensured of the result of a computation holds of a result that is known. -/
theorem known {computation : Except Fault β} {post : β → Prop}
    (ensured : Ensures excused computation post) :
    Ensures excused computation fun result => computation = .ok result ∧ post result := by
  cases computation with
  | ok result => exact ⟨rfl, ensured⟩
  | error fault => exact ensured

/-- A weaker property is ensured too. -/
theorem mono {computation : Except Fault β} {strong weak : β → Prop}
    (ensured : Ensures excused computation strong)
    (weaker : ∀ result, strong result → weak result) :
    Ensures excused computation weak := by
  cases computation with
  | ok result => exact weaker result ensured
  | error fault => exact ensured

/-- What is ensured of a result does not depend on which faults are excused. -/
theorem lenient {computation : Except Fault β} {post : β → Prop}
    (ensured : Ensures excused computation post) : Ensures (fun _ => True) computation post := by
  cases computation with
  | ok result => exact ensured
  | error fault => exact trivial

/-- A computation whose result is known ensures what holds of that result. -/
theorem of_eq_ok {computation : Except Fault β} {result : β} {post : β → Prop}
    (known : computation = .ok result) (holds : post result) :
    Ensures excused computation post := by
  rw [known]
  exact holds

/-- Where no fault is excused, there is a result. -/
theorem exists_ok {computation : Except Fault β} {post : β → Prop}
    (ensured : Ensures excused computation post) (strict : ∀ fault, ¬excused fault) :
    ∃ result, computation = .ok result ∧ post result := by
  cases computation with
  | ok result => exact ⟨result, rfl, ensured⟩
  | error fault => exact absurd ensured (strict fault)

/-- What is ensured holds of any result there is. -/
theorem of_ok {computation : Except Fault β} {result : β} {post : β → Prop}
    (ensured : Ensures excused computation post) (known : computation = .ok result) :
    post result := by
  rw [known] at ensured
  exact ensured

/-- What holds of some result holds of every result there is. -/
theorem of_exists_ok {computation : Except Fault β} {post : β → Prop}
    (some : ∃ result, computation = .ok result ∧ post result) {result : β}
    (known : computation = .ok result) : post result := by
  obtain ⟨other, ran, holds⟩ := some
  cases ran.symm.trans known
  exact holds

end Ensures

/-- Reading all of a list, when no reading fails, gives what is read at each member. -/
theorem mapM_eq_map {read : β → Except Fault γ} {value : β → γ} (inputs : List β)
    (reads : ∀ x ∈ inputs, read x = .ok (value x)) :
    inputs.mapM read = .ok (inputs.map value) := by
  induction inputs with
  | nil => rfl
  | cons x rest ih =>
    have first := reads x List.mem_cons_self
    have others := ih fun y later => reads y (List.mem_cons_of_mem _ later)
    rw [List.mapM_cons, first]
    exact bind_eq_ok.mpr ⟨_, rfl, bind_eq_ok.mpr ⟨_, others, rfl⟩⟩

end RadixSort
