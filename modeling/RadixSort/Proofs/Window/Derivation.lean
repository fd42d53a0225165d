import RadixSort.Window.Descriptor
import RadixSort.Proofs.Memory

/-!
# A descriptor denotes a window

The two places of a descriptor move together. Whatever steps lead to it from the
descriptor of two whole arrays, it is the descriptor of a window: both places have one
index, the mark tells which array is active, and the range lies within the arrays. The
index is the sum of the offsets on the way, and the mark the parity of the exchanges since
the last copy.

That is a law of single derivations. In a registry every descriptor has the derivation it
is listed with, and a call adds one step to one of them or changes nothing.
-/
namespace RadixSort

variable {α : Type}

namespace Descriptor

/-- Narrowing gives the part if it does not reach past the end. -/
theorem narrow_of_inside (descriptor : Descriptor) {offset length : Nat} (refusal : Fault)
    (fits : offset + length < Word.bound) (inside : offset + length ≤ descriptor.length) :
    descriptor.narrow offset length refusal = .ok (descriptor.part offset length) :=
  bind_eq_ok.mpr ⟨_, Word.checked_eq_ok_iff.mpr ⟨fits, rfl⟩, by rw [if_pos inside]; rfl⟩

/-- Narrowing is refused if the part reaches past the end. -/
theorem narrow_of_beyond (descriptor : Descriptor) {offset length : Nat} (refusal : Fault)
    (beyond : descriptor.length < offset + length) :
    ∃ fault, descriptor.narrow offset length refusal = .error fault := by
  unfold narrow
  cases word : Word.checked (offset + length) with
  | error fault => exact ⟨fault, rfl⟩
  | ok stop =>
    obtain ⟨-, rfl⟩ := Word.checked_eq_ok_iff.mp word
    refine ⟨refusal, ?_⟩
    change (if _ then _ else _) = _
    rw [if_neg (Nat.not_le.mpr beyond)]
    rfl

/-- Narrowing is refused exactly for a part that reaches past the end, however far. -/
theorem narrow_refused_iff {descriptor : Descriptor} (fits : descriptor.length < Word.bound)
    (offset length : Nat) (refusal : Fault) :
    (∃ fault, descriptor.narrow offset length refusal = .error fault) ↔
      descriptor.length < offset + length := by
  refine ⟨fun refused => ?_, descriptor.narrow_of_beyond refusal⟩
  rcases Nat.lt_or_ge descriptor.length (offset + length) with beyond | inside
  · exact beyond
  · obtain ⟨fault, refused⟩ := refused
    rw [descriptor.narrow_of_inside refusal (Nat.lt_of_le_of_lt inside fits) inside] at refused
    cases refused

/-- Exchanging the roles of a part is refused exactly where narrowing to it is. -/
theorem flip_refused_iff {descriptor : Descriptor} (fits : descriptor.length < Word.bound)
    (offset length : Nat) : (∃ fault, descriptor.flip offset length = .error fault) ↔
      descriptor.length < offset + length := by
  rw [← narrow_refused_iff fits offset length .flipRangeOutOfBounds, flip]
  cases descriptor.narrow offset length .flipRangeOutOfBounds with
  | error fault => exact Iff.rfl
  | ok part =>
    constructor
    · rintro ⟨_, refused⟩
      cases refused
    · rintro ⟨_, refused⟩
      cases refused

end Descriptor

namespace Window

/-- The descriptor of a window. -/
def descriptor (window : Window) : Descriptor where
  active := ⟨window.activeSide, window.offset⟩
  shadow := ⟨window.shadowSide, window.offset⟩
  length := window.length
  flipped := window.flipped

/-- Two whole arrays have the descriptor of their window. -/
theorem descriptor_whole (length : Nat) : (whole length).descriptor = Descriptor.whole length := rfl

/-- Narrowing a descriptor narrows its window. -/
theorem descriptor_sub (window : Window) (offset length : Nat) :
    window.descriptor.sub offset length = (window.sub offset length).map descriptor := by
  unfold Descriptor.sub Descriptor.narrow sub
  cases Word.checked (offset + length) with
  | error fault => rfl
  | ok stop =>
    change (if stop ≤ window.length then _ else _) = (if stop ≤ window.length then _ else _ :
      Except Fault Window).map descriptor
    split <;> rfl

/-- Exchanging the roles of a descriptor does so in its window. -/
theorem descriptor_exchanged (window : Window) :
    window.descriptor.exchanged = window.exchanged.descriptor := by
  obtain ⟨offset, length, flipped⟩ := window
  cases flipped <;> rfl

/-- Exchanging the roles of a part of a descriptor does so in its window. -/
theorem descriptor_flip (window : Window) (offset length : Nat) :
    window.descriptor.flip offset length = (window.flip offset length).map descriptor := by
  unfold Descriptor.flip Descriptor.narrow flip
  cases Word.checked (offset + length) with
  | error fault => rfl
  | ok stop =>
    change ((if stop ≤ window.length then _ else _) >>= _) =
      (if stop ≤ window.length then _ else _ : Except Fault Window).map descriptor
    split
    · exact congrArg Except.ok
        (descriptor_exchanged ⟨window.offset + offset, length, window.flipped⟩)
    · rfl

/-- Settling a descriptor settles its window. -/
theorem descriptor_settled (window : Window) :
    window.descriptor.settled = window.settled.descriptor := by
  obtain ⟨offset, length, flipped⟩ := window
  cases flipped <;> rfl

/-- A step from the descriptor of a window leads to that of the next window. -/
theorem descriptor_derive (window : Window) (step : Derive) :
    window.descriptor.derive step = (window.derive step).map descriptor := by
  cases step with
  | sub offset length => exact window.descriptor_sub offset length
  | flip offset length => exact window.descriptor_flip offset length
  | copyBack => exact congrArg Except.ok window.descriptor_settled

/-- A derivation of descriptors is one of windows. -/
theorem descriptor_deriveAll (window : Window) (steps : List Derive) :
    window.descriptor.deriveAll steps = (window.deriveAll steps).map descriptor := by
  induction steps generalizing window with
  | nil => rfl
  | cons step rest ih =>
    rw [Descriptor.deriveAll, deriveAll, List.foldlM_cons, List.foldlM_cons, descriptor_derive]
    cases window.derive step with
    | error fault => rfl
    | ok next => exact ih next

/-- A window after one step: where it starts, whether its roles are exchanged, and that it
lies within the one before. -/
theorem derive_exact {window next : Window} {step : Derive} (ok : window.derive step = .ok next) :
    next.offset = window.offset + Derive.shift [step] ∧
      next.flipped = Derive.exchanged [step] window.flipped ∧
      next.offset + next.length ≤ window.offset + window.length := by
  cases step with
  | sub offset length =>
    obtain ⟨-, inside, rfl⟩ := sub_eq_ok_iff.mp ok
    exact ⟨rfl, rfl, by dsimp only; omega⟩
  | flip offset length =>
    obtain ⟨-, inside, rfl⟩ := flip_eq_ok_iff.mp ok
    exact ⟨rfl, rfl, by dsimp only; omega⟩
  | copyBack =>
    cases ok
    exact ⟨rfl, rfl, Nat.le_refl _⟩

end Window

namespace Derive

/-- The start moves by the first step and by the rest. -/
theorem shift_cons (step : Derive) (rest : List Derive) :
    shift (step :: rest) = shift [step] + shift rest := by
  cases step <;> simp [shift]

/-- The rest of the steps goes on with the parity that the first one leaves. -/
theorem exchanged_cons (step : Derive) (rest : List Derive) (parity : Bool) :
    exchanged (step :: rest) parity = exchanged rest (exchanged [step] parity) := by
  cases step <;> rfl

end Derive

/-- A window after a derivation.

Induct over the steps. Each starts from where the one before has led. -/
theorem Window.deriveAll_exact {steps : List Derive} {window last : Window}
    (ok : window.deriveAll steps = .ok last) :
    last.offset = window.offset + Derive.shift steps ∧
      last.flipped = Derive.exchanged steps window.flipped ∧
      last.offset + last.length ≤ window.offset + window.length := by
  induction steps generalizing window with
  | nil =>
    cases ok
    exact ⟨rfl, rfl, Nat.le_refl _⟩
  | cons step rest ih =>
    rw [deriveAll, List.foldlM_cons] at ok
    obtain ⟨next, first, later⟩ := bind_eq_ok.mp ok
    obtain ⟨offset, flipped, within⟩ := derive_exact first
    obtain ⟨start, parity, inside⟩ := ih later
    rw [Derive.shift_cons, Derive.exchanged_cons]
    refine ⟨?_, ?_, Nat.le_trans inside within⟩
    · rw [start, offset, Nat.add_assoc]
    · rw [parity, flipped]

namespace Descriptor

/-- What a derivation leads to from two whole arrays is the descriptor of a window, whose
start and mark are told by the steps. -/
theorem exists_window {size : Nat} {steps : List Derive} {descriptor : Descriptor}
    (ok : (whole size).deriveAll steps = .ok descriptor) :
    ∃ window : Window, descriptor = window.descriptor ∧ window.offset = Derive.shift steps ∧
      window.flipped = Derive.exchanged steps false ∧ window.offset + window.length ≤ size := by
  rw [← Window.descriptor_whole, Window.descriptor_deriveAll] at ok
  cases derived : (Window.whole size).deriveAll steps with
  | error fault =>
    rw [derived] at ok
    cases ok
  | ok window =>
    rw [derived] at ok
    cases ok
    obtain ⟨offset, flipped, inside⟩ := Window.deriveAll_exact derived
    refine ⟨window, rfl, ?_, flipped, ?_⟩
    · rw [offset, Window.whole, Nat.zero_add]
    · rw [Window.whole, Nat.zero_add] at inside
      exact inside

end Descriptor

/-- What holds of a descriptor obtained from two arrays of length `size`: it has come from
that of the whole arrays by the steps it is listed with, it lies within the arrays, and its
two places are at one index, the sum of the offsets of the steps. The mark is the parity of
the exchanges since the last copy, and tells in which array the valid data is. -/
structure Derived.Aligned (size : Nat) (entry : Derived) : Prop where
  derived : (Descriptor.whole size).deriveAll entry.steps = .ok entry.descriptor
  within : Derive.shift entry.steps + entry.descriptor.length ≤ size
  flipped : entry.descriptor.flipped = Derive.exchanged entry.steps false
  active : entry.descriptor.active =
    ⟨if entry.descriptor.flipped then .scratch else .primary, Derive.shift entry.steps⟩
  shadow : entry.descriptor.shadow =
    ⟨if entry.descriptor.flipped then .primary else .scratch, Derive.shift entry.steps⟩

/-- A derivation aligns the descriptor it leads to. -/
theorem Derived.aligned {size : Nat} {entry : Derived}
    (derived : (Descriptor.whole size).deriveAll entry.steps = .ok entry.descriptor) :
    entry.Aligned size := by
  obtain ⟨window, same, offset, flipped, within⟩ := Descriptor.exists_window derived
  constructor
  case derived => exact derived
  case within =>
    rw [same, ← offset]
    exact within
  case flipped =>
    rw [same]
    exact flipped
  case active =>
    rw [same, ← offset]
    rfl
  case shadow =>
    rw [same, ← offset]
    cases mark : window.flipped <;> simp [Window.descriptor, Window.shadowSide,
      Window.activeSide, Side.other, mark]

namespace Registry

/-- What every call keeps: the lengths of the arrays, and that each descriptor has the
derivation it is listed with. -/
structure Sound (size : Nat) (registry : Registry α) : Prop where
  sizes : ∀ side, (registry.memory.side side).size = size
  derived : ∀ entry ∈ registry.derived,
    (Descriptor.whole size).deriveAll entry.steps = .ok entry.descriptor

variable {size : Nat} {registry : Registry α}

/-- Two arrays of equal length make a sound registry. -/
theorem exists_opened {primary scratch : Array α} (same : primary.size = scratch.size) :
    ∃ registry, opened primary scratch = .ok registry ∧ registry.Sound primary.size := by
  refine ⟨⟨⟨primary, scratch⟩, [⟨.whole primary.size, []⟩]⟩, ?_, ?_, ?_⟩
  · rw [opened, Memory.pair, if_pos same]
    rfl
  · intro side
    cases side
    · rfl
    · exact same.symm
  · intro entry member
    rw [List.mem_singleton.mp member]
    rfl

/-- An operation leaves the lengths of the arrays. -/
theorem size_effect (descriptor : Descriptor) (memory : Memory α) (step : Derive) (side : Side) :
    ((descriptor.effect memory step).side side).size = (memory.side side).size := by
  cases step with
  | sub offset length => rfl
  | flip offset length => rfl
  | copyBack =>
    rw [Descriptor.effect, Descriptor.copyBack]
    split
    · rw [Memory.store, Memory.side_modifySide]
      split
      · rename_i here
        rw [size_overwrite, here]
      · rfl
    · rfl

/-- An operation that is called on a descriptor adds a descriptor with one more step, or
changes nothing. -/
theorem Sound.invoke (sound : registry.Sound size) {entry : Derived}
    (member : entry ∈ registry.derived) (step : Derive) :
    (registry.invoke entry step).1.Sound size := by
  unfold Registry.invoke
  cases made : entry.descriptor.derive step with
  | error fault => exact sound
  | ok descriptor =>
    refine ⟨fun side => (size_effect _ _ _ side).trans (sound.sizes side), ?_⟩
    intro other listed
    rcases List.mem_append.mp listed with old | new
    · exact sound.derived other old
    · rw [List.mem_singleton.mp new]
      rw [Descriptor.deriveAll, List.foldlM_append]
      refine bind_eq_ok.mpr ⟨entry.descriptor, sound.derived entry member, ?_⟩
      rw [List.foldlM_cons, made]
      rfl

/-- A call keeps a registry sound. -/
theorem Sound.call (sound : registry.Sound size) (call : Call) :
    (registry.call call).Sound size := by
  unfold Registry.call
  split
  · exact sound
  · rename_i entry found
    exact sound.invoke (List.mem_of_getElem? found) call.step

/-- Any number of calls keep a registry sound. -/
theorem Sound.callAll (sound : registry.Sound size) (calls : List Call) :
    (registry.callAll calls).Sound size := by
  induction calls generalizing registry with
  | nil => exact sound
  | cons call rest ih => exact ih (sound.call call)

/-- Whatever is called on the descriptors of two arrays of equal length, in whatever order,
every descriptor that comes of it is aligned and lies within the arrays, which keep their
lengths. Narrowing it, with or without an exchange of the roles, is refused exactly if the
part reaches past its end, and a call that is refused changes nothing. -/
theorem callAll_aligned {primary scratch : Array α} (same : primary.size = scratch.size)
    (fits : primary.size < Word.bound) :
    ∃ registry, opened primary scratch = .ok registry ∧ ∀ calls : List Call,
      (∀ side, ((registry.callAll calls).memory.side side).size = primary.size) ∧
      ∀ entry ∈ (registry.callAll calls).derived,
        entry.Aligned primary.size ∧
        (∀ offset length,
          ((∃ fault, entry.descriptor.sub offset length = .error fault) ↔
            entry.descriptor.length < offset + length) ∧
          ((∃ fault, entry.descriptor.flip offset length = .error fault) ↔
            entry.descriptor.length < offset + length)) ∧
        ∀ step fault, entry.descriptor.derive step = .error fault →
          (registry.callAll calls).invoke entry step = (registry.callAll calls, some fault) := by
  obtain ⟨registry, opens, sound⟩ := exists_opened same
  refine ⟨registry, opens, fun calls => ⟨(sound.callAll calls).sizes, fun entry member => ?_⟩⟩
  have aligned := Derived.aligned ((sound.callAll calls).derived entry member)
  have short : entry.descriptor.length < Word.bound :=
    Nat.lt_of_le_of_lt (Nat.le_trans (Nat.le_add_left _ _) aligned.within) fits
  refine ⟨aligned, fun offset length => ⟨?_, ?_⟩, fun step fault refused => ?_⟩
  · exact Descriptor.narrow_refused_iff short offset length _
  · exact Descriptor.flip_refused_iff short offset length
  · rw [invoke, refused]

/-- Calls on two arrays of six. The last but one would reach past the end of a word. -/
def nested : List Call :=
  [⟨0, .flip 0 6⟩, ⟨1, .sub 2 3⟩, ⟨2, .flip 1 2⟩, ⟨1, .sub (Word.bound - 1) 2⟩, ⟨3, .flip 0 2⟩]

/-- A part of a part whose roles have been exchanged three times. -/
theorem callAll_aligned_nested :
    let primary := #[0, 0, 0, 0, 0, 0]
    let scratch := #[10, 11, 12, 13, 14, 15]
    primary.size = scratch.size ∧ primary.size < Word.bound ∧
      ∃ registry, opened primary scratch = .ok registry ∧
        ∃ entry ∈ (registry.callAll nested).derived,
          entry.descriptor = ⟨⟨.scratch, 3⟩, ⟨.primary, 3⟩, 2, true⟩ ∧ entry.Aligned 6 := by
  intro primary scratch
  have same : primary.size = scratch.size := rfl
  obtain ⟨registry, opens, aligned⟩ := callAll_aligned same (by decide)
  let fresh : Registry Nat := ⟨⟨primary, scratch⟩, [⟨.whole 6, []⟩]⟩
  have known : opened primary scratch = .ok fresh := rfl
  obtain rfl : fresh = registry := Except.ok.inj (known.symm.trans opens)
  have last : Derived.mk ⟨⟨.scratch, 3⟩, ⟨.primary, 3⟩, 2, true⟩
      [.flip 0 6, .sub 2 3, .flip 1 2, .flip 0 2] ∈ (fresh.callAll nested).derived := by decide
  exact ⟨rfl, by decide, fresh, known, _, last, rfl, ((aligned nested).2 _ last).1⟩

end Registry

end RadixSort
