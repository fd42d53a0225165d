import RadixSort.Memory
import RadixSort.Count.Histogram

/-!
# Writing through blocks of slots

Instead of sending every element straight to its bucket, a scatter may collect the
elements of each bucket in a block of 32 slots and send a block when it is full.
A block that has been sent is used again from its first slot; what its other slots
still hold from before is never sent. At the end the elements left in the blocks
are sent, bucket by bucket. A cursor moves only when a full block is sent.
-/
namespace RadixSort.Lsd

variable {α : Type} {radix : Nat}

/-- The number of slots of a block. -/
def blockSlots : Nat := 32

/-- The slots of one bucket, of which the first `fill` hold elements to be sent. -/
structure Block (α : Type) where
  slots : Vector (Option α) blockSlots
  fill : Nat
  deriving DecidableEq, Repr

namespace Block

/-- A block that holds nothing. -/
def empty : Block α := ⟨Vector.replicate blockSlots none, 0⟩

/-- Store an element in the first slot that is not filled. -/
def put (block : Block α) (x : α) : Except Fault (Block α) :=
  if free : block.fill < blockSlots then
    .ok ⟨block.slots.set block.fill (some x), block.fill + 1⟩
  else
    .error (.indexOutOfBounds blockSlots block.fill)

/-- The writes that send the filled slots to consecutive slots from `start` on. -/
def send (block : Block α) (start : Nat) : List (SlotWrite α) :=
  ((block.slots.toList.take block.fill).zipIdx start).filterMap fun (slot, target) =>
    slot.map fun x => (target, x)

/-- The block after it has been sent. -/
def reset (block : Block α) : Block α := { block with fill := 0 }

end Block

/-- The blocks of all buckets, and where each bucket's next block goes. -/
structure Outgoing (α : Type) (radix : Nat) where
  next : Vector Nat radix
  blocks : Vector (Block α) radix

namespace Outgoing

/-- Empty blocks, with the cursors at the starts of a chunk's shares. -/
def opened (starts : Vector Nat radix) : Outgoing α radix :=
  ⟨starts, Vector.replicate radix .empty⟩

/-- Put an element into the block of its bucket, and send the block if that fills
it. -/
def feed (key : α → Fin radix) (outgoing : Outgoing α radix) (x : α) :
    Except Fault (List (SlotWrite α) × Outgoing α radix) := do
  let bucket := key x
  let block ← (outgoing.blocks.get bucket).put x
  if block.fill = blockSlots then
    let start := outgoing.next.get bucket
    return (block.send start,
      ⟨assign outgoing.next bucket (start + blockSlots), assign outgoing.blocks bucket block.reset⟩)
  else
    return ([], { outgoing with blocks := assign outgoing.blocks bucket block })

/-- The writes that send what is left in the blocks. -/
def sendRest (outgoing : Outgoing α radix) : List (SlotWrite α) :=
  (List.finRange radix).flatMap fun bucket =>
    (outgoing.blocks.get bucket).send (outgoing.next.get bucket)

/-- The writes of a scatter through blocks. -/
def scatter (key : α → Fin radix) :
    Outgoing α radix → List α → Except Fault (List (SlotWrite α))
  | outgoing, [] => .ok outgoing.sendRest
  | outgoing, x :: rest => do
    let (writes, outgoing) ← outgoing.feed key x
    let later ← scatter key outgoing rest
    return writes ++ later

end Outgoing

end RadixSort.Lsd
