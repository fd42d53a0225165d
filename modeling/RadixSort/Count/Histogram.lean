import RadixSort.Word

/-!
# Counting by bucket

A histogram counts the elements of each bucket. Its running totals say where the
buckets lie when they are put one after the other: a bucket starts where all
buckets before it end. Both are computed in one pass over a vector that is
updated in place.

A machine counts in words. The checked forms make every addition through
`Word.checked`.
-/
namespace RadixSort

variable {α : Type} {radix : Nat}

/-- Replace the entry of one bucket. -/
def assign {β : Type} (entries : Vector β radix) (bucket : Fin radix) (entry : β) :
    Vector β radix :=
  entries.set bucket entry bucket.isLt

/-- The entry of a bucket is the one it was given last. -/
@[simp] theorem get_assign_self {β : Type} (entries : Vector β radix) (bucket : Fin radix)
    (entry : β) : (assign entries bucket entry).get bucket = entry :=
  Vector.getElem_set_self bucket.isLt

/-- The entries of all other buckets stay as they are. -/
theorem get_assign_of_ne {β : Type} (entries : Vector β radix) {bucket other : Fin radix}
    (different : bucket ≠ other) (entry : β) :
    (assign entries bucket entry).get other = entries.get other :=
  Vector.getElem_set_ne bucket.isLt other.isLt fun equal => different (Fin.ext equal)

/-- Raising the entry of an element's bucket makes up for the element where the rest is counted. -/
theorem get_raise_add_countP (key : α → Fin radix) (entries : Vector Nat radix) (x : α)
    (rest : List α) (bucket : Fin radix) :
    (assign entries (key x) (entries.get (key x) + 1)).get bucket +
        rest.countP (key · = bucket) =
      entries.get bucket + (x :: rest).countP (key · = bucket) := by
  rw [List.countP_cons]
  by_cases same : key x = bucket
  · subst same
    simp
    omega
  · simp [get_assign_of_ne entries same, same]

/-- The number of elements in each bucket. -/
def histogram (key : α → Fin radix) (elements : List α) : Vector Nat radix :=
  elements.foldl (fun counts x => assign counts (key x) (counts.get (key x) + 1))
    (Vector.replicate radix 0)

/-- A count that has been started is continued. -/
theorem get_foldl_count (key : α → Fin radix) (elements : List α) (counts : Vector Nat radix)
    (bucket : Fin radix) :
    (elements.foldl (fun counts x => assign counts (key x) (counts.get (key x) + 1)) counts).get
        bucket = counts.get bucket + elements.countP (key · = bucket) := by
  induction elements generalizing counts with
  | nil => simp
  | cons x rest ih => rw [List.foldl_cons, ih, get_raise_add_countP]

/-- A histogram counts every element in its own bucket and in no other. -/
@[simp] theorem get_histogram (key : α → Fin radix) (elements : List α) (bucket : Fin radix) :
    (histogram key elements).get bucket = elements.countP (key · = bucket) := by
  have none : (Vector.replicate radix 0).get bucket = 0 :=
    Vector.getElem_replicate bucket.isLt
  rw [histogram, get_foldl_count, none, Nat.zero_add]

/-- Count elements in words, in addition to counts so far. -/
def countInto (key : α → Fin radix) :
    List α → Vector Nat radix → Except Fault (Vector Nat radix)
  | [], counts => .ok counts
  | x :: rest, counts => do
    let count ← Word.checked (counts.get (key x) + 1)
    countInto key rest (assign counts (key x) count)

/-- The number of elements in each bucket, counted in words. -/
def checkedHistogram (key : α → Fin radix) (elements : List α) :
    Except Fault (Vector Nat radix) :=
  countInto key elements (Vector.replicate radix 0)

/-- Where buckets of given sizes lie when they follow one another. -/
structure Layout (radix : Nat) where
  /-- The first slot of each bucket. -/
  starts : Vector Nat radix
  /-- The number of slots of all buckets together. -/
  total : Nat
  deriving DecidableEq, Repr

namespace Layout

/-- Extend a layout that is complete below `bucket`, where `sum` slots are taken. -/
def extend (sizes : Vector Nat radix) (bucket sum : Nat) (starts : Vector Nat radix) :
    Layout radix :=
  if inside : bucket < radix then
    extend sizes (bucket + 1) (sum + sizes[bucket]) (starts.set bucket sum)
  else
    ⟨starts, sum⟩
termination_by radix - bucket

/-- The layout of buckets of the given sizes. -/
def ofSizes (sizes : Vector Nat radix) : Layout radix :=
  extend sizes 0 0 (Vector.replicate radix 0)

/-- Extend a layout in words. -/
def checkedExtend (sizes : Vector Nat radix) (bucket sum : Nat) (starts : Vector Nat radix) :
    Except Fault (Layout radix) :=
  if inside : bucket < radix then do
    let reached ← Word.checked (sum + sizes[bucket])
    checkedExtend sizes (bucket + 1) reached (starts.set bucket sum)
  else
    .ok ⟨starts, sum⟩
termination_by radix - bucket

/-- The layout of buckets of the given sizes, computed in words. -/
def checkedOfSizes (sizes : Vector Nat radix) : Except Fault (Layout radix) :=
  checkedExtend sizes 0 0 (Vector.replicate radix 0)

/-- The first slot of each bucket, and after them the end of the last. -/
def boundaries (layout : Layout radix) (stop : Nat) : Vector Nat (radix + 1) :=
  layout.starts.push stop

/-- One past the last slot of each bucket. -/
def ends (layout : Layout radix) (sizes : Vector Nat radix) : Vector Nat radix :=
  Vector.zipWith (· + ·) layout.starts sizes

end Layout

/-- The size of the last bucket that is not empty, or zero. -/
def lastSize (sizes : Vector Nat radix) : Nat :=
  sizes.foldl (fun last size => if 0 < size then size else last) 0

end RadixSort
