import RadixSort.Chunks
import RadixSort.Count.Histogram
import RadixSort.Count.Snake
import RadixSort.Partition.Rule
import RadixSort.Partition.Scatter
import RadixSort.Lsd.Block

/-!
# One pass over the elements

A pass sorts all elements stably by one byte of their keys, out of place. The
elements are divided into chunks of one length. Each chunk is counted, the counts
give every chunk its share of each bucket, and each chunk scatters its elements
into its shares. The three variants differ in where the bytes of the second scan
come from, which is a cache filled in the first or the key function once more,
and in whether the elements are collected in blocks on their way.
-/
namespace RadixSort.Lsd

variable {α : Type}

/-- The variants of a pass. -/
inductive Variant where
  /-- The bytes are read once and kept. -/
  | cached
  /-- The bytes are read in both scans. -/
  | recompute
  /-- As `recompute`, and elements travel in blocks. -/
  | writeBack
  deriving DecidableEq, Repr

/-- The starts of every chunk's shares. -/
def shares {β : Type} (key : β → Fin 256) (chunks : List (List β)) : List (Vector Nat 256) :=
  (CountTable.offsets (chunks.map (histogram key)).toArray).toList

/-- The writes of every chunk, chunk by chunk. -/
def chunkWrites (variant : Variant) (key : α → Fin 256) (chunks : List (List α)) :
    Except Fault (List (List (SlotWrite α))) :=
  match variant with
  | .cached =>
    let labelled := chunks.map (List.map fun x => (key x, x))
    let writes := (shares Prod.fst labelled).zipWith (Scatter.rising Prod.fst) labelled
    .ok (writes.map (List.map fun write => (write.1, write.2.2)))
  | .recompute => .ok ((shares key chunks).zipWith (Scatter.rising key) chunks)
  | .writeBack =>
    ((shares key chunks).zip chunks).mapM fun (starts, chunk) =>
      Outgoing.scatter key (.opened starts) chunk

/-- Sort the input by one byte into the output. -/
def pass (variant : Variant) (rule : DigitRule α 256) (chunkLength number : Nat)
    (input output : Array α) : Except Fault (Array α) := do
  rule.readAll input.toList number
  let writes ← chunkWrites variant (rule.digit · number) (chunksOf chunkLength input.toList)
  match strayWrite? output.size writes.flatten with
  | some fault => throw fault
  | none => return applyWrites output 0 writes.flatten

end RadixSort.Lsd
