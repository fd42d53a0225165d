/-!
# Interleavings

Several lists of actions, each of which is carried out in order, are interleaved by
taking the next action now from one list and now from another until all of them are
used up.
-/
namespace RadixSort

variable {β : Type}

/-- `merged` takes every action of every list once, keeping the order within each. -/
inductive Interleaving : List (List β) → List β → Prop where
  | done (lists : List (List β)) (empty : ∀ actions ∈ lists, actions = []) :
      Interleaving lists []
  | next (lists : List (List β)) (position : Nat) (action : β) (rest merged : List β)
      (here : lists[position]? = some (action :: rest))
      (later : Interleaving (lists.set position rest) merged) :
      Interleaving lists (action :: merged)

end RadixSort
