import RadixSort.Scheduler.Session

/-!
# Forests in level order

The level order of a forest lists its roots, then the children of the roots in the
order of their parents, then the children of those, and so on. One worker that
takes tasks in the order in which they were enqueued executes a forest in this
order. It is lost at the first task that ends in a fault.
-/
namespace RadixSort.TaskTree

variable {ι : Type}

/-- The children of a forest, in the order of their parents. -/
def nextLevel (forest : List (TaskTree ι)) : List (TaskTree ι) := forest.flatMap children

@[simp] theorem sizeAll_append (first second : List (TaskTree ι)) :
    sizeAll (first ++ second) = sizeAll first + sizeAll second := by
  induction first with
  | nil => simp [sizeAll]
  | cons tree rest ih => simp [sizeAll, ih, Nat.add_assoc]

/-- Leaving out the roots of a forest leaves out as many tasks as there are roots. -/
theorem sizeAll_nextLevel (forest : List (TaskTree ι)) :
    sizeAll (nextLevel forest) + forest.length = sizeAll forest := by
  induction forest with
  | nil => simp [nextLevel, sizeAll]
  | cons tree rest ih =>
    cases tree
    simp only [nextLevel, List.flatMap_cons, children, sizeAll_append, sizeAll, size,
      List.length_cons] at *
    omega

/-- The tasks of a forest, level by level. -/
def levelOrder (forest : List (TaskTree ι)) : List (TaskTree ι) :=
  if ended : forest = [] then
    []
  else
    have := List.length_pos_iff.mpr ended
    have := sizeAll_nextLevel forest
    forest ++ levelOrder (nextLevel forest)
termination_by sizeAll forest

/-- The first tasks of a list, up to and including the first that ends in a fault. -/
def upToFault : List (TaskTree ι) → List (TaskTree ι)
  | [] => []
  | task :: rest => if task.fault = none then task :: upToFault rest else [task]

end RadixSort.TaskTree
