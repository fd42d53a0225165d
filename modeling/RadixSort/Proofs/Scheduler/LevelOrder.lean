import RadixSort.Scheduler.LevelOrder
import Mathlib.Data.List.Perm.Basic

/-!
# The families of a forest

The family of a task is the task and all its descendants. Level order goes through a
forest level by level and lists every task of every family once, so in which order the
families are gone through makes no difference to what is listed.
-/
namespace RadixSort.TaskTree

variable {ι : Type}

/-- A task and all its descendants, level by level. -/
def family (tree : TaskTree ι) : List (TaskTree ι) := levelOrder [tree]

/-- The roots of a forest come before all levels below them. -/
theorem levelOrder_eq (forest : List (TaskTree ι)) :
    levelOrder forest = forest ++ levelOrder (nextLevel forest) := by
  rw [levelOrder]
  split
  · rename_i none
    subst none
    rw [nextLevel, List.flatMap_nil, levelOrder, dif_pos rfl, List.append_nil]
  · rfl

/-- There are no tasks in an empty forest. -/
theorem levelOrder_nil : levelOrder ([] : List (TaskTree ι)) = [] := by
  rw [levelOrder]
  exact dif_pos rfl

/-- A forest without tasks has no roots. -/
theorem eq_nil_of_sizeAll {forest : List (TaskTree ι)} (none : sizeAll forest = 0) :
    forest = [] := by
  have levels := sizeAll_nextLevel forest
  exact List.length_eq_zero_iff.mp (by omega)

/-- A task makes way for its children. -/
theorem sizeAll_cons (task : TaskTree ι) (rest : List (TaskTree ι)) :
    sizeAll (task :: rest) = sizeAll (rest ++ task.children) + 1 := by
  have levels : sizeAll task.children + 1 = sizeAll [task] := by
    have below := sizeAll_nextLevel [task]
    rwa [nextLevel, List.flatMap_singleton] at below
  rw [← List.singleton_append, sizeAll_append, sizeAll_append, ← levels]
  omega

/-- Level order lists every task of a forest once.

Induct over the number of tasks, which falls from level to level. -/
theorem length_levelOrder (forest : List (TaskTree ι)) :
    (levelOrder forest).length = sizeAll forest := by
  induction size : sizeAll forest using Nat.strongRecOn generalizing forest with
  | ind total ih =>
    by_cases none : forest = []
    · subst none
      rw [levelOrder_nil, ← size]
      rfl
    · have some := List.length_pos_iff.mpr none
      have below := sizeAll_nextLevel forest
      rw [levelOrder_eq, List.length_append, ih _ (by omega) (nextLevel forest) rfl]
      omega

/-- The first part of a forest may go ahead, if its children stay behind the rest.

Induct over the number of tasks. The rest is then the first part of what is left. -/
theorem levelOrder_append (first second : List (TaskTree ι)) :
    levelOrder (first ++ second) = first ++ levelOrder (second ++ nextLevel first) := by
  induction size : sizeAll (first ++ second) using Nat.strongRecOn
    generalizing first second with
  | ind total ih =>
    by_cases none : first = []
    · rw [none, nextLevel, List.flatMap_nil, List.append_nil]
      rfl
    · have smaller := sizeAll_nextLevel first
      have some := List.length_pos_iff.mpr none
      rw [sizeAll_append] at size
      have later := ih _ (by rw [← size, sizeAll_append]; omega) second (nextLevel first) rfl
      rw [later, levelOrder_eq (first ++ second), nextLevel, List.flatMap_append,
        List.append_assoc]
      rfl

/-- The task that has waited longest goes ahead, and its children wait behind the others. -/
theorem levelOrder_cons (tree : TaskTree ι) (rest : List (TaskTree ι)) :
    levelOrder (tree :: rest) = tree :: levelOrder (rest ++ tree.children) := by
  have ahead := levelOrder_append [tree] rest
  rwa [nextLevel, List.flatMap_singleton] at ahead

/-- Tasks without a fault go ahead of the first that ends in one. -/
theorem upToFault_append {ended : List (TaskTree ι)} (clean : ∀ task ∈ ended, task.fault = none)
    (rest : List (TaskTree ι)) : upToFault (ended ++ rest) = ended ++ upToFault rest := by
  induction ended with
  | nil => rfl
  | cons task later ih =>
    rw [List.cons_append, upToFault, if_pos (clean task List.mem_cons_self),
      ih fun other member => clean other (List.mem_cons_of_mem _ member)]
    rfl

/-- All tasks of a list without a fault come up to its end. -/
theorem upToFault_of_clean {tasks : List (TaskTree ι)}
    (clean : ∀ task ∈ tasks, task.fault = none) : upToFault tasks = tasks := by
  have all := upToFault_append clean []
  rwa [List.append_nil, upToFault, List.append_nil] at all

/-- What follows a fault does not matter. -/
theorem upToFault_append_of_faulty {first : List (TaskTree ι)} {fault : Fault}
    (faulty : first.findSome? TaskTree.fault = some fault) (rest : List (TaskTree ι)) :
    upToFault (first ++ rest) = upToFault first := by
  induction first with
  | nil => cases faulty
  | cons task later ih =>
    rw [List.cons_append, upToFault, upToFault]
    by_cases clean : task.fault = none
    · rw [List.findSome?_cons, clean] at faulty
      rw [if_pos clean, if_pos clean, ih faulty]
    · rw [if_neg clean, if_neg clean]

/-- Two forests together have the tasks of both.

Induct over the number of tasks, which falls from level to level. -/
theorem levelOrder_append_perm (first second : List (TaskTree ι)) :
    (levelOrder (first ++ second)).Perm (levelOrder first ++ levelOrder second) := by
  induction size : sizeAll (first ++ second) using Nat.strongRecOn
    generalizing first second with
  | ind total ih =>
    by_cases ended : first ++ second = []
    · obtain ⟨rfl, rfl⟩ := List.append_eq_nil_iff.mp ended
      simp [levelOrder]
    · have smaller := sizeAll_nextLevel (first ++ second)
      have some := List.length_pos_iff.mpr ended
      have levels : nextLevel (first ++ second) = nextLevel first ++ nextLevel second :=
        List.flatMap_append
      rw [levels] at smaller
      have below := ih _ (by omega) (nextLevel first) (nextLevel second) rfl
      rw [levelOrder_eq first, levelOrder_eq second, levelOrder_eq (first ++ second), levels,
        List.append_assoc, List.append_assoc]
      refine List.Perm.append_left first ?_
      exact (below.append_left second).trans (List.perm_append_comm_assoc _ _ _)

/-- A family is its root and the families of the children. -/
theorem family_eq (tree : TaskTree ι) : family tree = tree :: levelOrder tree.children := by
  rw [family, levelOrder_eq, nextLevel, List.flatMap_singleton, List.singleton_append]

/-- Level order lists the families of the roots. -/
theorem levelOrder_perm (forest : List (TaskTree ι)) :
    (levelOrder forest).Perm (forest.flatMap family) := by
  induction forest with
  | nil => simp [levelOrder]
  | cons tree rest ih =>
    rw [List.flatMap_cons]
    exact (levelOrder_append_perm [tree] rest).trans (List.Perm.append_left _ ih)

/-- A family is its root and the families of the children, one after the other. -/
theorem family_perm (tree : TaskTree ι) :
    (family tree).Perm (tree :: tree.children.flatMap family) := by
  rw [family_eq]
  exact (levelOrder_perm tree.children).cons tree

end RadixSort.TaskTree
