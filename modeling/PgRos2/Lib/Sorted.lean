import Mathlib.Data.List.Sort
import Mathlib.Data.List.Destutter

/-!
# Sorting and removing repetitions

A sorted list is known by what is in it and how often (`insertionSort_eq_iff`), and a list that is
sorted and then stripped of consecutive repetitions by what is in it alone
(`destutter_insertionSort_congr`), because repetitions of a sorted list are consecutive.
-/

namespace Lib

variable {α : Type*} {r : α → α → Prop} [DecidableRel r] [Std.Total r] [IsTrans α r]
  [Std.Antisymm r]

/-- Two lists sort to the same one just when they are permutations of each other. -/
theorem insertionSort_eq_iff {xs ys : List α} :
    xs.insertionSort r = ys.insertionSort r ↔ xs.Perm ys := by
  constructor
  · intro h
    exact (List.perm_insertionSort r xs).symm.trans (h ▸ List.perm_insertionSort r ys)
  · intro h
    have hp : (xs.insertionSort r).Perm (ys.insertionSort r) :=
      (List.perm_insertionSort r xs).trans (h.trans (List.perm_insertionSort r ys).symm)
    exact hp.eq_of_pairwise' (List.pairwise_insertionSort r xs) (List.pairwise_insertionSort r ys)

variable [DecidableEq α]

theorem destutter_insertionSort (xs : List α) :
    (xs.insertionSort r).destutter (· ≠ ·) = (xs.insertionSort r).dedup :=
  (List.pairwise_insertionSort r xs).destutter_eq_dedup

theorem nodup_destutter_insertionSort (xs : List α) :
    ((xs.insertionSort r).destutter (· ≠ ·)).Nodup := by
  rw [destutter_insertionSort]
  exact List.nodup_dedup _

theorem mem_destutter_insertionSort {xs : List α} {x : α} :
    x ∈ (xs.insertionSort r).destutter (· ≠ ·) ↔ x ∈ xs := by
  rw [destutter_insertionSort, List.mem_dedup, List.mem_insertionSort]

/-- What is sorted and stripped of repetitions does not depend on order and repetitions. -/
theorem destutter_insertionSort_congr {xs ys : List α} (h : ∀ x, x ∈ xs ↔ x ∈ ys) :
    (xs.insertionSort r).destutter (· ≠ ·) = (ys.insertionSort r).destutter (· ≠ ·) := by
  have hsorted : ∀ zs : List α, ((zs.insertionSort r).destutter (· ≠ ·)).Pairwise r := fun zs =>
    (List.pairwise_insertionSort r zs).sublist (List.destutter_sublist (· ≠ ·) _)
  have hp : ((xs.insertionSort r).destutter (· ≠ ·)).Perm
      ((ys.insertionSort r).destutter (· ≠ ·)) := by
    refine (List.perm_ext_iff_of_nodup (nodup_destutter_insertionSort xs)
      (nodup_destutter_insertionSort ys)).mpr fun x => ?_
    rw [mem_destutter_insertionSort, mem_destutter_insertionSort, h]
  exact hp.eq_of_pairwise' (hsorted xs) (hsorted ys)

end Lib
