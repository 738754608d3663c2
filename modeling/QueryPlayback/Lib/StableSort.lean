import Mathlib.Data.List.Basic
import Mathlib.Order.Lattice
import Mathlib.Order.MinMax

/-!
# Stable sorting by a key

A stable sort moves elements of a class past each other only when the key
demands it. So a class whose keys never decrease keeps its order. Raising
every key to the maximum seen so far in its class makes all classes such.
-/

namespace QueryPlayback.StableSort

variable {α β : Type*} [LinearOrder β]

section Sorting

variable (key : α → β)

/-- The stable sort by a key. -/
def sortBy (l : List α) : List α := l.mergeSort fun a b => decide (key a ≤ key b)

theorem sortBy_perm (l : List α) : (sortBy key l).Perm l := List.mergeSort_perm _ _

private theorem key_trans (a b c : α) (hab : decide (key a ≤ key b) = true)
    (hbc : decide (key b ≤ key c) = true) : decide (key a ≤ key c) = true := by
  rw [decide_eq_true_eq] at *
  exact hab.trans hbc

private theorem key_total (a b : α) :
    (decide (key a ≤ key b) || decide (key b ≤ key a)) = true := by
  simpa using le_total (key a) (key b)

theorem sortBy_pairwise (l : List α) :
    (sortBy key l).Pairwise fun a b => key a ≤ key b := by
  have h := List.pairwise_mergeSort (key_trans key) (key_total key) l
  simpa only [sortBy, decide_eq_true_eq] using h

/-- A class whose keys never decrease keeps its order under a stable sort. -/
theorem filter_sortBy (p : α → Bool) (l : List α)
    (h : (l.filter p).Pairwise fun a b => key a ≤ key b) :
    (sortBy key l).filter p = l.filter p := by
  have hp : (l.filter p).Pairwise fun a b => decide (key a ≤ key b) = true := by
    simpa only [decide_eq_true_eq] using h
  have hsub := List.sublist_mergeSort (key_trans key) (key_total key) hp List.filter_sublist
  have hclass : List.Sublist (l.filter p) ((sortBy key l).filter p) := by
    simpa only [sortBy, List.filter_filter, Bool.and_self] using hsub.filter p
  have hlen : ((sortBy key l).filter p).length = (l.filter p).length :=
    ((sortBy_perm key l).filter p).length_eq
  exact (hclass.eq_of_length hlen.symm).symm

end Sorting

/-- The maximum of a start value and the elements so far, at every position. -/
def runningMax (start : β) (l : List β) : List β := (l.scanl max start).tail

@[simp] theorem runningMax_nil (start : β) : runningMax start [] = [] := by
  simp [runningMax]

@[simp] theorem runningMax_cons (start b : β) (l : List β) :
    runningMax start (b :: l) = max start b :: runningMax (max start b) l := by
  cases l <;> simp [runningMax]

@[simp] theorem runningMax_length (start : β) (l : List β) :
    (runningMax start l).length = l.length := by
  simp [runningMax]

theorem le_of_mem_runningMax {start b : β} {l : List β} (h : b ∈ runningMax start l) :
    start ≤ b := by
  induction l generalizing start with
  | nil => simp at h
  | cons a l ih =>
      rcases List.mem_cons.mp (runningMax_cons start a l ▸ h) with rfl | hb
      · exact le_max_left _ _
      · exact (le_max_left _ _).trans (ih hb)

/-- Running maxima never decrease. -/
theorem runningMax_pairwise (start : β) (l : List β) :
    (runningMax start l).Pairwise (· ≤ ·) := by
  induction l generalizing start with
  | nil => simp
  | cons a l ih =>
      rw [runningMax_cons]
      exact List.Pairwise.cons (fun b hb => le_of_mem_runningMax hb) (ih _)

theorem runningMax_getElem (start : β) (l : List β) (i : Nat)
    (h : i < (runningMax start l).length) :
    (runningMax start l)[i] = (l.take (i + 1)).foldl max start := by
  simp [runningMax, List.getElem_tail, List.getElem_scanl]

end QueryPlayback.StableSort
