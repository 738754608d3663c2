import Mathlib.Data.List.Basic

/-!
# Lists that are sent with repetitions

What is sent of a list of items is the list itself, with every item sent some
times in a row before the next one is. A lower bound of zero allows for items
that have not been sent yet.
-/

namespace QueryPlayback

/-- The items of the list in their order, each between `lo` and `hi` times in a row. -/
inductive Retried {α : Type*} (lo hi : ℕ) : List α → List α → Prop
  | nil : Retried lo hi [] []
  | cons {x : α} {n : ℕ} {items sent : List α} (hlo : lo ≤ n) (hhi : n ≤ hi)
      (h : Retried lo hi items sent) : Retried lo hi (x :: items) (List.replicate n x ++ sent)

namespace Retried

variable {α : Type*} {lo hi : ℕ} {items sent : List α}

theorem mono {lo' hi' : ℕ} (h : Retried lo hi items sent) (hlo : lo' ≤ lo) (hhi : hi ≤ hi') :
    Retried lo' hi' items sent := by
  induction h with
  | nil => exact .nil
  | cons hlo' hhi' _ ih => exact .cons (Nat.le_trans hlo hlo') (Nat.le_trans hhi' hhi) ih

/-- Nothing has been sent yet. -/
theorem nothing (hi : ℕ) (items : List α) : Retried 0 hi items [] := by
  induction items with
  | nil => exact .nil
  | cons x items ih => exact .cons (n := 0) (Nat.le_refl 0) (Nat.zero_le hi) ih

/-- Items that have not been sent yet may follow. -/
theorem append_items (h : Retried 0 hi items sent) (more : List α) :
    Retried 0 hi (items ++ more) sent := by
  induction h with
  | nil => exact nothing hi more
  | cons hlo hhi _ ih => exact .cons hlo hhi ih

theorem append {items' sent' : List α} (h : Retried lo hi items sent)
    (h' : Retried lo hi items' sent') : Retried lo hi (items ++ items') (sent ++ sent') := by
  induction h with
  | nil => exact h'
  | cons hlo hhi _ ih =>
      rw [List.append_assoc]
      exact .cons hlo hhi ih

/-- What has been sent so far is sent in the same way. -/
theorem take (h : Retried 0 hi items sent) (k : ℕ) : Retried 0 hi items (sent.take k) := by
  induction h generalizing k with
  | nil =>
      rw [List.take_nil]
      exact .nil
  | @cons x n items sent _ hhi _ ih =>
      rw [List.take_append, List.take_replicate, List.length_replicate]
      exact .cons (Nat.zero_le _) (Nat.le_trans (Nat.min_le_right k n) hhi) (ih _)

theorem of_begins (h : Retried 0 hi items sent) {first : List α} (hfirst : first <+: sent) :
    Retried 0 hi items first := by
  rw [List.prefix_iff_eq_take.mp hfirst]
  exact h.take _

/-- Without repetitions the list itself is sent. -/
theorem eq_of_one (h : Retried 1 1 items sent) : sent = items := by
  induction h with
  | nil => rfl
  | @cons x n items sent hlo hhi _ ih =>
      obtain rfl : n = 1 := Nat.le_antisymm hhi hlo
      rw [ih, List.replicate_one, List.singleton_append]

end Retried

end QueryPlayback
