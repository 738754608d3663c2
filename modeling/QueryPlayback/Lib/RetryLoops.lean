import Mathlib.Logic.Function.Basic
import Mathlib.Logic.Relation
import Mathlib.Order.Bounds.Defs

/-!
# Loops that retry an atomic update

A thread that has to combine a value with a shared cell reads the cell and then
attempts an exchange, until an attempt succeeds or is no longer needed. The
attempts of any number of such loops interleave. When the last attempt of a loop
acts on the cell as the combination itself, and every other attempt leaves the
cell alone, the cell is the combination of the values of the loops that have
ended, in the order of their ends.

## Implementation notes

What the environment decides in an attempt, a spurious failure for instance, is
an argument of the attempt. The threads are the elements of a type, finite or not.
-/

namespace QueryPlayback.RetryLoops

open Relation

/-- `compare_exchange_weak` on a cell: whether it succeeded, what the cell holds
afterwards, and what the expected value has become. -/
def compareExchangeWeak {α : Type*} [DecidableEq α] (spurious : Bool) (cell expected desired : α) :
    Bool × α × α :=
  if cell = expected ∧ spurious = false then (true, desired, expected) else (false, cell, cell)

/-- A loop: what it keeps after reading the cell, the value it wants to combine
with the cell, and one attempt, which gives the new cell and the loop if it goes on. -/
structure RetryLoop (α W V L E : Type*) where
  enter : α → W → L
  value : L → V
  attempt : E → α → L → α × Option L

/-- The cell, the loops the threads are in, and the values of all loops entered so far. -/
structure System (ι α V L : Type*) where
  cell : α
  loops : ι → Option L
  offered : List V

variable {ι α W V L E : Type*}

namespace System

/-- Nobody has entered a loop. -/
def start (initial : α) : System ι α V L := ⟨initial, fun _ => none, []⟩

/-- Nobody is in a loop. -/
def Quiet (s : System ι α V L) : Prop := ∀ i, s.loops i = none

end System

section Steps

variable [DecidableEq ι] (loop : RetryLoop α W V L E)

/-- A thread enters a loop, or makes one attempt in the loop it is in. -/
inductive Step : System ι α V L → System ι α V L → Prop where
  | enter {s : System ι α V L} {i : ι} (w : W) (hout : s.loops i = none) :
      Step s
        { s with
          loops := Function.update s.loops i (some (loop.enter s.cell w))
          offered := s.offered ++ [loop.value (loop.enter s.cell w)] }
  | attempt {s : System ι α V L} {i : ι} {l : L} (e : E) (hin : s.loops i = some l) :
      Step s
        { s with
          cell := (loop.attempt e s.cell l).1
          loops := Function.update s.loops i (loop.attempt e s.cell l).2 }

/-- The threads take steps in some order. -/
abbrev Runs : System ι α V L → System ι α V L → Prop := ReflTransGen (Step loop)

end Steps

/-- What one attempt does: the last one performs the combination, and any other
one leaves the cell alone and the loop as good as before. -/
structure Attempted (loop : RetryLoop α W V L E) (op : α → V → α) (Good : α → L → Prop) (a : α)
    (l : L) (r : α × Option L) : Prop where
  last : r.2 = none → r.1 = op a (loop.value l)
  again : ∀ l', r.2 = some l' → r.1 = a ∧ Good a l' ∧ loop.value l' = loop.value l

/-- The loop performs `op`. `Good` is what a loop knows of the cell while it runs,
and the combinations of the others do not take it away. -/
structure Performs (loop : RetryLoop α W V L E) (op : α → V → α) (Good : α → L → Prop) :
    Prop where
  enter : ∀ a w, Good a (loop.enter a w)
  others : ∀ a v l, Good a l → Good (op a v) l
  attempt : ∀ e a l, Good a l → Attempted loop op Good a l (loop.attempt e a l)

/-- The cell is the combination of the performed values, and every offered value
has been performed or is that of a loop still running. -/
structure Account (loop : RetryLoop α W V L E) (op : α → V → α) (Good : α → L → Prop)
    (initial : α) (s : System ι α V L) (performed : List V) : Prop where
  cell_eq : s.cell = performed.foldl op initial
  offered : ∀ v ∈ performed, v ∈ s.offered
  complete : ∀ v ∈ s.offered, v ∈ performed ∨ ∃ i l, s.loops i = some l ∧ loop.value l = v
  running : ∀ i l, s.loops i = some l → Good s.cell l ∧ loop.value l ∈ s.offered

section Invariant

variable {loop : RetryLoop α W V L E} {op : α → V → α} {Good : α → L → Prop} {initial : α}

/-- A loop found after one thread's loop has been replaced. -/
theorem update_eq_some_iff [DecidableEq ι] {loops : ι → Option L} {i j : ι} {o : Option L}
    {l : L} :
    Function.update loops i o j = some l ↔ (j = i ∧ o = some l) ∨ (j ≠ i ∧ loops j = some l) := by
  by_cases hji : j = i
  · subst hji
    simp
  · simp [hji]

theorem Account.start : Account loop op Good initial (.start initial : System ι α V L) [] where
  cell_eq := rfl
  offered _ hv := by simp at hv
  complete _ hv := by simp [System.start] at hv
  running _ _ hl := by simp [System.start] at hl

/-- When nobody is in a loop, exactly the offered values have been performed. -/
theorem Account.mem_iff_of_quiet {s : System ι α V L} {performed : List V}
    (h : Account loop op Good initial s performed) (hquiet : s.Quiet) (v : V) :
    v ∈ performed ↔ v ∈ s.offered := by
  constructor
  · exact h.offered v
  · intro hv
    rcases h.complete v hv with hv | ⟨i, l, hl, -⟩
    · exact hv
    · rw [hquiet i] at hl
      cases hl

variable [DecidableEq ι]

/-- Entering a loop performs nothing and offers the value of the loop. -/
theorem Account.enter {s : System ι α V L} {performed : List V} {i : ι} {w : W}
    (hloop : Performs loop op Good) (h : Account loop op Good initial s performed)
    (hout : s.loops i = none) :
    Account loop op Good initial
      { s with
        loops := Function.update s.loops i (some (loop.enter s.cell w))
        offered := s.offered ++ [loop.value (loop.enter s.cell w)] } performed where
  cell_eq := h.cell_eq
  offered v hv := List.mem_append_left _ (h.offered v hv)
  complete v hv := by
    rcases List.mem_append.mp hv with hv | hv
    · rcases h.complete v hv with hv | ⟨j, l, hl, hvalue⟩
      · exact Or.inl hv
      · have hji : j ≠ i := by
          rintro rfl
          rw [hout] at hl
          cases hl
        exact Or.inr ⟨j, l, update_eq_some_iff.mpr (Or.inr ⟨hji, hl⟩), hvalue⟩
    · obtain rfl := List.mem_singleton.mp hv
      exact Or.inr ⟨i, _, update_eq_some_iff.mpr (Or.inl ⟨rfl, rfl⟩), rfl⟩
  running j l hl := by
    rcases update_eq_some_iff.mp hl with ⟨rfl, hnew⟩ | ⟨-, hl⟩
    · obtain rfl := Option.some.inj hnew
      exact ⟨hloop.enter s.cell w, List.mem_append_right _ (List.mem_singleton_self _)⟩
    · obtain ⟨hgood, hoffered⟩ := h.running j l hl
      exact ⟨hgood, List.mem_append_left _ hoffered⟩

/-- The last attempt of a loop performs its value. -/
theorem Account.last {s : System ι α V L} {performed : List V} {i : ι} {l : L}
    (hloop : Performs loop op Good) (h : Account loop op Good initial s performed)
    (hin : s.loops i = some l) :
    Account loop op Good initial
      { s with cell := op s.cell (loop.value l), loops := Function.update s.loops i none }
      (performed ++ [loop.value l]) where
  cell_eq := by
    rw [List.foldl_append, ← h.cell_eq]
    rfl
  offered v hv := by
    rcases List.mem_append.mp hv with hv | hv
    · exact h.offered v hv
    · obtain rfl := List.mem_singleton.mp hv
      exact (h.running i l hin).2
  complete v hv := by
    rcases h.complete v hv with hv | ⟨j, l', hl, rfl⟩
    · exact Or.inl (List.mem_append_left _ hv)
    · by_cases hji : j = i
      · subst hji
        obtain rfl : l = l' := Option.some.inj (hin.symm.trans hl)
        exact Or.inl (List.mem_append_right _ (List.mem_singleton_self _))
      · exact Or.inr ⟨j, l', update_eq_some_iff.mpr (Or.inr ⟨hji, hl⟩), rfl⟩
  running j l' hl := by
    rcases update_eq_some_iff.mp hl with ⟨-, hl⟩ | ⟨-, hl⟩
    · cases hl
    · obtain ⟨hgood, hoffered⟩ := h.running j l' hl
      exact ⟨hloop.others _ _ _ hgood, hoffered⟩

/-- An attempt that is not the last performs nothing. -/
theorem Account.again {s : System ι α V L} {performed : List V} {i : ι} {l l' : L}
    (h : Account loop op Good initial s performed) (hin : s.loops i = some l)
    (hgood : Good s.cell l') (hvalue : loop.value l' = loop.value l) :
    Account loop op Good initial { s with loops := Function.update s.loops i (some l') }
      performed where
  cell_eq := h.cell_eq
  offered := h.offered
  complete v hv := by
    rcases h.complete v hv with hv | ⟨j, k, hk, rfl⟩
    · exact Or.inl hv
    · by_cases hji : j = i
      · subst hji
        obtain rfl : l = k := Option.some.inj (hin.symm.trans hk)
        exact Or.inr ⟨j, l', update_eq_some_iff.mpr (Or.inl ⟨rfl, rfl⟩), hvalue⟩
      · exact Or.inr ⟨j, k, update_eq_some_iff.mpr (Or.inr ⟨hji, hk⟩), rfl⟩
  running j k hk := by
    rcases update_eq_some_iff.mp hk with ⟨rfl, hnew⟩ | ⟨-, hk⟩
    · obtain rfl := Option.some.inj hnew
      exact ⟨hgood, hvalue ▸ (h.running j l hin).2⟩
    · exact h.running j k hk

/-- A step performs nothing and leaves the cell alone, or performs one offered value. -/
theorem Account.step {s s' : System ι α V L} {performed : List V}
    (hloop : Performs loop op Good) (h : Account loop op Good initial s performed)
    (hstep : Step loop s s') :
    (s'.cell = s.cell ∧ Account loop op Good initial s' performed) ∨
      ∃ v, s'.cell = op s.cell v ∧ Account loop op Good initial s' (performed ++ [v]) := by
  cases hstep with
  | enter w hout => exact Or.inl ⟨rfl, h.enter hloop hout⟩
  | @attempt i l e hin =>
      have hattempt := hloop.attempt e s.cell l (h.running i l hin).1
      rcases hr : loop.attempt e s.cell l with ⟨a, _ | l'⟩
      · obtain rfl : a = op s.cell (loop.value l) := by simpa [hr] using hattempt.last
        exact Or.inr ⟨loop.value l, rfl, h.last hloop hin⟩
      · obtain ⟨rfl, hgood, hvalue⟩ : a = s.cell ∧ Good s.cell l' ∧
            loop.value l' = loop.value l := by simpa [hr] using hattempt.again l'
        exact Or.inl ⟨rfl, h.again hin hgood hvalue⟩

/-- Interleaved loops act on the cell as their combinations, performed one after another. -/
theorem Runs.account {s : System ι α V L} (hloop : Performs loop op Good)
    (hrun : Runs loop (.start initial) s) :
    ∃ performed, Account loop op Good initial s performed := by
  induction hrun with
  | refl => exact ⟨[], Account.start⟩
  | tail _ hlast ih =>
      obtain ⟨performed, h⟩ := ih
      rcases h.step hloop hlast with ⟨-, h⟩ | ⟨v, -, h⟩
      · exact ⟨performed, h⟩
      · exact ⟨performed ++ [v], h⟩

/-- A relation between cells that every combination respects holds along every run. -/
theorem Runs.relates {r : α → α → Prop} {s s' : System ι α V L} (hloop : Performs loop op Good)
    (hrefl : ∀ a, r a a) (htrans : ∀ a b c, r a b → r b c → r a c) (hop : ∀ a v, r a (op a v))
    (hreach : Runs loop (.start initial) s) (hrun : Runs loop s s') : r s.cell s'.cell := by
  induction hrun with
  | refl => exact hrefl s.cell
  | @tail t t' hrun hlast ih =>
      obtain ⟨performed, h⟩ := Runs.account hloop (hreach.trans hrun)
      rcases h.step hloop hlast with ⟨heq, -⟩ | ⟨v, heq, -⟩
      · exact heq ▸ ih
      · exact htrans _ _ _ ih (heq ▸ hop t.cell v)

end Invariant

section Raise

variable [LE α] [LT α] [DecidableLT α] [Std.IsLinearOrder α] [Std.LawfulOrderLT α]

/-- The larger of the cell and a value. -/
def raise (a v : α) : α := if a < v then v else a

theorem le_raise (a v : α) : a ≤ raise a v := by
  rw [raise]
  split
  · exact Std.le_of_lt ‹_›
  · exact Std.le_refl a

theorem le_raise_right (a v : α) : v ≤ raise a v := by
  rw [raise]
  split
  · exact Std.le_refl v
  · exact Std.not_lt.mp ‹_›

omit [LE α] [Std.IsLinearOrder α] [Std.LawfulOrderLT α] in
theorem raise_eq_or (a v : α) : raise a v = a ∨ raise a v = v := by
  rw [raise]
  split
  · exact Or.inr rfl
  · exact Or.inl rfl

/-- Raising by one value after another gives the greatest of all. -/
theorem isGreatest_foldl_raise (a : α) (vs : List α) :
    IsGreatest (insert a {v | v ∈ vs}) (vs.foldl raise a) := by
  induction vs generalizing a with
  | nil =>
      constructor
      · exact Or.inl rfl
      · rintro v (rfl | hv)
        · exact Std.le_refl v
        · cases hv
  | cons v vs ih =>
      obtain ⟨hmem, hbound⟩ := ih (raise a v)
      rw [List.foldl_cons]
      constructor
      · rcases hmem with heq | hmem
        · rcases raise_eq_or a v with hraise | hraise
          · exact Or.inl (heq.trans hraise)
          · exact Or.inr (List.mem_cons.mpr (Or.inl (heq.trans hraise)))
        · exact Or.inr (List.mem_cons_of_mem v hmem)
      · have hfirst : raise a v ≤ vs.foldl raise (raise a v) := hbound (Or.inl rfl)
        rintro u (rfl | hu)
        · exact Std.le_trans (le_raise u v) hfirst
        · rcases List.mem_cons.mp hu with rfl | hu
          · exact Std.le_trans (le_raise_right a u) hfirst
          · exact hbound (Or.inr hu)

end Raise

end QueryPlayback.RetryLoops
