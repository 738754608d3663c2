import Mathlib.Data.List.TakeWhile

/-!
# Scans that decide for themselves where to stop

A scan looks at the elements of a sequence one after the other and learns from
each of them whether it goes on. It is not told where the sequence ends: when
no element stops it, it looks at places that do not belong to the sequence.
-/

namespace QueryPlayback

/-- A scan: the state it starts in, and what an element makes of a state. The
element that gives `none` is the last one the scan looks at. -/
structure Scanner (σ α : Type*) where
  start : σ
  step : σ → α → Option σ

namespace Scanner

variable {σ α : Type*} (scan : Scanner σ α)

/-- How many places the scan looks at from a state on. Behind a sequence that
does not stop it there is at least one more. -/
def readsFrom (state : σ) : List α → ℕ
  | [] => 1
  | a :: rest =>
      match scan.step state a with
      | none => 1
      | some next => readsFrom next rest + 1

/-- Whether no element of the sequence stops the scan. -/
def overrunsFrom (state : σ) : List α → Bool
  | [] => true
  | a :: rest =>
      match scan.step state a with
      | none => false
      | some next => overrunsFrom next rest

/-- The addresses a scan looks at that starts at an address with the given elements. -/
def reads (address : ℕ) (memory : List α) : List ℕ :=
  List.range' address (scan.readsFrom scan.start memory)

/-- Whether a scan of the sequence looks behind its end. -/
def overruns (memory : List α) : Bool := scan.overrunsFrom scan.start memory

variable {scan}

@[simp] theorem overrunsFrom_nil (state : σ) : scan.overrunsFrom state [] = true := rfl

theorem overrunsFrom_of_step {state next : σ} {a : α} (h : scan.step state a = some next)
    (rest : List α) : scan.overrunsFrom state (a :: rest) = scan.overrunsFrom next rest := by
  simp only [overrunsFrom, h]

theorem overrunsFrom_of_stop {state : σ} {a : α} (h : scan.step state a = none)
    (rest : List α) : scan.overrunsFrom state (a :: rest) = false := by
  simp only [overrunsFrom, h]

theorem overrunsFrom_congr {state other : σ} {a : α} (h : scan.step state a = scan.step other a)
    (rest : List α) :
    scan.overrunsFrom state (a :: rest) = scan.overrunsFrom other (a :: rest) := by
  simp only [overrunsFrom, h]

/-- A scan stays inside a sequence exactly if the sequence stops it. -/
theorem readsFrom_le_length_iff (state : σ) (memory : List α) :
    scan.readsFrom state memory ≤ memory.length ↔ scan.overrunsFrom state memory = false := by
  induction memory generalizing state with
  | nil => simp [readsFrom]
  | cons a rest ih =>
      cases h : scan.step state a with
      | none => simp [readsFrom, overrunsFrom, h]
      | some next => simp [readsFrom, overrunsFrom, h, ih]

/-- A scan looks at one place at least. -/
theorem readsFrom_pos (state : σ) (memory : List α) : 0 < scan.readsFrom state memory := by
  cases memory with
  | nil => exact Nat.one_pos
  | cons a rest =>
      rw [readsFrom]
      split
      · exact Nat.one_pos
      · exact Nat.succ_pos _

/-- All addresses a scan looks at are below the end exactly if the scan does not overrun. -/
theorem reads_lt_iff (address : ℕ) (memory : List α) :
    (∀ a ∈ scan.reads address memory, a < address + memory.length) ↔
      scan.overruns memory = false := by
  have hpos := scan.readsFrom_pos scan.start memory
  rw [overruns, ← readsFrom_le_length_iff]
  constructor
  · intro h
    have hlast := h (address + (scan.readsFrom scan.start memory - 1))
      (List.mem_range'_1.mpr ⟨Nat.le_add_right _ _, by omega⟩)
    omega
  · intro h a ha
    have hlt := (List.mem_range'_1.mp ha).2
    omega

section Loops

variable {state : σ} {p : α → Bool}

/-- A state that loops on some elements passes over all of them. -/
theorem overrunsFrom_dropWhile (hloop : ∀ a, p a = true → scan.step state a = some state)
    (memory : List α) :
    scan.overrunsFrom state memory = scan.overrunsFrom state (memory.dropWhile p) := by
  induction memory with
  | nil => rfl
  | cons a rest ih =>
      by_cases ha : p a = true
      · rw [List.dropWhile_cons_of_pos ha, overrunsFrom_of_step (hloop a ha), ih]
      · rw [List.dropWhile_cons_of_neg ha]

/-- A state that loops on some elements and stops at all others. -/
theorem overrunsFrom_eq_all (hloop : ∀ a, p a = true → scan.step state a = some state)
    (hstop : ∀ a, p a = false → scan.step state a = none) (memory : List α) :
    scan.overrunsFrom state memory = memory.all p := by
  induction memory with
  | nil => rfl
  | cons a rest ih =>
      cases ha : p a with
      | true => rw [overrunsFrom_of_step (hloop a ha), ih, List.all_cons, ha, Bool.true_and]
      | false => rw [overrunsFrom_of_stop (hstop a ha), List.all_cons, ha, Bool.false_and]

end Loops

end Scanner

end QueryPlayback
