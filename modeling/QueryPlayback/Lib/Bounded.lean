import Mathlib.Logic.Relation
import Mathlib.Order.Basic

/-!
# Runs of bounded length

A rank that every step lowers bounds the length of every run, whoever chooses
the steps. When a state without a step can only be a good one, every run that
is continued as long as possible ends in a good state.
-/

namespace QueryPlayback.Bounded

open Relation

variable {S : Type*}

/-- Runs with the number of their steps. -/
inductive Steps (r : S → S → Prop) : ℕ → S → S → Prop
  | refl (s : S) : Steps r 0 s s
  | tail {n : ℕ} {s s' s'' : S} (h : Steps r n s s') (hlast : r s' s'') : Steps r (n + 1) s s''

/-- Every step from a state with the invariant keeps it and lowers the rank. -/
structure Lowers (r : S → S → Prop) (Inv : S → Prop) (rank : S → ℕ) : Prop where
  keeps : ∀ s s', Inv s → r s s' → Inv s'
  lowers : ∀ s s', Inv s → r s s' → rank s' < rank s

/-- No run from `start` has more steps than the bound, and a run that cannot go on has come to
a final state. -/
structure TerminatesIn (r : S → S → Prop) (bound : ℕ) (start : S) (Final : S → Prop) : Prop where
  bounded : ∀ n s, Steps r n start s → n ≤ bound
  final : ∀ s, ReflTransGen r start s → (∀ s', ¬r s s') → Final s

variable {r : S → S → Prop} {Inv : S → Prop} {rank : S → ℕ}

theorem Steps.reaches {n : ℕ} {s s' : S} (h : Steps r n s s') : ReflTransGen r s s' := by
  induction h with
  | refl => exact .refl
  | tail _ hlast ih => exact ih.tail hlast

/-- A run that is continued as long as possible comes to a final state. -/
theorem TerminatesIn.exists_final {bound : ℕ} {start : S} {Final : S → Prop}
    (h : TerminatesIn r bound start Final) : ∃ s, ReflTransGen r start s ∧ Final s := by
  by_contra hnone
  have hgoes : ∀ s, ReflTransGen r start s → ∃ s', r s s' := by
    intro s hs
    by_contra hrest
    exact hnone ⟨s, hs, h.final s hs fun s' hstep => hrest ⟨s', hstep⟩⟩
  have hlong : ∀ n, ∃ s, Steps r n start s := by
    intro n
    induction n with
    | zero => exact ⟨start, .refl start⟩
    | succ n ih =>
        obtain ⟨s, hs⟩ := ih
        obtain ⟨s', hstep⟩ := hgoes s hs.reaches
        exact ⟨s', hs.tail hstep⟩
  obtain ⟨s, hs⟩ := hlong (bound + 1)
  have hle := h.bounded _ s hs
  omega

theorem TerminatesIn.imp {bound : ℕ} {start : S} {Final Final' : S → Prop}
    (h : TerminatesIn r bound start Final) (himp : ∀ s, Final s → Final' s) :
    TerminatesIn r bound start Final' :=
  ⟨h.bounded, fun s hs hrest => himp s (h.final s hs hrest)⟩

/-- The rank pays for every step. -/
theorem Lowers.length_add_le (h : Lowers r Inv rank) {n : ℕ} {s s' : S} (hs : Inv s)
    (hsteps : Steps r n s s') : n + rank s' ≤ rank s ∧ Inv s' := by
  induction hsteps with
  | refl s => exact ⟨by omega, hs⟩
  | tail _ hlast ih =>
      obtain ⟨hle, hinv⟩ := ih hs
      have hlt := h.lowers _ _ hinv hlast
      exact ⟨by omega, h.keeps _ _ hinv hlast⟩

/-- A rank and progress make every run end in a final state. -/
theorem Lowers.terminatesIn (h : Lowers r Inv rank) {start : S} (hstart : Inv start) {bound : ℕ}
    (hbound : rank start ≤ bound) {Final : S → Prop}
    (hfinal : ∀ s, Inv s → (∀ s', ¬r s s') → Final s) : TerminatesIn r bound start Final where
  bounded n s hsteps := by
    have hle := (h.length_add_le hstart hsteps).1
    omega
  final s hsteps hrest := by
    refine hfinal s ?_ hrest
    clear hrest
    induction hsteps with
    | refl => exact hstart
    | tail _ hlast ih => exact h.keeps _ _ ih hlast

end QueryPlayback.Bounded
