import Mathlib.Data.List.Basic
import Mathlib.Data.List.Forall2
import Mathlib.Data.List.Perm.Basic
import Mathlib.Logic.Function.Basic
import Mathlib.Logic.Relation

/-!
# Replaying scripts

A script gives every key a list of events. Its machine performs them one at a
time, those of one key in the order of the script and those of different keys
in any order. A system refines the machine when every step of it performs at
most one event more.

## Implementation notes

What has been performed is kept for each key, so a state of the machine says
nothing about the order between the events of different keys; the runs do.
-/

namespace QueryPlayback.Replay

open Relation

section Machine

variable {K E : Type*} [DecidableEq K]

/-- The machine performs the next event of some key. -/
def Step (script done done' : K → List E) : Prop :=
  ∃ k e rest, script k = done k ++ e :: rest ∧ done' = Function.update done k (done k ++ [e])

/-- The machine performs any number of events. -/
abbrev Runs (script : K → List E) : (K → List E) → (K → List E) → Prop :=
  ReflTransGen (Step script)

/-- Nothing has been performed. -/
def nothing : K → List E := fun _ => []

variable {script done done' : K → List E}

/-- The next event leaves a beginning of the script. -/
theorem Step.begins (h : Step script done done') (hdone : ∀ k, done k <+: script k) :
    ∀ k, done' k <+: script k := by
  obtain ⟨k, e, rest, hscript, rfl⟩ := h
  intro j
  by_cases hj : j = k
  · subst hj
    rw [Function.update_self, hscript]
    exact ⟨rest, by simp⟩
  · rw [Function.update_of_ne hj]
    exact hdone j

/-- Whatever the machine performs is a beginning of the script. -/
theorem Runs.begins (h : Runs script nothing done) : ∀ k, done k <+: script k := by
  induction h with
  | refl => exact fun k => List.nil_prefix
  | tail _ hlast ih => exact hlast.begins ih

/-- The machine can go on until the whole script has been performed. -/
theorem rests_iff (h : ∀ k, done k <+: script k) :
    (∀ done', ¬Step script done done') ↔ done = script := by
  constructor
  · intro hrest
    funext k
    obtain ⟨left, hleft⟩ := h k
    cases left with
    | nil => rw [← hleft, List.append_nil]
    | cons e rest => exact absurd ⟨k, e, rest, hleft.symm, rfl⟩ (hrest _)
  · rintro rfl done' ⟨k, e, rest, hscript, -⟩
    exact absurd (List.self_eq_append_right.mp hscript) (List.cons_ne_nil e rest)

/-- Of two beginnings of a list the one that is as long is the same. -/
theorem eq_of_begins {l a b : List E} (ha : a <+: l) (hb : b <+: l) (h : b.length = a.length) :
    b = a :=
  (List.prefix_of_prefix_length_le hb ha (Nat.le_of_eq h)).eq_of_length h

/-- Going from one beginning of the script to one with an event more is a step. -/
theorem step_of_begins (h : ∀ k, done k <+: script k) (h' : ∀ k, done' k <+: script k) {k : K}
    (hself : (done' k).length = (done k).length + 1)
    (hother : ∀ j, j ≠ k → (done' j).length = (done j).length) : Step script done done' := by
  obtain ⟨left, hleft⟩ := h k
  cases left with
  | nil =>
      have hle := (h' k).length_le
      rw [← hleft, List.append_nil] at hle
      omega
  | cons e rest =>
      refine ⟨k, e, rest, hleft.symm, funext fun j => ?_⟩
      by_cases hj : j = k
      · subst hj
        have hnext : done j ++ [e] <+: script j := ⟨rest, by rw [← hleft]; simp⟩
        rw [Function.update_self]
        exact eq_of_begins hnext (h' j) (by simpa using hself)
      · rw [Function.update_of_ne hj]
        exact eq_of_begins (h j) (h' j) (hother j hj)

/-- At most one key has one event more. -/
def Advances (done done' : K → List E) : Prop :=
  (∀ k, (done' k).length = (done k).length) ∨
    ∃ k, (done' k).length = (done k).length + 1 ∧
      ∀ j, j ≠ k → (done' j).length = (done j).length

end Machine

section Refinement

variable {S K E : Type*} [DecidableEq K]

/-- In states with the invariant the system has performed a beginning of the script, and its
steps keep the invariant and perform at most one event. -/
structure Refines (r : S → S → Prop) (Inv : S → Prop) (performed : S → K → List E)
    (script : K → List E) : Prop where
  keeps : ∀ s s', Inv s → r s s' → Inv s'
  begins : ∀ s, Inv s → ∀ k, performed s k <+: script k
  advances : ∀ s s', Inv s → r s s' → Advances (performed s) (performed s')

variable {r : S → S → Prop} {Inv : S → Prop} {performed : S → K → List E} {script : K → List E}

/-- A step of the system is a step of the machine or none. -/
theorem Refines.step (h : Refines r Inv performed script) {s s' : S} (hs : Inv s)
    (hstep : r s s') :
    performed s' = performed s ∨ Step script (performed s) (performed s') := by
  have hbegins := h.begins s hs
  have hbegins' := h.begins s' (h.keeps s s' hs hstep)
  rcases h.advances s s' hs hstep with hsame | ⟨k, hself, hother⟩
  · exact Or.inl (funext fun k => eq_of_begins (hbegins k) (hbegins' k) (hsame k))
  · exact Or.inr (step_of_begins hbegins hbegins' hself hother)

/-- A run of the system is a run of the machine. -/
theorem Refines.runs (h : Refines r Inv performed script) {s s' : S} (hs : Inv s)
    (hsteps : ReflTransGen r s s') : Runs script (performed s) (performed s') ∧ Inv s' := by
  induction hsteps with
  | refl => exact ⟨.refl, hs⟩
  | tail _ hlast ih =>
      obtain ⟨hruns, hinv⟩ := ih
      refine ⟨?_, h.keeps _ _ hinv hlast⟩
      rcases h.step hinv hlast with hsame | hnext
      · rwa [hsame]
      · exact hruns.tail hnext

end Refinement

section Keys

variable {A B K : Type*} [DecidableEq K] {R : A → B → Prop} {key : A → K} {key' : B → K}

/-- Related lists are related key by key, if related elements have the same key. -/
theorem forall₂_filter_key (hkey : ∀ a b, R a b → key a = key' b) {l : List A} {l' : List B}
    (h : List.Forall₂ R l l') (k : K) :
    List.Forall₂ R (l.filter (key · = k)) (l'.filter (key' · = k)) := by
  induction h with
  | nil => exact .nil
  | cons hab _ ih =>
      rw [List.filter_cons, List.filter_cons, hkey _ _ hab]
      split_ifs
      · exact .cons hab ih
      · exact ih

/-- Lists that are related key by key are related in some order. -/
theorem exists_perm_of_keys {l : List A} {l' : List B}
    (h : ∀ k, List.Forall₂ R (l.filter (key · = k)) (l'.filter (key' · = k))) :
    ∃ l'', l''.Perm l' ∧ List.Forall₂ R l l'' := by
  induction l generalizing l' with
  | nil =>
      cases l' with
      | nil => exact ⟨[], .refl _, .nil⟩
      | cons b l' =>
          have hb := h (key' b)
          rw [List.filter_cons_of_pos (by simp)] at hb
          cases hb
  | cons a l ih =>
      have ha := h (key a)
      rw [List.filter_cons_of_pos (by simp), List.forall₂_cons_left_iff] at ha
      obtain ⟨b, bs, hab, hbs, hl'⟩ := ha
      obtain ⟨before, behind, rfl, hbefore, hb, rfl⟩ := List.filter_eq_cons_iff.mp hl'
      have hb : key' b = key a := of_decide_eq_true hb
      have hnone : before.filter (key' · = key a) = [] := List.filter_eq_nil_iff.mpr hbefore
      have hkeys : ∀ k, List.Forall₂ R (l.filter (key · = k))
          ((before ++ behind).filter (key' · = k)) := by
        intro k
        by_cases hk : key a = k
        · subst hk
          rw [List.filter_append, hnone, List.nil_append]
          exact hbs
        · have hother := h k
          rw [List.filter_append, List.filter_cons_of_neg (by simpa using hk),
            List.filter_cons_of_neg (by simpa [hb] using hk), ← List.filter_append] at hother
          exact hother
      obtain ⟨rest, hperm, hrest⟩ := ih hkeys
      exact ⟨b :: rest, (hperm.cons b).trans List.perm_middle.symm, .cons hab hrest⟩

end Keys

end QueryPlayback.Replay
