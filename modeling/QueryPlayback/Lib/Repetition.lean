import QueryPlayback.Lib.Interleaving

/-!
# A process that works through a list of jobs

Every job is begun in the state the last one left behind. If each job leaves a
state that the next one can begin with, the invariant of a single job holds in
every state of the process. If besides every job can be brought to its end, the
process can.
-/

namespace QueryPlayback.Repetition

open Relation Interleaving

/-- A process with its current job and the jobs still to come. -/
structure Process (S J : Type*) where
  state : S
  job : J
  remaining : List J

variable {S J : Type*}

/-- A step inside the current job, or the beginning of the next one. -/
inductive Repeat (step : S → S → Prop) (start : S → J → S) (ended : S → Prop) :
    Process S J → Process S J → Prop
  | inside {p : Process S J} {s' : S} (hstep : step p.state s') :
      Repeat step start ended p { p with state := s' }
  | next {p : Process S J} {j : J} {rest : List J} (hended : ended p.state)
      (hremaining : p.remaining = j :: rest) :
      Repeat step start ended p ⟨start p.state j, j, rest⟩

variable {step : S → S → Prop} {start : S → J → S} {ended : S → Prop}

/-- The process can be brought to the end of its last job. -/
def CanEnd (step : S → S → Prop) (start : S → J → S) (ended : S → Prop) (p : Process S J) : Prop :=
  ∃ p', ReflTransGen (Repeat step start ended) p p' ∧ p'.remaining = [] ∧ ended p'.state

section Invariant

variable {valid repeatable : J → Prop} {ready : S → Prop} {P : J → S → Prop}

/-- All jobs are valid, all but the last one repeatable, and the invariant of the current one
holds. -/
structure Sound (valid repeatable : J → Prop) (P : J → S → Prop) (p : Process S J) : Prop where
  valid : ∀ j ∈ p.job :: p.remaining, valid j
  repeatable : ∀ j ∈ (p.job :: p.remaining).dropLast, repeatable j
  current : P p.job p.state

/-- The next job begins soundly. -/
theorem Sound.next (hstart : ∀ s j, valid j → ready s → P j (start s j))
    (hend : ∀ j s, repeatable j → P j s → ended s → ready s) {p : Process S J} {j : J}
    {rest : List J} (h : Sound valid repeatable P p) (hended : ended p.state)
    (hremaining : p.remaining = j :: rest) :
    Sound valid repeatable P ⟨start p.state j, j, rest⟩ := by
  obtain ⟨hv, hr, hinv⟩ := h
  rw [hremaining] at hv hr
  refine ⟨fun j hj => hv j (List.mem_cons_of_mem _ hj), fun j hj => ?_, ?_⟩
  · rw [List.dropLast_cons_of_ne_nil (List.cons_ne_nil _ _)] at hr
    exact hr j (List.mem_cons_of_mem _ hj)
  · have hready := hend _ _ (hr _ (by simp)) hinv hended
    exact hstart _ _ (hv _ (by simp)) hready

/-- The invariant of a single job, given that every job but the last one is
repeatable: it ends in a state in which another one can begin. -/
theorem sound_of_repeat (hstart : ∀ s j, valid j → ready s → P j (start s j))
    (hstep : ∀ j s s', valid j → P j s → step s s' → P j s')
    (hend : ∀ j s, repeatable j → P j s → ended s → ready s) {p p' : Process S J}
    (hsteps : ReflTransGen (Repeat step start ended) p p') (h : Sound valid repeatable P p) :
    Sound valid repeatable P p' := by
  induction hsteps with
  | refl => exact h
  | tail _ hlast ih =>
      cases hlast with
      | inside hinside =>
          exact ⟨ih.valid, ih.repeatable,
            hstep _ _ _ (ih.valid _ List.mem_cons_self) ih.current hinside⟩
      | next hended hremaining => exact ih.next hstart hend hended hremaining

theorem inside_of_steps {s s' : S} (j : J) (rest : List J) (h : ReflTransGen step s s') :
    ReflTransGen (Repeat step start ended) ⟨s, j, rest⟩ ⟨s', j, rest⟩ := by
  induction h with
  | refl => exact .refl
  | tail _ hlast ih => exact ih.tail (.inside hlast)

/-- Where every job can be brought to its end the whole process can. -/
theorem canEnd_of_sound (hstart : ∀ s j, valid j → ready s → P j (start s j))
    (hstep : ∀ j s s', valid j → P j s → step s s' → P j s')
    (hend : ∀ j s, repeatable j → P j s → ended s → ready s)
    (hfinish : ∀ j s, valid j → P j s → ∃ s', ReflTransGen step s s' ∧ ended s')
    {p : Process S J} (h : Sound valid repeatable P p) : CanEnd step start ended p := by
  obtain ⟨s, j, rest⟩ := p
  induction rest generalizing s j with
  | nil =>
      obtain ⟨s', hsteps, hended⟩ := hfinish j s (h.valid j List.mem_cons_self) h.current
      exact ⟨⟨s', j, []⟩, inside_of_steps j [] hsteps, rfl, hended⟩
  | cons k rest ih =>
      obtain ⟨s', hsteps, hended⟩ := hfinish j s (h.valid j List.mem_cons_self) h.current
      have hinside := @inside_of_steps _ _ _ start ended _ _ j (k :: rest) hsteps
      have hsound := sound_of_repeat hstart hstep hend hinside h
      obtain ⟨p', hrest, hp'⟩ := ih _ _ (hsound.next hstart hend hended rfl)
      exact ⟨p', (hinside.tail (.next hended rfl)).trans hrest, hp'⟩

end Invariant

section Ends

variable {s : S} {j k : J} {rest : List J}

/-- The last job can be brought to its end. -/
theorem CanEnd.last (h : CanEnd step start ended ⟨s, j, []⟩) :
    ∃ s', ReflTransGen step s s' ∧ ended s' := by
  obtain ⟨p', hsteps, -, hended⟩ := h
  suffices hinside : p'.remaining = [] ∧ ReflTransGen step s p'.state from
    ⟨p'.state, hinside.2, hended⟩
  clear hended
  induction hsteps with
  | refl => exact ⟨rfl, .refl⟩
  | tail _ hlast ih =>
      cases hlast with
      | inside hstep => exact ⟨ih.1, ih.2.tail hstep⟩
      | next _ hremaining =>
          rw [ih.1] at hremaining
          cases hremaining

/-- A job with another one behind it can be brought to an end from which the other one can. -/
theorem CanEnd.next (h : CanEnd step start ended ⟨s, j, k :: rest⟩) :
    ∃ s', ReflTransGen step s s' ∧ ended s' ∧ CanEnd step start ended ⟨start s' k, k, rest⟩ := by
  obtain ⟨p', hsteps, hremaining, hended⟩ := h
  generalize hp : (⟨s, j, k :: rest⟩ : Process S J) = p at hsteps
  induction hsteps using ReflTransGen.head_induction_on generalizing s with
  | refl =>
      subst hp
      cases hremaining
  | head hstep hrest ih =>
      subst hp
      cases hstep with
      | inside hinside =>
          obtain ⟨s', hsteps, hs'⟩ := ih rfl
          exact ⟨s', hsteps.head hinside, hs'⟩
      | next hended' heq =>
          obtain ⟨rfl, rfl⟩ := List.cons.inj heq
          exact ⟨s, .refl, hended', p', hrest, hremaining, hended⟩

theorem CanEnd.current (h : CanEnd step start ended ⟨s, j, rest⟩) :
    ∃ s', ReflTransGen step s s' ∧ ended s' := by
  cases rest with
  | nil => exact h.last
  | cons k rest =>
      obtain ⟨s', hsteps, hended, -⟩ := h.next
      exact ⟨s', hsteps, hended⟩

end Ends

end QueryPlayback.Repetition
