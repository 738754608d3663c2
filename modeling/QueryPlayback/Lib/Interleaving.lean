import Mathlib.Data.List.Forall2
import Mathlib.Logic.Relation

/-!
# Interleaving the components of a list

Several components take steps of their own, one at a time and in any order.
What one step of one component keeps, every run keeps. When each component
can come to rest alone, all of them can come to rest together.

## Implementation notes

A run is the reflexive transitive closure of the step relation, so that the
rules below and those of `Relation.ReflTransGen` can be mixed.
-/

namespace QueryPlayback.Interleaving

open Relation

section Runs

variable {S : Type*} {step : S → S → Prop}

/-- What every step keeps, every run keeps. -/
theorem invariant_of_steps {P : S → Prop} (hstep : ∀ s s', P s → step s s' → P s') {s s' : S}
    (h : ReflTransGen step s s') (hs : P s) : P s' := by
  induction h with
  | refl => exact hs
  | tail _ hlast ih => exact hstep _ _ ih hlast

end Runs

section Components

variable {α β : Type*} {r : α → α → Prop}

/-- Replacing a component by one with the same value of `f`. -/
theorem map_set_eq (f : α → β) {l : List α} {i : Nat} {a a' : α} (hget : l[i]? = some a)
    (hf : f a' = f a) : (l.set i a').map f = l.map f := by
  obtain ⟨hi, rfl⟩ := List.getElem?_eq_some_iff.mp hget
  rw [List.map_set, hf, ← List.getElem_map f (h := by simpa using hi)]
  exact List.set_getElem_self _

/-- One component of the list takes a step. -/
def ComponentStep (r : α → α → Prop) (l l' : List α) : Prop :=
  ∃ i a a', l[i]? = some a ∧ r a a' ∧ l' = l.set i a'

/-- Each component of the result is an old one or the successor of an old one. -/
theorem ComponentStep.getElem? {l l' : List α} (h : ComponentStep r l l') {j : Nat} {b : α}
    (hj : l'[j]? = some b) : ∃ a, l[j]? = some a ∧ (a = b ∨ r a b) := by
  obtain ⟨i, a, a', hget, hstep, rfl⟩ := h
  obtain ⟨hi, -⟩ := List.getElem?_eq_some_iff.mp hget
  rw [List.getElem?_set] at hj
  split at hj
  · rename_i hij
    subst hij
    obtain rfl : a' = b := by simpa [hi] using hj
    exact ⟨a, hget, Or.inr hstep⟩
  · exact ⟨b, hj, Or.inl rfl⟩

/-- Each old component is still there or has been replaced by its successor. -/
theorem ComponentStep.getElem?_old {l l' : List α} (h : ComponentStep r l l') {j : Nat} {a : α}
    (hj : l[j]? = some a) : ∃ b, l'[j]? = some b ∧ (a = b ∨ r a b) := by
  obtain ⟨i, c, c', hget, hstep, rfl⟩ := h
  obtain ⟨hi, -⟩ := List.getElem?_eq_some_iff.mp hget
  by_cases hij : i = j
  · subst hij
    obtain rfl : c = a := by
      rw [hget] at hj
      exact Option.some.inj hj
    exact ⟨c', List.getElem?_set_self hi, Or.inr hstep⟩
  · exact ⟨a, by rwa [List.getElem?_set_ne hij], Or.inl rfl⟩

theorem ComponentStep.mem {l l' : List α} (h : ComponentStep r l l') {b : α} (hb : b ∈ l') :
    ∃ a ∈ l, a = b ∨ r a b := by
  obtain ⟨j, hj⟩ := List.mem_iff_getElem?.mp hb
  obtain ⟨a, ha, hab⟩ := h.getElem? hj
  exact ⟨a, List.mem_of_getElem? ha, hab⟩

theorem ComponentStep.mem_old {l l' : List α} (h : ComponentStep r l l') {a : α} (ha : a ∈ l) :
    ∃ b ∈ l', a = b ∨ r a b := by
  obtain ⟨j, hj⟩ := List.mem_iff_getElem?.mp ha
  obtain ⟨b, hb, hab⟩ := h.getElem?_old hj
  exact ⟨b, List.mem_of_getElem? hb, hab⟩

/-- What a step of a component leaves alone, a step of the list leaves alone. -/
theorem ComponentStep.map_eq {f : α → β} (hf : ∀ a a', r a a' → f a' = f a) {l l' : List α}
    (h : ComponentStep r l l') : l'.map f = l.map f := by
  obtain ⟨i, a, a', hget, hstep, rfl⟩ := h
  exact map_set_eq f hget (hf a a' hstep)

theorem ComponentStep.length_eq {l l' : List α} (h : ComponentStep r l l') :
    l'.length = l.length := by
  obtain ⟨i, a, a', -, -, rfl⟩ := h
  exact List.length_set

theorem ComponentStep.cons {l l' : List α} (a : α) (h : ComponentStep r l l') :
    ComponentStep r (a :: l) (a :: l') := by
  obtain ⟨i, b, b', hget, hstep, rfl⟩ := h
  exact ⟨i + 1, b, b', hget, hstep, rfl⟩

/-- Components that can each come to rest alone can all come to rest. -/
theorem componentSteps_of_forall {Q : α → Prop} {l : List α}
    (h : ∀ a ∈ l, ∃ a', ReflTransGen r a a' ∧ Q a') :
    ∃ l', ReflTransGen (ComponentStep r) l l' ∧ ∀ a' ∈ l', Q a' := by
  induction l with
  | nil => exact ⟨[], .refl, by simp⟩
  | cons a l ih =>
      obtain ⟨a', ha, hq⟩ := h a List.mem_cons_self
      obtain ⟨l', hl, hq'⟩ := ih fun b hb => h b (List.mem_cons_of_mem a hb)
      have hhead : ReflTransGen (ComponentStep r) (a :: l) (a' :: l) := by
        exact ReflTransGen.lift (· :: l) (fun b b' hb => ⟨0, b, b', rfl, hb, rfl⟩) _ _ ha
      have htail : ReflTransGen (ComponentStep r) (a' :: l) (a' :: l') :=
        ReflTransGen.lift (a' :: ·) (fun _ _ hs => ComponentStep.cons a' hs) _ _ hl
      refine ⟨a' :: l', hhead.trans htail, ?_⟩
      intro b hb
      rcases List.mem_cons.mp hb with rfl | hb
      · exact hq
      · exact hq' b hb

end Components

section Parts

variable {α β : Type*} [DecidableEq β]

/-- Distributing a list by a key loses no element and doubles none. -/
theorem flatMap_filter_perm (key : α → β) (l : List α) {keys : List β} (hkeys : keys.Nodup) :
    (keys.flatMap fun k => l.filter (key · = k)).Perm (l.filter (key · ∈ keys)) := by
  induction keys with
  | nil => simp
  | cons k keys ih =>
      obtain ⟨hk, hkeys⟩ := List.nodup_cons.mp hkeys
      rw [List.flatMap_cons]
      have hsplit := List.filter_append_perm (fun x => decide (key x = k))
        (l.filter (key · ∈ k :: keys))
      rw [List.filter_filter, List.filter_filter] at hsplit
      have hfirst : (l.filter fun x => decide (key x = k) && decide (key x ∈ k :: keys)) =
          l.filter (key · = k) := by
        apply List.filter_congr
        intro x _
        by_cases hx : key x = k <;> simp [hx]
      have hothers : (l.filter fun x => !decide (key x = k) && decide (key x ∈ k :: keys)) =
          l.filter (key · ∈ keys) := by
        apply List.filter_congr
        intro x _
        by_cases hx : key x = k
        · simp [hx, hk]
        · simp [hx]
      rw [hfirst, hothers] at hsplit
      exact ((ih hkeys).append_left _).trans hsplit

end Parts

end QueryPlayback.Interleaving
