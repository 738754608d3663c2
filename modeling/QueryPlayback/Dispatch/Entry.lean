import Mathlib.Data.List.Basic

/-!
# Query entries

What the dispatchers and the worker threads use of the entries: the interfaces
of `query_entry.h`, the list that popping gives, and the place of the shutdown
flags in it.
-/

namespace QueryPlayback

/-- `class QueryEntry`. -/
class QueryEntry (ε : Type) where
  getThreadId : ε → UInt64
  isQuit : ε → Bool
  isShutdown : ε → Bool

/-- `class QueryEntries`; no entry is the null pointer of `popEntry`. -/
class QueryEntries (σ : Type) (ε : outParam Type) where
  popEntry : σ → Option (ε × σ)
  setShutdownOnLastQueryOfConn : σ → σ

open QueryEntry QueryEntries

section Popping

variable {σ ε : Type} [QueryEntries σ ε]

/-- The entries that `popEntry` gives until it gives none. -/
inductive Drains : σ → List ε → Prop
  | done {q : σ} (h : popEntry q = none) : Drains q []
  | pop {q q' : σ} {e : ε} {rest : List ε} (h : popEntry q = some (e, q'))
      (hrest : Drains q' rest) : Drains q (e :: rest)

theorem Drains.eq_nil {q : σ} {l : List ε} (h : Drains q l) (hnone : popEntry q = none) :
    l = [] := by
  cases h with
  | done _ => rfl
  | pop hpop _ => simp [hnone] at hpop

theorem Drains.eq_cons {q q' : σ} {e : ε} {l : List ε} (h : Drains q l)
    (hsome : popEntry q = some (e, q')) : ∃ rest, l = e :: rest ∧ Drains q' rest := by
  cases h with
  | done hnone => simp [hsome] at hnone
  | pop hpop hrest =>
      obtain ⟨rfl, rfl⟩ : e = _ ∧ q' = _ := by simpa [hsome] using hpop
      exact ⟨_, rfl, hrest⟩

/-- Popping through a wrapper. -/
theorem Drains.map {σ' ε' : Type} [QueryEntries σ' ε'] {f : σ → σ'} {g : ε → ε'}
    (hpop : ∀ q, popEntry (f q) = (popEntry q).map fun p => (g p.1, f p.2)) {q : σ} {l : List ε}
    (h : Drains q l) : Drains (f q) (l.map g) := by
  induction h with
  | done hnone => exact .done (by rw [hpop, hnone, Option.map_none])
  | pop hsome _ ih => exact .pop (by rw [hpop, hsome, Option.map_some]) ih

end Popping

section Marks

variable {ε : Type} [QueryEntry ε]

/-- The entries of one connection. -/
def ofThread (id : UInt64) (entries : List ε) : List ε := entries.filter (getThreadId · = id)

/-- The shutdown flag is on exactly the last entry of every connection. -/
def LastMarked : List ε → Prop
  | [] => True
  | e :: rest => (isShutdown e = true ↔ ofThread (getThreadId e) rest = []) ∧ LastMarked rest

@[simp] theorem ofThread_append (id : UInt64) (l l' : List ε) :
    ofThread id (l ++ l') = ofThread id l ++ ofThread id l' := List.filter_append ..

theorem mem_ofThread {id : UInt64} {l : List ε} {e : ε} :
    e ∈ ofThread id l ↔ e ∈ l ∧ getThreadId e = id := by
  simp [ofThread]

theorem ofThread_eq_nil_iff {id : UInt64} {l : List ε} :
    ofThread id l = [] ↔ id ∉ l.map getThreadId := by
  simp [ofThread]

@[simp] theorem ofThread_singleton_self (e : ε) : ofThread (getThreadId e) [e] = [e] := by
  simp [ofThread]

theorem ofThread_singleton_of_ne {id : UInt64} {e : ε} (h : getThreadId e ≠ id) :
    ofThread id [e] = [] := by
  simp [ofThread, h]

theorem ofThread_idem (id : UInt64) (l : List ε) :
    ofThread id (ofThread id l) = ofThread id l := by
  simp [ofThread]

theorem LastMarked.restrict {l : List ε} (h : LastMarked l) (id : UInt64) :
    LastMarked (ofThread id l) := by
  induction l with
  | nil => trivial
  | cons e rest ih =>
      by_cases hid : getThreadId e = id
      · subst hid
        have hcons : ofThread (getThreadId e) (e :: rest) =
            e :: ofThread (getThreadId e) rest := by
          simp [ofThread]
        rw [hcons]
        refine ⟨?_, ih h.2⟩
        rw [ofThread_idem]
        exact h.1
      · have hcons : ofThread id (e :: rest) = ofThread id rest := by
          simp [ofThread, hid]
        rw [hcons]
        exact ih h.2

theorem LastMarked.isShutdown_iff {pre post : List ε} {e : ε} (h : LastMarked (pre ++ e :: post)) :
    isShutdown e = true ↔ ofThread (getThreadId e) post = [] := by
  induction pre with
  | nil => exact h.1
  | cons _ pre ih => exact ih h.2

/-- Within its connection the flagged entry is the one with nothing behind it. -/
theorem LastMarked.isShutdown_iff_last {l pre post : List ε} {e : ε} {id : UInt64}
    (h : LastMarked l) (hsplit : ofThread id l = pre ++ e :: post) :
    isShutdown e = true ↔ post = [] := by
  have hmem : ∀ x ∈ pre ++ e :: post, getThreadId x = id := by
    intro x hx
    rw [← hsplit] at hx
    exact (mem_ofThread.mp hx).2
  have hpost : ofThread (getThreadId e) post = post := by
    apply List.filter_eq_self.mpr
    intro x hx
    simp [hmem x (by simp [hx]), hmem e (by simp)]
  have hmarked := h.restrict id
  rw [hsplit] at hmarked
  rw [hmarked.isShutdown_iff, hpost]

end Marks

end QueryPlayback
