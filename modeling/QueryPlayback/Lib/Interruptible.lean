import Mathlib.Order.Basic

/-!
# Computations that can be cut off

A state-passing computation returns, or it is cut off in the state it has
reached. The state of a computation that has been cut off is what can be seen of
a run that has not ended, so a property of both outcomes is a property of every
moment of the run.

`Triple` has the rules of pre- and postconditions, with a second postcondition
for the computations that are cut off; `Ends` says that a computation always
returns. `Approximates` compares a computation with one that gets further before
it is cut off.
-/

namespace QueryPlayback

/-- What becomes of a computation. -/
inductive Outcome (S A : Type*)
  | done (a : A) (s : S)
  | cut (s : S)

/-- A computation with a state that can be cut off. -/
def Interruptible (S A : Type*) := S → Outcome S A

namespace Outcome

variable {S A : Type*}

/-- The last state, also of a computation that has been cut off. -/
def state : Outcome S A → S
  | done _ s => s
  | cut s => s

/-- The postconditions of the two outcomes. -/
def Satisfies (Q : A → S → Prop) (R : S → Prop) : Outcome S A → Prop
  | done a s => Q a s
  | cut s => R s

theorem Satisfies.state {R : S → Prop} {o : Outcome S A} (h : o.Satisfies (fun _ => R) R) :
    R o.state := by
  cases o <;> exact h

end Outcome

namespace Interruptible

universe v

variable {S : Type*} {A B : Type v}

instance : Monad (Interruptible S) where
  pure a := fun s => .done a s
  bind c f := fun s =>
    match c s with
    | .done a s' => f a s'
    | .cut s' => .cut s'

/-- A computation that is cut off at once. -/
def cutOff : Interruptible S A := fun s => .cut s

def gets (f : S → A) : Interruptible S A := fun s => .done (f s) s

def modify (f : S → S) : Interruptible S Unit := fun s => .done () (f s)

theorem bind_done {c : Interruptible S A} {s s' : S} {a : A} (h : c s = .done a s')
    (f : A → Interruptible S B) : (c >>= f) s = f a s' := by
  change (match c s with | .done a s' => f a s' | .cut s' => .cut s') = f a s'
  rw [h]

theorem bind_cut {c : Interruptible S A} {s s' : S} (h : c s = .cut s')
    (f : A → Interruptible S B) : (c >>= f) s = .cut s' := by
  change (match c s with | .done a s' => f a s' | .cut s' => .cut s') = .cut s'
  rw [h]

section Triple

/-- Begun under `P`, the computation returns under `Q` or is cut off under `R`. -/
def Triple (P : S → Prop) (c : Interruptible S A) (Q : A → S → Prop) (R : S → Prop) : Prop :=
  ∀ s, P s → (c s).Satisfies Q R

variable {P P' : S → Prop} {Q Q' : A → S → Prop} {R R' : S → Prop}

theorem Triple.pure {a : A} (h : ∀ s, P s → Q a s) : Triple P (pure a) Q R := h

theorem Triple.cutOff (h : ∀ s, P s → R s) : Triple P (cutOff : Interruptible S A) Q R := h

theorem Triple.gets {f : S → A} (h : ∀ s, P s → Q (f s) s) : Triple P (gets f) Q R := h

theorem Triple.modify {f : S → S} {Q : Unit → S → Prop} (h : ∀ s, P s → Q () (f s)) :
    Triple P (modify f) Q R := h

theorem Triple.bind {c : Interruptible S A} {f : A → Interruptible S B} {Q' : B → S → Prop}
    (hc : Triple P c Q R) (hf : ∀ a, Triple (Q a) (f a) Q' R) : Triple P (c >>= f) Q' R := by
  intro s hs
  have hcs := hc s hs
  cases h : c s with
  | done a s' =>
      rw [h] at hcs
      rw [bind_done h]
      exact hf a s' hcs
  | cut s' =>
      rw [h] at hcs
      rw [bind_cut h]
      exact hcs

theorem Triple.consequence {c : Interruptible S A} (h : Triple P c Q R) (hP : ∀ s, P' s → P s)
    (hQ : ∀ a s, Q a s → Q' a s) (hR : ∀ s, R s → R' s) : Triple P' c Q' R' := by
  intro s hs
  have hcs := h s (hP s hs)
  cases hc : c s with
  | done a s' =>
      rw [hc] at hcs
      exact hQ a s' hcs
  | cut s' =>
      rw [hc] at hcs
      exact hR s' hcs

theorem Triple.pre {c : Interruptible S A} (h : Triple P c Q R) (hP : ∀ s, P' s → P s) :
    Triple P' c Q R :=
  h.consequence hP (fun _ _ => id) fun _ => id

theorem Triple.post {c : Interruptible S A} (h : Triple P c Q R) (hQ : ∀ a s, Q a s → Q' a s) :
    Triple P c Q' R :=
  h.consequence (fun _ => id) hQ fun _ => id

theorem Triple.ite {b : Prop} [Decidable b] {c d : Interruptible S A}
    (hc : b → Triple P c Q R) (hd : ¬b → Triple P d Q R) :
    Triple P (if b then c else d) Q R := by
  split
  · rename_i hb
    exact hc hb
  · rename_i hb
    exact hd hb

/-- A computation that cannot be cut off returns. -/
theorem Triple.returns {c : Interruptible S A} (h : Triple P c Q fun _ => False) {s : S}
    (hs : P s) : ∃ a s', c s = .done a s' ∧ Q a s' := by
  have hcs := h s hs
  cases hc : c s with
  | done a s' =>
      rw [hc] at hcs
      exact ⟨a, s', rfl, hcs⟩
  | cut s' =>
      rw [hc] at hcs
      exact hcs.elim

/-- A computation that cannot return is cut off. -/
theorem Triple.cut {c : Interruptible S A} (h : Triple P c (fun _ _ => False) R) {s : S}
    (hs : P s) : ∃ s', c s = .cut s' ∧ R s' := by
  have hcs := h s hs
  cases hc : c s with
  | done a s' =>
      rw [hc] at hcs
      exact hcs.elim
  | cut s' =>
      rw [hc] at hcs
      exact ⟨s', rfl, hcs⟩

/-- The computation returns in whatever state it is begun. -/
def Ends (c : Interruptible S A) : Prop := ∀ s, ∃ a s', c s = .done a s'

theorem Triple.ends {c : Interruptible S A} (h : Triple (fun _ => True) c Q fun _ => False) :
    Ends c := by
  intro s
  obtain ⟨a, s', hc, -⟩ := h.returns trivial
  exact ⟨a, s', hc⟩

theorem Ends.triple {c : Interruptible S A} (h : Ends c) : Triple P c (fun _ _ => True) R := by
  intro s _
  obtain ⟨a, s', hc⟩ := h s
  rw [hc]
  trivial

theorem Ends.pure (a : A) : Ends (pure a : Interruptible S A) := fun s => ⟨a, s, rfl⟩

theorem Ends.gets (f : S → A) : Ends (gets f) := fun s => ⟨f s, s, rfl⟩

theorem Ends.modify (f : S → S) : Ends (modify f) := fun s => ⟨(), f s, rfl⟩

theorem Ends.bind {c : Interruptible S A} {f : A → Interruptible S B} (hc : Ends c)
    (hf : ∀ a, Ends (f a)) : Ends (c >>= f) := by
  intro s
  obtain ⟨a, s', hdone⟩ := hc s
  rw [bind_done hdone]
  exact hf a s'

theorem Ends.ite {b : Prop} [Decidable b] {c d : Interruptible S A} (hc : b → Ends c)
    (hd : ¬b → Ends d) : Ends (if b then c else d) := by
  split
  · rename_i hb
    exact hc hb
  · rename_i hb
    exact hd hb

/-- What is not reached may be anything. -/
theorem Triple.unreached {c : Interruptible S A} : Triple (fun _ => False) c Q R :=
  fun _ h => h.elim

end Triple

section Approximation

/-- The first computation does what the second one does until it is cut off.
`ext` relates a state to the later ones, and `m` measures how far a run has come:
by `k` or more when it returns, by `n` or more when it is cut off. -/
def Approximates (ext : S → S → Prop) (m : S → ℕ) (k n : ℕ) (c d : Interruptible S A) : Prop :=
  ∀ s, (∃ a s', c s = .done a s' ∧ d s = .done a s' ∧ ext s s' ∧ m s + k ≤ m s') ∨
    ∃ s', c s = .cut s' ∧ ext s s' ∧ ext s' (d s).state ∧ m s + n ≤ m s'

variable {ext : S → S → Prop} {m : S → ℕ} {k l n n' : ℕ}

theorem Approximates.done {c d : Interruptible S A} (h : Approximates ext m k n c d) {a : A}
    {s s' : S} (hc : c s = .done a s') : d s = .done a s' := by
  rcases h s with ⟨b, t, hb, hd, -⟩ | ⟨t, ht, -⟩
  · rw [hc] at hb
    rw [hd, ← hb]
  · rw [hc] at ht
    cases ht

/-- A computation that is cut off has come at least `n` further. -/
theorem Approximates.cut {c d : Interruptible S A} (h : Approximates ext m k n c d) {s s' : S}
    (hc : c s = .cut s') : m s + n ≤ m s' := by
  rcases h s with ⟨b, t, hb, -⟩ | ⟨t, ht, -, -, hm⟩
  · rw [hc] at hb
    cases hb
  · rw [hc] at ht
    cases ht
    exact hm

/-- A computation that always returns. -/
theorem Approximates.of_done {c : Interruptible S A}
    (h : ∀ s, ∃ a s', c s = .done a s' ∧ ext s s' ∧ m s + k ≤ m s') :
    Approximates ext m k n c c := by
  intro s
  obtain ⟨a, s', hc, hext, hm⟩ := h s
  exact Or.inl ⟨a, s', hc, hc, hext, hm⟩

variable (hrefl : ∀ s, ext s s) (htrans : ∀ s s' s'', ext s s' → ext s' s'' → ext s s'')

include hrefl in
theorem Approximates.state {c d : Interruptible S A} (h : Approximates ext m k n c d) (s : S) :
    ext (c s).state (d s).state := by
  rcases h s with ⟨a, s', hc, hd, -⟩ | ⟨s', hc, -, hext, -⟩
  · rw [hc, hd]
    exact hrefl s'
  · rw [hc]
    exact hext

include htrans in
/-- What is approximated goes on from where it was begun. -/
theorem Approximates.extends {c d : Interruptible S A} (h : Approximates ext m k n c d) (s : S) :
    ext s (d s).state := by
  rcases h s with ⟨a, s', hc, hd, hext, -⟩ | ⟨s', hc, hext, hext', -⟩
  · rw [hd]
    exact hext
  · exact htrans _ _ _ hext hext'

include hrefl in
theorem Approximates.pure (a : A) :
    Approximates ext m 0 n (pure a : Interruptible S A) (pure a) :=
  Approximates.of_done fun s => ⟨a, s, rfl, hrefl s, Nat.le_refl _⟩

include hrefl in
theorem Approximates.cutOff {d : Interruptible S A} (hd : ∀ s, ext s (d s).state) :
    Approximates ext m k 0 cutOff d :=
  fun s => Or.inr ⟨s, rfl, hrefl s, hd s, Nat.le_refl _⟩

include htrans in
theorem Approximates.bind {c d : Interruptible S A} {f g : A → Interruptible S B}
    (hcd : Approximates ext m k n c d) (hfg : ∀ a, Approximates ext m l n' (f a) (g a))
    (hn : n ≤ k + n') : Approximates ext m (k + l) n (c >>= f) (d >>= g) := by
  intro s
  rcases hcd s with ⟨a, s', hc, hd, hext, hm⟩ | ⟨s', hc, hext, hext', hm⟩
  · rw [bind_done hc, bind_done hd]
    rcases hfg a s' with ⟨b, t, hf, hg, hextt, hmt⟩ | ⟨t, hf, hextt, hextt', hmt⟩
    · exact Or.inl ⟨b, t, hf, hg, htrans _ _ _ hext hextt, by omega⟩
    · exact Or.inr ⟨t, hf, htrans _ _ _ hext hextt, hextt', by omega⟩
  · rw [bind_cut hc]
    refine Or.inr ⟨s', rfl, hext, ?_, hm⟩
    cases hd : d s with
    | done a s'' =>
        rw [hd] at hext'
        rw [bind_done hd]
        exact htrans _ _ _ hext' ((hfg a).extends htrans s'')
    | cut s'' =>
        rw [hd] at hext'
        rw [bind_cut hd]
        exact hext'

theorem Approximates.mono {c d : Interruptible S A} (h : Approximates ext m k n c d)
    (hk : l ≤ k) (hn : n' ≤ n) : Approximates ext m l n' c d := by
  intro s
  rcases h s with ⟨a, s', hc, hd, hext, hm⟩ | ⟨s', hc, hext, hext', hm⟩
  · exact Or.inl ⟨a, s', hc, hd, hext, by omega⟩
  · exact Or.inr ⟨s', hc, hext, hext', by omega⟩

include hrefl htrans in
/-- A recursion with a bound that comes further before each of its inner calls:
with a larger bound it continues what it does with a smaller one, and a run that
is cut off has come as far as its bound. -/
theorem approximates_of_bound {X : Type*} {F : ℕ → X → Interruptible S A}
    (hzero : ∀ x, F 0 x = Interruptible.cutOff)
    (hsucc : ∀ n n', n ≤ n' → (∀ x, Approximates ext m 0 n (F n x) (F n' x)) →
      ∀ x, Approximates ext m 0 (n + 1) (F (n + 1) x) (F (n' + 1) x))
    (hle : n ≤ n') (x : X) : Approximates ext m 0 n (F n x) (F n' x) := by
  have hself : ∀ n x, Approximates ext m 0 n (F n x) (F n x) := by
    intro n
    induction n with
    | zero =>
        intro x
        rw [hzero]
        exact Approximates.cutOff hrefl hrefl
    | succ n ih => exact hsucc n n (Nat.le_refl n) ih
  induction n generalizing n' x with
  | zero =>
      rw [hzero x]
      exact Approximates.cutOff hrefl ((hself n' x).extends htrans)
  | succ n ih =>
      obtain ⟨j, rfl⟩ : ∃ j, n' = j + 1 := ⟨n' - 1, by omega⟩
      exact hsucc n j (by omega) (fun y => ih (by omega) y) x

end Approximation

end Interruptible

end QueryPlayback
