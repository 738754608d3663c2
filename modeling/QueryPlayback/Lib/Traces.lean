import Mathlib.Data.List.Induction

/-!
# Safety properties of event traces

A trace grows at its end. `Always` is a property of every event together with
the events before it, `Since` is the past operator of temporal logic. Both have
one rule for the trace that has grown by one event, and this rule is all that an
invariant of a program that records its events needs.
-/

namespace QueryPlayback.Traces

variable {E : Type*}

/-- Some event of the kind `p` has had no event of the kind `q` behind it. -/
def Since (p q : E → Prop) (t : List E) : Prop :=
  ∃ a x b, t = a ++ x :: b ∧ p x ∧ ∀ y ∈ b, ¬q y

/-- Every event of the trace is allowed by the events before it. -/
def Always (allowed : List E → E → Prop) (t : List E) : Prop :=
  ∀ a x b, t = a ++ x :: b → allowed a x

/-- A list that ends in a given event and has another event in it. -/
theorem append_singleton_split {t a b : List E} {x y : E} (h : t ++ [x] = a ++ y :: b) :
    (t = a ∧ x = y ∧ b = []) ∨ ∃ b', b = b' ++ [x] ∧ t = a ++ y :: b' := by
  rcases List.eq_nil_or_concat b with rfl | ⟨b', z, rfl⟩
  · obtain ⟨rfl, hxy⟩ := List.append_inj' h rfl
    exact Or.inl ⟨rfl, by simpa using hxy, rfl⟩
  · rw [List.concat_eq_append] at h ⊢
    rw [← List.cons_append, ← List.append_assoc] at h
    obtain ⟨rfl, hxz⟩ := List.append_inj' h rfl
    obtain rfl : x = z := by simpa using hxz
    exact Or.inr ⟨b', rfl, rfl⟩

section Since

variable {p q : E → Prop}

@[simp] theorem not_since_nil : ¬Since p q [] := by
  rintro ⟨a, x, b, h, -⟩
  simp at h

/-- What a new event does to `Since`. -/
@[simp] theorem since_append_singleton {t : List E} {x : E} :
    Since p q (t ++ [x]) ↔ p x ∨ ¬q x ∧ Since p q t := by
  constructor
  · rintro ⟨a, y, b, h, hp, hq⟩
    rcases append_singleton_split h with ⟨-, rfl, -⟩ | ⟨b', rfl, rfl⟩
    · exact Or.inl hp
    · exact Or.inr ⟨hq x (by simp), a, y, b', rfl, hp, fun z hz => hq z (by simp [hz])⟩
  · rintro (hp | ⟨hqx, a, y, b, rfl, hp, hq⟩)
    · exact ⟨t, x, [], rfl, hp, by simp⟩
    · refine ⟨a, y, b ++ [x], by simp, hp, fun z hz => ?_⟩
      rcases List.mem_append.mp hz with hz | hz
      · exact hq z hz
      · obtain rfl : z = x := by simpa using hz
        exact hqx

end Since

section Always

variable {P Q : List E → E → Prop}

@[simp] theorem always_nil : Always P [] := by
  intro a x b h
  simp at h

/-- A trace stays safe when its new event is allowed. -/
@[simp] theorem always_append_singleton {t : List E} {x : E} :
    Always P (t ++ [x]) ↔ Always P t ∧ P t x := by
  constructor
  · intro h
    refine ⟨fun a y b ht => h a y (b ++ [x]) (by simp [ht]), h t x [] rfl⟩
  · rintro ⟨h, hx⟩ a y b ht
    rcases append_singleton_split ht with ⟨rfl, rfl, -⟩ | ⟨b', -, rfl⟩
    · exact hx
    · exact h a y b' rfl

/-- What holds of a trace has held of every earlier one. -/
theorem Always.of_prefix {t t' : List E} (h : Always P t') (hpre : t <+: t') : Always P t := by
  obtain ⟨c, rfl⟩ := hpre
  intro a x b ht
  exact h a x (b ++ c) (by simp [ht])

/-- Between an event of the kind `p` and a later one of the kind `r` there is always one of
the kind `q`. -/
theorem always_not_since_iff {p q r : E → Prop} {t : List E} :
    Always (fun past y => r y → ¬Since p q past) t ↔
      ∀ a x b y c, t = a ++ x :: (b ++ y :: c) → p x → r y → ∃ z ∈ b, q z := by
  constructor
  · rintro h a x b y c rfl hx hy
    by_contra hnone
    refine h (a ++ x :: b) y c (by simp) hy ⟨a, x, b, rfl, hx, fun z hz hq => hnone ⟨z, hz, hq⟩⟩
  · rintro h past y c rfl hy ⟨a, x, b, rfl, hx, hb⟩
    obtain ⟨z, hz, hq⟩ := h a x b y c (by simp) hx hy
    exact hb z hz hq

end Always

end QueryPlayback.Traces
