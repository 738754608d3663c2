import Mathlib.Data.List.TakeWhile

/-!
# Patterns of greedy runs

A pattern is a sequence of single characters and of nonempty runs of characters
of a class, some of which are captured. It is matched by backtracking: a run
takes as much as it can and gives back one character at a time until the rest of
the pattern matches. A search reports the match at the first place that has one.
-/

namespace QueryPlayback.Pattern

variable {α β : Type*}

/-- A character of a class, a run of such characters, or a captured run. -/
inductive Item (α : Type*) where
  | one (p : α → Bool)
  | run (p : α → Bool)
  | group (p : α → Bool)

/-- The characters of a text one behind the other. -/
def literal [BEq α] (text : List α) : List (Item α) := text.map fun c => .one (· == c)

/-- The longest run of at most the given length behind which the rest matches. -/
def longest (next : List α → Option β) (s : List α) : ℕ → Option (ℕ × β)
  | 0 => none
  | n + 1 =>
      match next (s.drop (n + 1)) with
      | some b => some (n + 1, b)
      | none => longest next s n

/-- The captured runs of a match that starts with the first character. -/
def matchItems : List (Item α) → List α → Option (List (List α))
  | [], _ => some []
  | .one _ :: _, [] => none
  | .one p :: items, a :: s => if p a then matchItems items s else none
  | .run p :: items, s => (longest (matchItems items) s (s.takeWhile p).length).map (·.2)
  | .group p :: items, s =>
      (longest (matchItems items) s (s.takeWhile p).length).map fun r => s.take r.1 :: r.2

/-- The captured runs of the first match. -/
def search (items : List (Item α)) : List α → Option (List (List α))
  | [] => matchItems items []
  | a :: s =>
      match matchItems items (a :: s) with
      | some groups => some groups
      | none => search items s

section Longest

variable {next : List α → Option β} {s : List α}

theorem longest_spec {n k : ℕ} {b : β} (h : longest next s n = some (k, b)) :
    0 < k ∧ k ≤ n ∧ next (s.drop k) = some b := by
  induction n with
  | zero => cases h
  | succ n ih =>
      rw [longest] at h
      split at h
      · rename_i b' hnext
        cases h
        exact ⟨Nat.succ_pos n, Nat.le_refl _, hnext⟩
      · obtain ⟨hpos, hle, hb⟩ := ih h
        exact ⟨hpos, Nat.le_succ_of_le hle, hb⟩

theorem longest_of_some {n : ℕ} {b : β} (h : next (s.drop (n + 1)) = some b) :
    longest next s (n + 1) = some (n + 1, b) := by
  rw [longest, h]

theorem longest_of_none {n : ℕ} (h : next (s.drop (n + 1)) = none) :
    longest next s (n + 1) = longest next s n := by
  rw [longest, h]

/-- A run divides the text. -/
theorem longest_takeWhile {p : α → Bool} {k : ℕ} {b : β}
    (h : longest next s (s.takeWhile p).length = some (k, b)) :
    s.take k ≠ [] ∧ (∀ a ∈ s.take k, p a = true) ∧ next (s.drop k) = some b := by
  obtain ⟨hpos, hle, hb⟩ := longest_spec h
  have hbegins : s.take k <+: s.takeWhile p := by
    obtain ⟨rest, hrest⟩ := List.takeWhile_prefix p (l := s)
    have htake : s.take k = (s.takeWhile p).take k := by
      calc
        s.take k = (s.takeWhile p ++ rest).take k := by rw [hrest]
        _ = (s.takeWhile p).take k := List.take_append_of_le_length hle
    rw [htake]
    exact List.take_prefix _ _
  refine ⟨?_, fun a ha => List.mem_takeWhile_imp (hbegins.subset ha), hb⟩
  intro hnil
  have hlength := congrArg List.length hnil
  have hbound := (List.takeWhile_prefix p (l := s)).length_le
  rw [List.length_take, List.length_nil] at hlength
  omega

end Longest

section Match

variable {p : α → Bool} {items : List (Item α)} {s u v : List α} {g : List (List α)}

theorem matchItems_run (h : matchItems (.run p :: items) s = some g) :
    ∃ u v, s = u ++ v ∧ u ≠ [] ∧ (∀ a ∈ u, p a = true) ∧ matchItems items v = some g := by
  rw [matchItems, Option.map_eq_some_iff] at h
  obtain ⟨⟨k, b⟩, hlongest, rfl⟩ := h
  obtain ⟨hne, hall, hb⟩ := longest_takeWhile hlongest
  exact ⟨s.take k, s.drop k, (List.take_append_drop k s).symm, hne, hall, hb⟩

theorem matchItems_group (h : matchItems (.group p :: items) s = some g) :
    ∃ u v g', s = u ++ v ∧ u ≠ [] ∧ (∀ a ∈ u, p a = true) ∧ matchItems items v = some g' ∧
      g = u :: g' := by
  rw [matchItems, Option.map_eq_some_iff] at h
  obtain ⟨⟨k, b⟩, hlongest, rfl⟩ := h
  obtain ⟨hne, hall, hb⟩ := longest_takeWhile hlongest
  exact ⟨s.take k, s.drop k, b, (List.take_append_drop k s).symm, hne, hall, hb, rfl⟩

theorem matchItems_literal [BEq α] [LawfulBEq α] {text : List α} :
    matchItems (literal text ++ items) s = some g ↔
      ∃ v, s = text ++ v ∧ matchItems items v = some g := by
  induction text generalizing s with
  | nil => simp [literal]
  | cons c text ih =>
      have hcons : literal (c :: text) ++ items = .one (· == c) :: (literal text ++ items) := rfl
      rw [hcons]
      cases s with
      | nil => simp [matchItems]
      | cons a s =>
          rw [matchItems]
          by_cases ha : a = c
          · subst ha
            simp [ih]
          · simp [ha]

theorem takeWhile_append_of_stop (hu : ∀ a ∈ u, p a = true) (hv : ∀ a ∈ v.head?, p a = false) :
    (u ++ v).takeWhile p = u := by
  rw [List.takeWhile_append_of_pos hu]
  cases v with
  | nil => rw [List.takeWhile_nil, List.append_nil]
  | cons a v => rw [List.takeWhile_cons_of_neg (by simp [hv a rfl]), List.append_nil]

/-- A text is divided in one way only into a run and what cannot continue it. -/
theorem append_inj_of_stop {u' v' : List α} (hu : ∀ a ∈ u, p a = true)
    (hv : ∀ a ∈ v.head?, p a = false) (hu' : ∀ a ∈ u', p a = true)
    (hv' : ∀ a ∈ v'.head?, p a = false) (h : u ++ v = u' ++ v') : u = u' ∧ v = v' := by
  have hrun : u = u' := by
    rw [← takeWhile_append_of_stop hu hv, h, takeWhile_append_of_stop hu' hv']
  subst hrun
  exact ⟨rfl, List.append_cancel_left h⟩

/-- The same from the end of the text. -/
theorem append_inj_of_stop_reverse {u' v' : List α} (hv : ∀ a ∈ v, p a = true)
    (hu : ∀ a ∈ u.getLast?, p a = false) (hv' : ∀ a ∈ v', p a = true)
    (hu' : ∀ a ∈ u'.getLast?, p a = false) (h : u ++ v = u' ++ v') : u = u' ∧ v = v' := by
  have hreverse : v.reverse ++ u.reverse = v'.reverse ++ u'.reverse := by
    rw [← List.reverse_append, h, List.reverse_append]
  obtain ⟨hvv, huu⟩ := append_inj_of_stop (p := p) (by simpa using hv) (by simpa using hu)
    (by simpa using hv') (by simpa using hu') hreverse
  exact ⟨List.reverse_inj.mp huu, List.reverse_inj.mp hvv⟩

/-- A run that cannot be longer is tried first. -/
theorem longest_append {next : List α → Option β} {b : β} (hne : u ≠ [])
    (hu : ∀ a ∈ u, p a = true) (hv : ∀ a ∈ v.head?, p a = false) (hnext : next v = some b) :
    longest next (u ++ v) ((u ++ v).takeWhile p).length = some (u.length, b) := by
  rw [takeWhile_append_of_stop hu hv]
  obtain ⟨n, hn⟩ := Nat.exists_eq_succ_of_ne_zero (mt List.length_eq_zero_iff.mp hne)
  rw [hn]
  apply longest_of_some
  rw [← Nat.succ_eq_add_one, ← hn, List.drop_left, hnext]

theorem matchItems_run_append (hne : u ≠ []) (hu : ∀ a ∈ u, p a = true)
    (hv : ∀ a ∈ v.head?, p a = false) (hnext : matchItems items v = some g) :
    matchItems (.run p :: items) (u ++ v) = some g := by
  rw [matchItems, longest_append hne hu hv hnext, Option.map_some]

theorem matchItems_group_append (hne : u ≠ []) (hu : ∀ a ∈ u, p a = true)
    (hv : ∀ a ∈ v.head?, p a = false) (hnext : matchItems items v = some g) :
    matchItems (.group p :: items) (u ++ v) = some (u :: g) := by
  rw [matchItems, longest_append hne hu hv hnext, Option.map_some, List.take_left]

/-- A run over the whole text gives back its last character. -/
theorem matchItems_run_giveBack {a : α} (hne : u ≠ []) (hu : ∀ b ∈ u ++ [a], p b = true)
    (hnone : matchItems items [] = none) (hnext : matchItems items [a] = some g) :
    matchItems (.run p :: items) (u ++ [a]) = some g := by
  have hall : (u ++ [a]).takeWhile p = u ++ [a] := List.takeWhile_eq_self_iff.mpr hu
  rw [matchItems, hall, List.length_append, List.length_singleton, longest_of_none]
  · obtain ⟨n, hn⟩ := Nat.exists_eq_succ_of_ne_zero (mt List.length_eq_zero_iff.mp hne)
    rw [hn, longest_of_some (b := g), Option.map_some]
    rw [← Nat.succ_eq_add_one, ← hn, List.drop_left, hnext]
  · rw [List.drop_of_length_le (by simp), hnone]

end Match

section Search

variable {items : List (Item α)} {g : List (List α)}

/-- What is found is the match at the first place that has one. -/
theorem search_first {s : List α} (h : search items s = some g) :
    ∃ pre suf, s = pre ++ suf ∧ matchItems items suf = some g ∧
      ∀ u v, pre = u ++ v → v ≠ [] → matchItems items (v ++ suf) = none := by
  induction s with
  | nil =>
      refine ⟨[], [], rfl, h, fun u v huv hv => ?_⟩
      exact absurd (List.append_eq_nil_iff.mp huv.symm).2 hv
  | cons a s ih =>
      rw [search] at h
      split at h
      · rename_i g' hmatch
        cases h
        refine ⟨[], a :: s, rfl, hmatch, fun u v huv hv => ?_⟩
        exact absurd (List.append_eq_nil_iff.mp huv.symm).2 hv
      · rename_i hnone
        obtain ⟨pre, suf, rfl, hmatch, hearlier⟩ := ih h
        refine ⟨a :: pre, suf, rfl, hmatch, fun u v huv hv => ?_⟩
        cases u with
        | nil =>
            obtain rfl : a :: pre = v := huv
            exact hnone
        | cons b u => exact hearlier u v (List.cons.inj huv).2 hv

/-- A match that is found is a match at some place. -/
theorem search_spec {s : List α} (h : search items s = some g) :
    ∃ pre suf, s = pre ++ suf ∧ matchItems items suf = some g := by
  obtain ⟨pre, suf, hs, hmatch, -⟩ := search_first h
  exact ⟨pre, suf, hs, hmatch⟩

/-- Where there is a match, one is found. -/
theorem search_isSome_of_match (pre : List α) {suf : List α}
    (h : matchItems items suf = some g) : (search items (pre ++ suf)).isSome = true := by
  induction pre with
  | nil =>
      cases suf with
      | nil =>
          rw [List.append_nil, search, h]
          rfl
      | cons a suf =>
          rw [List.nil_append, search, h]
          rfl
  | cons a pre ih =>
      rw [List.cons_append, search]
      split
      · rfl
      · exact ih

theorem search_of_match {s : List α} (h : matchItems items s = some g) :
    search items s = some g := by
  cases s with
  | nil => exact h
  | cons a s => rw [search, h]

/-- The first match is found when the earlier ones, if any, capture the same. -/
theorem search_append {pre suf : List α} (hmatch : matchItems items suf = some g)
    (hearlier : ∀ u v g', pre = u ++ v → matchItems items (v ++ suf) = some g' → g' = g) :
    search items (pre ++ suf) = some g := by
  induction pre with
  | nil => exact search_of_match hmatch
  | cons a pre ih =>
      rw [List.cons_append, search]
      cases hfirst : matchItems items (a :: (pre ++ suf)) with
      | some g' => rw [hearlier [] (a :: pre) g' rfl hfirst]
      | none =>
          apply ih
          intro u v g' hpre hv
          exact hearlier (a :: u) v g' (by rw [hpre, List.cons_append]) hv

end Search

end QueryPlayback.Pattern
