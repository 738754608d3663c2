import Mathlib.Data.List.Basic

/-!
# Lines of a sequence

A sequence is cut after every occurrence of a separator, and each line keeps
its separator. Only the last line may lack it. Nothing is lost: the lines in
order concatenate to the sequence.
-/

namespace QueryPlayback.Lines

variable {α : Type*} [DecidableEq α] (sep : α)

/-- The first line, with its separator when there is one. -/
def takeLine : List α → List α
  | [] => []
  | a :: rest => if a = sep then [a] else a :: takeLine rest

/-- What follows the first line. -/
def dropLine : List α → List α
  | [] => []
  | a :: rest => if a = sep then rest else dropLine rest

/-- All lines in order. -/
def lines : List α → List (List α)
  | [] => []
  | a :: rest =>
      if a = sep then [a] :: lines rest
      else match lines rest with
        | [] => [[a]]
        | l :: ls => (a :: l) :: ls

@[simp] theorem takeLine_nil : takeLine sep [] = [] := rfl

@[simp] theorem dropLine_nil : dropLine sep [] = [] := rfl

@[simp] theorem lines_nil : lines sep [] = [] := rfl

theorem takeLine_append_dropLine (xs : List α) :
    takeLine sep xs ++ dropLine sep xs = xs := by
  induction xs with
  | nil => rfl
  | cons a rest ih =>
      by_cases h : a = sep
      · simp [takeLine, dropLine, h]
      · simp [takeLine, dropLine, h, ih]

@[simp] theorem takeLine_eq_nil_iff (xs : List α) : takeLine sep xs = [] ↔ xs = [] := by
  cases xs with
  | nil => simp
  | cons a rest => by_cases h : a = sep <;> simp [takeLine, h]

theorem takeLine_length_pos {xs : List α} (h : xs ≠ []) : 0 < (takeLine sep xs).length :=
  List.length_pos_iff.mpr (mt (takeLine_eq_nil_iff sep xs).mp h)

theorem length_takeLine_add_dropLine (xs : List α) :
    (takeLine sep xs).length + (dropLine sep xs).length = xs.length := by
  rw [← List.length_append, takeLine_append_dropLine]

/-- Cutting off one line makes a nonempty sequence shorter. -/
theorem dropLine_length_lt {xs : List α} (h : xs ≠ []) :
    (dropLine sep xs).length < xs.length := by
  have hpos := takeLine_length_pos sep h
  have hsum := length_takeLine_add_dropLine sep xs
  omega

theorem takeLine_of_not_mem {xs : List α} (h : sep ∉ xs) : takeLine sep xs = xs := by
  induction xs with
  | nil => rfl
  | cons a rest ih =>
      obtain ⟨ha, hr⟩ : sep ≠ a ∧ sep ∉ rest := by simpa using h
      simp [takeLine, Ne.symm ha, ih hr]

theorem dropLine_of_not_mem {xs : List α} (h : sep ∉ xs) : dropLine sep xs = [] := by
  induction xs with
  | nil => rfl
  | cons a rest ih =>
      obtain ⟨ha, hr⟩ : sep ≠ a ∧ sep ∉ rest := by simpa using h
      simp [dropLine, Ne.symm ha, ih hr]

theorem takeLine_terminated {text : List α} (h : sep ∉ text) (rest : List α) :
    takeLine sep (text ++ sep :: rest) = text ++ [sep] := by
  induction text with
  | nil => simp [takeLine]
  | cons a text ih =>
      obtain ⟨ha, hr⟩ : sep ≠ a ∧ sep ∉ text := by simpa using h
      simp [takeLine, Ne.symm ha, ih hr]

theorem dropLine_terminated {text : List α} (h : sep ∉ text) (rest : List α) :
    dropLine sep (text ++ sep :: rest) = rest := by
  induction text with
  | nil => simp [dropLine]
  | cons a text ih =>
      obtain ⟨ha, hr⟩ : sep ≠ a ∧ sep ∉ text := by simpa using h
      simp [dropLine, Ne.symm ha, ih hr]

/-- The first line is cut where the separator is found. -/
theorem takeLine_of_findIdx? {xs : List α} {k : Nat}
    (h : xs.findIdx? (· == sep) = some k) : takeLine sep xs = xs.take (k + 1) := by
  induction xs generalizing k with
  | nil => simp at h
  | cons a rest ih =>
      by_cases ha : a = sep
      · obtain rfl : k = 0 := by simpa [List.findIdx?_cons, ha] using h.symm
        simp [takeLine, ha]
      · simp only [List.findIdx?_cons, beq_iff_eq, ha, if_false, Option.map_eq_some_iff] at h
        obtain ⟨j, hj, rfl⟩ := h
        simp [takeLine, ha, ih hj]

theorem dropLine_of_findIdx? {xs : List α} {k : Nat}
    (h : xs.findIdx? (· == sep) = some k) : dropLine sep xs = xs.drop (k + 1) := by
  have hcut : xs.take (k + 1) ++ dropLine sep xs = xs.take (k + 1) ++ xs.drop (k + 1) := by
    rw [List.take_append_drop, ← takeLine_of_findIdx? sep h, takeLine_append_dropLine]
  exact List.append_cancel_left hcut

theorem not_mem_of_findIdx?_eq_none {xs : List α}
    (h : xs.findIdx? (· == sep) = none) : sep ∉ xs := by
  intro hm
  simpa using List.findIdx?_eq_none_iff.mp h sep hm

/-- Lines can be read off one at a time. -/
theorem lines_eq_cons {xs : List α} (h : xs ≠ []) :
    lines sep xs = takeLine sep xs :: lines sep (dropLine sep xs) := by
  induction xs with
  | nil => exact absurd rfl h
  | cons a rest ih =>
      by_cases ha : a = sep
      · simp [lines, takeLine, dropLine, ha]
      · cases rest with
        | nil => simp [lines, takeLine, dropLine, ha]
        | cons b rest =>
            have hb := ih (by simp)
            simp only [lines.eq_2 sep a, hb, takeLine.eq_2 sep a, dropLine.eq_2 sep a, if_neg ha]

/-- The lines in order give back the sequence. -/
theorem flatten_lines (xs : List α) : (lines sep xs).flatten = xs := by
  induction hn : xs.length using Nat.strongRecOn generalizing xs with
  | ind n ih =>
      by_cases hne : xs = []
      · simp [hne]
      · rw [lines_eq_cons sep hne, List.flatten_cons,
          ih _ (hn ▸ dropLine_length_lt sep hne) _ rfl, takeLine_append_dropLine]

theorem lines_terminated {text : List α} (h : sep ∉ text) (rest : List α) :
    lines sep (text ++ sep :: rest) = (text ++ [sep]) :: lines sep rest := by
  rw [lines_eq_cons sep (by simp), takeLine_terminated sep h, dropLine_terminated sep h]

theorem lines_of_not_mem {xs : List α} (hne : xs ≠ []) (h : sep ∉ xs) :
    lines sep xs = [xs] := by
  rw [lines_eq_cons sep hne, takeLine_of_not_mem sep h, dropLine_of_not_mem sep h, lines_nil]

/-- Writing texts as terminated lines and then any tail, and reading back. -/
theorem lines_flatMap_append {texts : List (List α)} (h : ∀ t ∈ texts, sep ∉ t)
    (tail : List α) :
    lines sep (texts.flatMap (· ++ [sep]) ++ tail) =
      texts.map (· ++ [sep]) ++ lines sep tail := by
  induction texts with
  | nil => simp
  | cons t texts ih =>
      have ht := h t (by simp)
      have hr := ih fun u hu => h u (by simp [hu])
      simp only [List.flatMap_cons, List.append_assoc, List.map_cons, List.cons_append]
      rw [lines_terminated sep ht, ← hr]
      simp

/-- The lines behind a cut at a line boundary. -/
theorem lines_suffix {xs : List α} {pre suf : List (List α)} (h : lines sep xs = pre ++ suf) :
    lines sep suf.flatten = suf := by
  induction pre generalizing xs with
  | nil =>
      rw [List.nil_append] at h
      rw [← h, flatten_lines]
  | cons l pre ih =>
      have hne : xs ≠ [] := by
        rintro rfl
        simp at h
      rw [lines_eq_cons sep hne, List.cons_append, List.cons.injEq] at h
      exact ih h.2

/-- A first line without a separator is the whole sequence. -/
theorem takeLine_append_of_dropLine_ne_nil {xs : List α} (h : dropLine sep xs ≠ [])
    (ys : List α) :
    takeLine sep (takeLine sep xs ++ ys) = takeLine sep xs ∧
      dropLine sep (takeLine sep xs ++ ys) = ys := by
  induction xs with
  | nil => exact absurd rfl h
  | cons a rest ih =>
      by_cases ha : a = sep
      · simp [takeLine, dropLine, ha]
      · have hrest : dropLine sep rest ≠ [] := by simpa [dropLine, ha] using h
        obtain ⟨ht, hd⟩ := ih hrest
        simp [takeLine, dropLine, ha, ht, hd]

/-- The lines before a cut at a line boundary. -/
theorem lines_prefix {xs : List α} {pre suf : List (List α)} (h : lines sep xs = pre ++ suf) :
    lines sep pre.flatten = pre := by
  induction pre generalizing xs with
  | nil => rfl
  | cons l pre ih =>
      have hne : xs ≠ [] := by
        rintro rfl
        simp at h
      rw [lines_eq_cons sep hne, List.cons_append, List.cons.injEq] at h
      obtain ⟨rfl, htail⟩ := h
      have hpre := ih htail
      have hl : takeLine sep xs ≠ [] := mt (takeLine_eq_nil_iff sep xs).mp hne
      rw [List.flatten_cons, lines_eq_cons sep (by simp [hl])]
      by_cases hd : dropLine sep xs = []
      · -- The cut is at the end, and the line may lack its separator.
        obtain rfl : pre = [] := by
          rw [hd, lines_nil] at htail
          exact (List.append_eq_nil_iff.mp htail.symm).1
        have hall := takeLine_append_dropLine sep xs
        rw [hd, List.append_nil] at hall
        rw [List.flatten_nil, List.append_nil, hall, hd, hall, lines_nil]
      · obtain ⟨ht, hr⟩ := takeLine_append_of_dropLine_ne_nil sep hd pre.flatten
        rw [ht, hr, hpre]

/-- Consecutive lines are the lines of their concatenation. -/
theorem lines_consecutive {xs : List α} {mid : List (List α)} (h : mid <:+: lines sep xs) :
    lines sep mid.flatten = mid := by
  obtain ⟨pre, suf, hcut⟩ := h
  have hcut' : lines sep xs = pre ++ (mid ++ suf) := by rw [← List.append_assoc, hcut]
  exact lines_prefix sep (lines_suffix sep hcut')

/-- A line with something behind it has its separator. -/
theorem takeLine_terminated_of_dropLine_ne_nil {xs : List α} (h : dropLine sep xs ≠ []) :
    ∃ text, takeLine sep xs = text ++ [sep] ∧ sep ∉ text := by
  induction xs with
  | nil => exact absurd rfl h
  | cons a rest ih =>
      by_cases ha : a = sep
      · exact ⟨[], by simp [takeLine, ha], by simp⟩
      · have hrest : dropLine sep rest ≠ [] := by simpa [dropLine, ha] using h
        obtain ⟨text, htake, hmem⟩ := ih hrest
        refine ⟨a :: text, by simp [takeLine, ha, htake], ?_⟩
        simp [hmem, Ne.symm ha]

/-- All lines but the last one have their separator. -/
theorem terminated_of_lines {xs : List α} {pre suf : List (List α)}
    (h : lines sep xs = pre ++ suf) (hne : suf ≠ []) :
    ∃ texts : List (List α), pre = texts.map (· ++ [sep]) ∧ ∀ t ∈ texts, sep ∉ t := by
  induction pre generalizing xs with
  | nil => exact ⟨[], rfl, by simp⟩
  | cons l pre ih =>
      have hxs : xs ≠ [] := by
        rintro rfl
        simp at h
      rw [lines_eq_cons sep hxs, List.cons_append, List.cons.injEq] at h
      obtain ⟨rfl, htail⟩ := h
      have hdrop : dropLine sep xs ≠ [] := by
        intro hnil
        rw [hnil, lines_nil] at htail
        exact hne (List.append_eq_nil_iff.mp htail.symm).2
      obtain ⟨text, htake, htext⟩ := takeLine_terminated_of_dropLine_ne_nil sep hdrop
      obtain ⟨texts, rfl, htexts⟩ := ih htail
      exact ⟨text :: texts, by rw [htake, List.map_cons], List.forall_mem_cons.mpr ⟨htext, htexts⟩⟩

/-- Behind a separator a new line begins. -/
theorem lines_append_sep (xs ys : List α) :
    lines sep (xs ++ sep :: ys) = lines sep (xs ++ [sep]) ++ lines sep ys := by
  induction xs with
  | nil => simp [lines]
  | cons a xs ih =>
      by_cases ha : a = sep
      · simp [lines, ha, ih]
      · have hne : lines sep (xs ++ [sep]) ≠ [] := by
          intro hnil
          have hflat := flatten_lines sep (xs ++ [sep])
          rw [hnil] at hflat
          simp at hflat
        obtain ⟨l, ls, hls⟩ := List.exists_cons_of_ne_nil hne
        simp only [List.cons_append, lines, if_neg ha, ih, hls]

/-- Two sequences that meet at a line boundary have their lines one behind the other. -/
theorem lines_append {xs ys : List α} (h : (xs = [] ∨ xs.getLast? = some sep) ∨ ys = []) :
    lines sep (xs ++ ys) = lines sep xs ++ lines sep ys := by
  rcases h with (rfl | hlast) | rfl
  · rfl
  · obtain ⟨text, rfl⟩ := List.getLast?_eq_some_iff.mp hlast
    rw [List.append_assoc, List.singleton_append, lines_append_sep]
  · rw [List.append_nil, lines_nil, List.append_nil]

/-- A cut goes through one line at most. -/
theorem lines_cut (xs ys : List α) : ∃ whole rest more, lines sep xs = whole ++ rest ∧
    rest.length ≤ 1 ∧ lines sep (xs ++ ys) = whole ++ more := by
  rcases List.eq_nil_or_concat' (lines sep xs) with hnil | ⟨whole, last, hlast⟩
  · refine ⟨[], [], lines sep (xs ++ ys), hnil, Nat.zero_le 1, rfl⟩
  · obtain ⟨texts, rfl, htexts⟩ := terminated_of_lines sep hlast (List.cons_ne_nil last [])
    refine ⟨texts.map (· ++ [sep]), [last], lines sep (last ++ ys), hlast, Nat.le_refl 1, ?_⟩
    have hxs : xs = texts.flatMap (· ++ [sep]) ++ last := by
      rw [← flatten_lines sep xs, hlast, List.flatten_append, List.flatMap_def]
      simp
    rw [hxs, List.append_assoc, lines_flatMap_append sep htexts]

/-- A text without a separator belongs to the first line of what follows. -/
theorem takeLine_append_of_not_mem {text : List α} (h : sep ∉ text) (xs : List α) :
    takeLine sep (text ++ xs) = text ++ takeLine sep xs ∧
      dropLine sep (text ++ xs) = dropLine sep xs := by
  induction text with
  | nil => exact ⟨rfl, rfl⟩
  | cons a text ih =>
      obtain ⟨ha, htext⟩ : sep ≠ a ∧ sep ∉ text := by simpa using h
      obtain ⟨htake, hdrop⟩ := ih htext
      simp [takeLine, dropLine, Ne.symm ha, htake, hdrop]

/-- A line has the separator at its end at most. -/
theorem not_mem_dropLast_takeLine (xs : List α) :
    sep ∉ (takeLine sep xs).dropLast := by
  induction xs with
  | nil => simp
  | cons a rest ih =>
      by_cases ha : a = sep
      · simp [takeLine, ha]
      · rw [takeLine, if_neg ha]
        cases hline : takeLine sep rest with
        | nil => simp
        | cons b line =>
            rw [hline] at ih
            rw [List.dropLast_cons_of_ne_nil (by simp), List.mem_cons, not_or]
            exact ⟨Ne.symm ha, ih⟩

/-- The first of some consecutive lines and the text of the others. -/
theorem takeLine_dropLine_of_lines {xs l : List α}
    {rest : List (List α)} (h : lines sep xs = l :: rest) :
    takeLine sep xs = l ∧ dropLine sep xs = rest.flatten := by
  have hne : xs ≠ [] := by
    rintro rfl
    cases h
  rw [lines_eq_cons sep hne] at h
  obtain ⟨rfl, rfl⟩ := List.cons.inj h
  exact ⟨rfl, (flatten_lines sep _).symm⟩

/-- A line without the separator is the last one. -/
theorem last_of_not_mem {xs : List α} {m : ℕ}
    (hm : m < (lines sep xs).length) (h : sep ∉ (lines sep xs)[m]) :
    m + 1 = (lines sep xs).length := by
  by_contra hlast
  have hcut := (List.take_append_drop (m + 1) (lines sep xs)).symm
  have hbehind : (lines sep xs).drop (m + 1) ≠ [] := by
    rw [Ne, List.drop_eq_nil_iff]
    omega
  obtain ⟨texts, htexts, -⟩ := terminated_of_lines sep hcut hbehind
  have hmem : (lines sep xs)[m] ∈ (lines sep xs).take (m + 1) := by
    rw [List.take_succ_eq_append_getElem hm]
    exact List.mem_append_right _ (List.mem_singleton_self _)
  rw [htexts] at hmem
  obtain ⟨t, -, ht⟩ := List.mem_map.mp hmem
  rw [← ht] at h
  simp at h

end QueryPlayback.Lines
