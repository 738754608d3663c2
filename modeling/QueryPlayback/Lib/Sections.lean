import Mathlib.Data.List.Basic

/-!
# Sections of a list

An item may open a section, which then goes on up to the next header. Items in
front of the first section and behind a header that opens none belong to no
section. Lists that meet in front of a header have their sections one behind
the other, and of a list that is cut off at most the last section differs from
what it would have been.
-/

namespace QueryPlayback.Sections

variable {α : Type*} (opens header : α → Bool)

/-- The sections of a list in their order. -/
def sections : List α → List (List α)
  | [] => []
  | a :: rest =>
      if opens a then
        (a :: rest.takeWhile (!header ·)) :: sections (rest.dropWhile (!header ·))
      else sections rest
  termination_by items => items.length
  decreasing_by
    · exact Nat.lt_succ_of_le (List.dropWhile_sublist _).length_le
    · simp

variable {opens header}

theorem sections_nil : sections opens header [] = [] := by
  rw [sections]

theorem sections_cons_of_opens {a : α} (h : opens a = true) (rest : List α) :
    sections opens header (a :: rest) = (a :: rest.takeWhile (!header ·)) ::
      sections opens header (rest.dropWhile (!header ·)) := by
  rw [sections, if_pos h]

theorem sections_cons_of_not_opens {a : α} (h : opens a = false) (rest : List α) :
    sections opens header (a :: rest) = sections opens header rest := by
  rw [sections, h]
  rfl

/-- A section begins with the item that opens it. -/
theorem exists_of_mem {items s : List α} (h : s ∈ sections opens header items) :
    ∃ a rest, s = a :: rest ∧ opens a = true := by
  induction items using sections.induct opens header with
  | case1 =>
      rw [sections_nil] at h
      cases h
  | case2 a rest ha ih =>
      rw [sections_cons_of_opens ha] at h
      rcases List.mem_cons.mp h with rfl | h
      · exact ⟨a, _, rfl, ha⟩
      · exact ih h
  | case3 a rest ha ih =>
      rw [sections_cons_of_not_opens (by simpa using ha)] at h
      exact ih h

/-- Without a header all items belong to the open section. -/
theorem takeWhile_append_of_none {rest : List α} (h : ∀ a ∈ rest, header a = false)
    (more : List α) :
    (rest ++ more).takeWhile (!header ·) = rest ++ more.takeWhile (!header ·) ∧
      (rest ++ more).dropWhile (!header ·) = more.dropWhile (!header ·) := by
  have hall : ∀ a ∈ rest, (!header a) = true := fun a ha => by rw [h a ha, Bool.not_false]
  exact ⟨List.takeWhile_append_of_pos hall, List.dropWhile_append_of_pos hall⟩

/-- The first header ends the open section, whatever comes behind it. -/
theorem takeWhile_append_of_header {rest : List α} (h : ∃ a ∈ rest, header a = true)
    (more : List α) :
    (rest ++ more).takeWhile (!header ·) = rest.takeWhile (!header ·) ∧
      (rest ++ more).dropWhile (!header ·) = rest.dropWhile (!header ·) ++ more := by
  induction rest with
  | nil =>
      obtain ⟨a, ha, -⟩ := h
      cases ha
  | cons a rest ih =>
      cases ha : header a with
      | true => simp [ha]
      | false =>
          have hrest : ∃ b ∈ rest, header b = true := by
            obtain ⟨b, hb, hheader⟩ := h
            rcases List.mem_cons.mp hb with rfl | hb
            · rw [ha] at hheader
              cases hheader
            · exact ⟨b, hb, hheader⟩
          obtain ⟨htake, hdrop⟩ := ih hrest
          simp [ha, htake, hdrop]

theorem header_cases (header : α → Bool) (rest : List α) :
    (∀ a ∈ rest, header a = false) ∨ ∃ a ∈ rest, header a = true := by
  by_cases h : ∃ a ∈ rest, header a = true
  · exact Or.inr h
  · exact Or.inl fun a ha => by simpa using fun hheader => h ⟨a, ha, hheader⟩

/-- Lists that meet in front of a header. -/
theorem sections_append {items : List α} {more : List α} (h : ∀ a ∈ more.head?, header a = true) :
    sections opens header (items ++ more) =
      sections opens header items ++ sections opens header more := by
  have htake : more.takeWhile (!header ·) = [] ∧ more.dropWhile (!header ·) = more := by
    cases more with
    | nil => exact ⟨rfl, rfl⟩
    | cons a more =>
        have ha : header a = true := h a rfl
        simp [ha]
  induction items using sections.induct opens header with
  | case1 => rw [List.nil_append, sections_nil, List.nil_append]
  | case2 a rest ha ih =>
      rw [List.cons_append, sections_cons_of_opens ha, sections_cons_of_opens ha]
      rcases header_cases header rest with hnone | hsome
      · obtain ⟨hall, hbehind⟩ := takeWhile_append_of_none hnone more
        obtain ⟨hopen, hclosed⟩ := takeWhile_append_of_none hnone []
        rw [List.append_nil] at hopen hclosed
        rw [hall, hbehind, htake.1, htake.2, hopen, hclosed, List.takeWhile_nil,
          List.dropWhile_nil, sections_nil]
        rfl
      · obtain ⟨hall, hbehind⟩ := takeWhile_append_of_header hsome more
        rw [hall, hbehind, ih, List.cons_append]
  | case3 a rest ha ih =>
      have ha : opens a = false := by simpa using ha
      rw [List.cons_append, sections_cons_of_not_opens ha, sections_cons_of_not_opens ha, ih]

/-- One item opens a section of its own at most. -/
theorem eq_of_mem_of_length_le_one {items s : List α} (hlength : items.length ≤ 1)
    (h : s ∈ sections opens header items) : s = items := by
  cases items with
  | nil =>
      rw [sections_nil] at h
      cases h
  | cons a rest =>
      obtain rfl : rest = [] := by
        rw [List.length_cons] at hlength
        exact List.length_eq_zero_iff.mp (by omega)
      cases ha : opens a with
      | true =>
          rw [sections_cons_of_opens ha, List.takeWhile_nil, List.dropWhile_nil, sections_nil] at h
          exact List.mem_singleton.mp h
      | false =>
          rw [sections_cons_of_not_opens ha, sections_nil] at h
          cases h

/-- Up to a cut at most one section is not what it is in the whole list. What is left of the
item at the cut may make a section of its own. -/
theorem sections_cut (items : List α) {rest : List α} (hrest : rest.length ≤ 1)
    (more : List α) : ∃ front last tail,
      sections opens header (items ++ rest) = front ++ (last ++ tail) ∧
      front <+: sections opens header (items ++ more) ∧ last.length ≤ 1 ∧
      ∀ s ∈ tail, s = rest := by
  induction items using sections.induct opens header with
  | case1 =>
      exact ⟨[], [], sections opens header rest, rfl, List.nil_prefix, Nat.zero_le 1,
        fun s hs => eq_of_mem_of_length_le_one hrest hs⟩
  | case2 a items ha ih =>
      rw [List.cons_append, sections_cons_of_opens ha, List.cons_append,
        sections_cons_of_opens ha]
      rcases header_cases header items with hnone | hsome
      · -- the open section reaches up to the cut
        refine ⟨[], [_], _, rfl, List.nil_prefix, Nat.le_refl 1, fun s hs => ?_⟩
        rw [(takeWhile_append_of_none hnone rest).2] at hs
        have hdrop : (rest.dropWhile (!header ·)).length ≤ rest.length :=
          (List.dropWhile_sublist _).length_le
        have heq := eq_of_mem_of_length_le_one (Nat.le_trans hdrop hrest) hs
        obtain ⟨b, behind, hcons, -⟩ := exists_of_mem hs
        have hpos : 0 < s.length := by simp [hcons]
        rw [heq] at hpos ⊢
        exact (List.dropWhile_sublist _).eq_of_length_le (Nat.le_trans hrest hpos)
      · obtain ⟨front, last, tail, hsections, hfront, hlast, htail⟩ := ih
        obtain ⟨hall, hbehind⟩ := takeWhile_append_of_header hsome rest
        obtain ⟨hall', hbehind'⟩ := takeWhile_append_of_header hsome more
        rw [hall, hbehind, hall', hbehind', hsections]
        exact ⟨_ :: front, last, tail, rfl, (List.prefix_cons_inj _).mpr hfront, hlast, htail⟩
  | case3 a items ha ih =>
      have ha : opens a = false := by simpa using ha
      rw [List.cons_append, sections_cons_of_not_opens ha, List.cons_append,
        sections_cons_of_not_opens ha]
      exact ih

end QueryPlayback.Sections
