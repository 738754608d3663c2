import QueryPlayback.QueryLog.Records

/-!
# Writing slow logs

Records are given by the texts of their lines, without newlines. Writing puts
a newline behind every text, except perhaps behind the last one. This file
connects written logs with the sections of `Records`.
-/

namespace QueryPlayback

open Lines

/-- Every text as a line of its own. -/
def writeLines (texts : List Bytes) : Bytes := texts.flatMap (· ++ [newline])

/-- A log whose final newline may be missing. -/
def cutEnd (missing : Bool) (log : Bytes) : Bytes := if missing then log.dropLast else log

/-- The lines that `cutEnd missing (writeLines texts)` consists of. -/
def closeLines (missing : Bool) : List Bytes → List Bytes
  | [] => []
  | [t] => [if missing then t else t ++ [newline]]
  | t :: u :: rest => (t ++ [newline]) :: closeLines missing (u :: rest)

theorem closeLines_false (texts : List Bytes) :
    closeLines false texts = texts.map (· ++ [newline]) := by
  induction texts with
  | nil => rfl
  | cons t rest ih =>
      cases rest with
      | nil => rfl
      | cons u rest => rw [closeLines, ih]; rfl

/-- Only the last text can lack its newline. -/
theorem closeLines_append {missing : Bool} (front : List Bytes) {texts : List Bytes}
    (hne : texts ≠ []) :
    closeLines missing (front ++ texts) =
      front.map (· ++ [newline]) ++ closeLines missing texts := by
  induction front with
  | nil => rfl
  | cons t front ih =>
      obtain ⟨u, rest, hu⟩ := List.exists_cons_of_ne_nil (l := front ++ texts) (by simp [hne])
      rw [List.cons_append, hu, closeLines, ← hu, ih, List.map_cons, List.cons_append]

theorem flatten_closeLines (missing : Bool) (texts : List Bytes) :
    (closeLines missing texts).flatten = cutEnd missing (writeLines texts) := by
  rcases List.eq_nil_or_concat' texts with rfl | ⟨front, last, rfl⟩
  · cases missing <;> rfl
  · rw [closeLines_append front (List.cons_ne_nil last [])]
    cases missing
    · simp [closeLines, cutEnd, writeLines, List.flatMap]
    · simp [closeLines, cutEnd, writeLines, List.flatMap, ← List.append_assoc]

/-- Reading back the lines of a written log. -/
theorem lines_cutEnd {missing : Bool} {texts : List Bytes} (h : ∀ t ∈ texts, newline ∉ t)
    (hlast : missing = true → ∃ t ∈ texts.getLast?, t ≠ []) :
    lines newline (cutEnd missing (writeLines texts)) = closeLines missing texts := by
  cases missing with
  | false =>
      have hw := lines_flatMap_append newline h []
      simpa [cutEnd, writeLines, closeLines_false] using hw
  | true =>
      rcases List.eq_nil_or_concat' texts with rfl | ⟨front, last, rfl⟩
      · rfl
      · have hne : last ≠ [] := by simpa using hlast rfl
        have hfront : ∀ t ∈ front, newline ∉ t := fun t ht => h t (by simp [ht])
        have hw := lines_flatMap_append newline hfront last
        rw [lines_of_not_mem newline hne (h last (by simp))] at hw
        rw [closeLines_append front (List.cons_ne_nil last []), closeLines, if_pos rfl, ← hw]
        simp [cutEnd, writeLines, ← List.append_assoc]

/-- A line of a written log is one of the texts, with or without its newline. -/
theorem mem_closeLines {missing : Bool} {texts : List Bytes} {l : Bytes}
    (h : l ∈ closeLines missing texts) : ∃ t ∈ texts, l = t ∨ l = t ++ [newline] := by
  induction texts with
  | nil => simp [closeLines] at h
  | cons t rest ih =>
      cases rest with
      | nil =>
          refine ⟨t, by simp, ?_⟩
          cases missing
          · exact Or.inr (by simpa [closeLines] using h)
          · exact Or.inl (by simpa [closeLines] using h)
      | cons u rest =>
          rcases List.mem_cons.mp h with rfl | h
          · exact ⟨t, by simp, Or.inr rfl⟩
          · obtain ⟨s, hs, hl⟩ := ih h
            exact ⟨s, List.mem_cons_of_mem _ hs, hl⟩

theorem closeLines_of_mem (missing : Bool) {texts : List Bytes} {t : Bytes} (h : t ∈ texts) :
    t ∈ closeLines missing texts ∨ t ++ [newline] ∈ closeLines missing texts := by
  induction texts with
  | nil => simp at h
  | cons s rest ih =>
      cases rest with
      | nil =>
          obtain rfl : t = s := by simpa using h
          cases missing <;> simp [closeLines]
      | cons u rest =>
          rcases List.mem_cons.mp h with rfl | h
          · exact Or.inr (by simp [closeLines])
          · exact (ih h).imp (List.mem_cons_of_mem _) (List.mem_cons_of_mem _)

/-- A newline behind a text does not change which markers it starts with. -/
theorem isPrefixOf_terminated {p : Bytes} (hp : newline ∉ p) (t : Bytes) :
    p.isPrefixOf (t ++ [newline]) = p.isPrefixOf t := by
  induction p generalizing t with
  | nil => rfl
  | cons a p ih =>
      obtain ⟨ha, hr⟩ : newline ≠ a ∧ newline ∉ p := by simpa using hp
      cases t with
      | nil => simp [List.isPrefixOf, Ne.symm ha]
      | cons b t => simp [List.isPrefixOf, ih hr]

@[simp] theorem isComment_terminated (t : Bytes) : isComment (t ++ [newline]) = isComment t :=
  isPrefixOf_terminated (by decide) t

@[simp] theorem isTimeLine_terminated (t : Bytes) : isTimeLine (t ++ [newline]) = isTimeLine t :=
  isPrefixOf_terminated (by decide) t

@[simp] theorem isHeader_terminated (t : Bytes) : isHeader (t ++ [newline]) = isHeader t := by
  rw [isHeader, isHeader, isTimeLine_terminated, isPrefixOf_terminated (by decide)]

/-- A record of the slow log by the texts of its lines: an optional valid time
line, the metadata from the user line on, and the statement. -/
structure SlowRecord (mktime : Tm → Int) where
  timeLine : Option Bytes
  userHost : Bytes
  metadata : List Bytes
  statement : List Bytes
  timeLine_valid : ∀ t ∈ timeLine, (bytes "# Time: ").isPrefixOf t = true ∧
    (parseTime mktime (t ++ [newline]) epoch).1 = true
  userHost_marker : (bytes "# User@Host").isPrefixOf userHost = true
  metadata_comment : ∀ m ∈ metadata, isComment m = true ∧ isHeader m = false
  statement_no_header : ∀ s ∈ statement, isHeader s = false
  statement_sql : ∃ s ∈ statement, isComment s = false
  no_newline : ∀ t ∈ timeLine.toList ++ userHost :: (metadata ++ statement), newline ∉ t

namespace SlowRecord

variable {mktime : Tm → Int}

/-- The texts of the metadata and statement lines. -/
def body (r : SlowRecord mktime) : List Bytes := r.userHost :: (r.metadata ++ r.statement)

/-- All texts of the record. -/
def texts (r : SlowRecord mktime) : List Bytes := r.timeLine.toList ++ r.body

/-- The record on lines. -/
def group (r : SlowRecord mktime) (missing : Bool) : Group where
  time := r.timeLine.map (· ++ [newline])
  head := r.userHost ++ [newline]
  rest := closeLines missing (r.metadata ++ r.statement)

theorem rest_ne_nil (r : SlowRecord mktime) : r.metadata ++ r.statement ≠ [] := by
  obtain ⟨s, hs, -⟩ := r.statement_sql
  exact List.append_ne_nil_of_right_ne_nil _ (List.ne_nil_of_mem hs)

theorem group_body (r : SlowRecord mktime) (missing : Bool) :
    (r.group missing).body = closeLines missing r.body := by
  rw [body, ← List.singleton_append, closeLines_append _ r.rest_ne_nil]
  rfl

theorem isTimeLine_of_marker {t : Bytes} (h : (bytes "# Time: ").isPrefixOf t = true) :
    isTimeLine t = true := by
  obtain ⟨u, rfl⟩ := List.isPrefixOf_iff_prefix.mp h
  rfl

theorem group_ok (r : SlowRecord mktime) (missing : Bool) : (r.group missing).Ok where
  time_line := by
    intro l hl
    obtain ⟨t, ht, rfl⟩ := Option.map_eq_some_iff.mp hl
    rw [isTimeLine_terminated]
    exact isTimeLine_of_marker (r.timeLine_valid t ht).1
  user_line := (isPrefixOf_terminated (by decide) _).trans r.userHost_marker
  no_header := by
    intro l hl
    obtain ⟨t, ht, hlt⟩ := mem_closeLines hl
    have hh : isHeader t = false := by
      rcases List.mem_append.mp ht with hm | hs
      · exact (r.metadata_comment t hm).2
      · exact r.statement_no_header t hs
    rcases hlt with rfl | rfl
    · exact hh
    · rw [isHeader_terminated, hh]
  statement := by
    obtain ⟨s, hs, hsql⟩ := r.statement_sql
    rcases closeLines_of_mem missing (List.mem_append_right r.metadata hs) with h | h
    · exact ⟨s, h, hsql⟩
    · exact ⟨_, h, by rw [isComment_terminated, hsql]⟩

end SlowRecord

variable {mktime : Tm → Int}

/-- The texts of records with banner texts in front of each. -/
def sectionTexts (sections : List (List Bytes × SlowRecord mktime)) : List Bytes :=
  sections.flatMap fun s => s.1 ++ s.2.texts

/-- The same sections on lines. -/
def sectionsOf (missing : Bool) : List (List Bytes × SlowRecord mktime) → List Section
  | [] => []
  | s :: rest =>
      (s.1.map (· ++ [newline]), s.2.group (missing && rest.isEmpty)) :: sectionsOf missing rest

theorem sectionTexts_ne_nil {s : List Bytes × SlowRecord mktime}
    {rest : List (List Bytes × SlowRecord mktime)} : sectionTexts (s :: rest) ≠ [] := by
  simp [sectionTexts, SlowRecord.texts, SlowRecord.body]

theorem logLines_sectionsOf (missing : Bool)
    (sections : List (List Bytes × SlowRecord mktime)) :
    logLines (sectionsOf missing sections) = closeLines missing (sectionTexts sections) := by
  induction sections with
  | nil => rfl
  | cons s rest ih =>
      have hcons : logLines (sectionsOf missing (s :: rest)) =
          s.1.map (· ++ [newline]) ++ (s.2.timeLine.map (· ++ [newline])).toList ++
            (s.2.group (missing && rest.isEmpty)).body ++ logLines (sectionsOf missing rest) := by
        simp [logLines, sectionsOf, Group.lines, SlowRecord.group]
      have htexts : sectionTexts (s :: rest) =
          s.1 ++ s.2.timeLine.toList ++ s.2.body ++ sectionTexts rest := by
        simp [sectionTexts, SlowRecord.texts]
      have htime : (s.2.timeLine.map (· ++ [newline])).toList =
          s.2.timeLine.toList.map (· ++ [newline]) := by
        cases s.2.timeLine <;> rfl
      rw [hcons, htexts, ih, SlowRecord.group_body, htime]
      cases rest with
      | nil =>
          have hb : s.2.body ≠ [] := by simp [SlowRecord.body]
          rw [sectionTexts, List.flatMap_nil, List.append_nil, closeLines_append _ hb]
          simp [closeLines]
      | cons t rest =>
          rw [closeLines_append _ sectionTexts_ne_nil]
          simp [closeLines_false]

theorem sectionsOf_ok (missing : Bool) {sections : List (List Bytes × SlowRecord mktime)}
    (h : ∀ s ∈ sections, ∀ t ∈ s.1, isComment t = false) :
    SectionsOk (sectionsOf missing sections) := by
  induction sections with
  | nil => simp [sectionsOf, SectionsOk]
  | cons s rest ih =>
      intro g hg
      rcases List.mem_cons.mp hg with rfl | hg
      · refine ⟨?_, s.2.group_ok _⟩
        intro l hl
        obtain ⟨t, ht, rfl⟩ := List.mem_map.mp hl
        rw [isComment_terminated]
        exact h s (by simp) t ht
      · exact ih (fun t ht => h t (by simp [ht])) g hg

/-- The blocks of a written log. -/
theorem logBlocks_write (missing : Bool) {sections : List (List Bytes × SlowRecord mktime)}
    (hbanner : ∀ s ∈ sections, ∀ t ∈ s.1, newline ∉ t ∧ isComment t = false)
    (hlast : missing = true → ∃ t ∈ (sectionTexts sections).getLast?, t ≠ []) :
    logBlocks mktime (StringRef.ofBytes (cutEnd missing (writeLines (sectionTexts sections)))) =
      sectionBlocks mktime [] 0 epoch (sectionsOf missing sections) := by
  have htexts : ∀ t ∈ sectionTexts sections, newline ∉ t := by
    intro t ht
    obtain ⟨s, hs, hts⟩ := List.mem_flatMap.mp ht
    rcases List.mem_append.mp hts with hb | hr
    · exact (hbanner s hs t hb).1
    · exact s.2.no_newline t hr
  have hok : SectionsOk (sectionsOf missing sections) :=
    sectionsOf_ok missing fun s hs t ht => (hbanner s hs t ht).2
  rw [logBlocks, StringRef.ofBytes, lines_cutEnd htexts hlast, ← logLines_sectionsOf,
    blocks_logLines mktime _ _ _ hok]

end QueryPlayback
