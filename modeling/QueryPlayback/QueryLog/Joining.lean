import QueryPlayback.Lib.SqlText
import QueryPlayback.QueryLog.Data

/-!
# Joining the lines of a statement

`getQuery` trims the statement lines and joins them with single spaces. A line
break separates tokens as a space does, with two exceptions: in a quoted
literal it is one of its bytes, and behind a `-- ` or `#` comment it is where
the comment ends.
-/

namespace QueryPlayback

open Lines SqlText

/-- A text behind the one before it, with a space in between. -/
def spaced (text : Bytes) : Bytes := if text = [] then [] else 32 :: text

/-- The trimmed lines that are not blank, joined with single spaces. -/
def joinLines : List Bytes → Bytes
  | [] => []
  | l :: ls => if trim l = [] then joinLines ls else trim l ++ spaced (joinLines ls)

/-- A line without the blanks `trim` removes at its end. -/
def withoutTrailing (l : Bytes) : Bytes := (l.reverse.dropWhile (· ∈ blanks)).reverse

/-- The blanks `trim` removes at the end of a line, its line break among them. -/
def trailing (l : Bytes) : Bytes := (l.reverse.takeWhile (· ∈ blanks)).reverse

/-- Every line break may be replaced by a space: no blank at the end of a line belongs to
a quoted literal, and below a line that ends in a comment to its end there is no token. -/
def JoinsFrom : Mode → List Bytes → Prop
  | _, [] => True
  | m, l :: ls =>
      let last := after m (withoutTrailing l)
      if last.inLiteral then withoutTrailing l = l
      else if last.inLineComment then tokens ls.flatten = []
      else JoinsFrom (after m l) ls

instance decidableJoinsFrom : (m : Mode) → (ls : List Bytes) → Decidable (JoinsFrom m ls)
  | _, [] => .isTrue trivial
  | m, l :: ls =>
      have := decidableJoinsFrom (after m l) ls
      inferInstanceAs (Decidable (
        if (after m (withoutTrailing l)).inLiteral then withoutTrailing l = l
        else if (after m (withoutTrailing l)).inLineComment then tokens ls.flatten = []
        else JoinsFrom (after m l) ls))

/-- The only line break is at the end, and it is missing only when no line is below. -/
def EndsLine (l : Bytes) (below : List Bytes) : Prop :=
  (∃ text, l = text ++ [newline] ∧ newline ∉ text) ∨ newline ∉ l ∧ below = []

namespace QueryLogData

/-- The statement lines of an entry, from the first line on that is no metadata. -/
def statementLines (d : QueryLogData) : List Bytes :=
  (lines newline d.data.chars).dropWhile fun l => [hash].isPrefixOf l

/-- The statement as it stands in the log. -/
def statement (d : QueryLogData) : Bytes := d.statementLines.flatten

end QueryLogData

/-! ### Lines and their blanks -/

theorem isSpace_of_mem_blanks {c : Byte} (h : c ∈ blanks) : isSpace c = true := by
  simp only [blanks, List.mem_cons, List.not_mem_nil, or_false] at h
  rcases h with rfl | rfl | rfl | rfl <;> decide

theorem withoutTrailing_append_trailing (l : Bytes) : withoutTrailing l ++ trailing l = l := by
  rw [withoutTrailing, trailing, ← List.reverse_append, List.takeWhile_append_dropWhile,
    List.reverse_reverse]

theorem withoutTrailing_subset (l : Bytes) : withoutTrailing l ⊆ l :=
  calc withoutTrailing l ⊆ withoutTrailing l ++ trailing l := List.subset_append_left _ _
    _ = l := withoutTrailing_append_trailing l

theorem trailing_subset (l : Bytes) : trailing l ⊆ l :=
  calc trailing l ⊆ withoutTrailing l ++ trailing l := List.subset_append_right _ _
    _ = l := withoutTrailing_append_trailing l

theorem withoutTrailing_eq_self_iff (l : Bytes) : withoutTrailing l = l ↔ trailing l = [] := by
  conv => lhs; rhs; rw [← withoutTrailing_append_trailing l]
  exact List.self_eq_append_right

theorem isSpace_trailing (l : Bytes) : ∀ c ∈ trailing l, isSpace c = true := by
  intro c hc
  rw [trailing, List.mem_reverse] at hc
  exact isSpace_of_mem_blanks (by simpa using List.mem_takeWhile_imp hc)

theorem isSpace_leading (l : Bytes) : ∀ c ∈ l.takeWhile (· ∈ blanks), isSpace c = true := by
  intro c hc
  exact isSpace_of_mem_blanks (by simpa using List.mem_takeWhile_imp hc)

/-- A line that is not blank begins with its leading blanks and its trimmed text. -/
theorem withoutTrailing_eq {l : Bytes} (h : trim l ≠ []) :
    withoutTrailing l = l.takeWhile (· ∈ blanks) ++ trim l := by
  have htext : (l.dropWhile (· ∈ blanks)).reverse.dropWhile (· ∈ blanks) ≠ [] := by
    intro hnil
    exact h (by rw [trim, hnil, List.reverse_nil])
  have hsplit : l.reverse =
      (l.dropWhile (· ∈ blanks)).reverse ++ (l.takeWhile (· ∈ blanks)).reverse := by
    rw [← List.reverse_append, List.takeWhile_append_dropWhile]
  have hempty : ((l.dropWhile (· ∈ blanks)).reverse.dropWhile (· ∈ blanks)).isEmpty = false := by
    simpa using htext
  rw [withoutTrailing, hsplit, List.dropWhile_append, hempty]
  simp only [Bool.false_eq_true, if_false, List.reverse_append, List.reverse_reverse, trim]

/-- A blank line has nothing but blanks. -/
theorem mem_blanks_of_blank {l : Bytes} (h : trim l = []) : ∀ c ∈ l, c ∈ blanks := by
  intro c hc
  by_contra hblank
  exact trim_ne_nil ⟨c, hc, hblank⟩ h

theorem withoutTrailing_of_blank {l : Bytes} (h : trim l = []) : withoutTrailing l = [] := by
  rw [withoutTrailing, List.reverse_eq_nil_iff, List.dropWhile_eq_nil_iff]
  intro c hc
  simpa using mem_blanks_of_blank h c (List.mem_reverse.mp hc)

theorem withoutTrailing_newline (text : Bytes) :
    withoutTrailing (text ++ [newline]) = withoutTrailing text := by
  have hblank : newline ∈ blanks := by decide
  simp [withoutTrailing, hblank]

theorem trailing_newline (text : Bytes) :
    trailing (text ++ [newline]) = trailing text ++ [newline] := by
  have hblank : newline ∈ blanks := by decide
  simp [trailing, hblank]

theorem trim_subset (l : Bytes) : trim l ⊆ withoutTrailing l := by
  by_cases h : trim l = []
  · rw [h]
    exact List.nil_subset _
  · rw [withoutTrailing_eq h]
    exact List.subset_append_right _ _

theorem lines_of_cons {l : Bytes} {ls : List Bytes}
    (h : lines newline (l :: ls).flatten = l :: ls) : lines newline ls.flatten = ls :=
  @lines_suffix _ _ newline _ [l] ls h

theorem endsLine_of_lines {l : Bytes} {ls : List Bytes}
    (h : lines newline (l :: ls).flatten = l :: ls) : EndsLine l ls := by
  have hne : (l :: ls).flatten ≠ [] := by
    intro hnil
    rw [hnil] at h
    cases h
  rw [lines_eq_cons newline hne, List.cons.injEq] at h
  obtain ⟨hl, hls⟩ := h
  by_cases hmem : newline ∈ (l :: ls).flatten
  · obtain ⟨text, rest, hsplit, htext⟩ := List.eq_append_cons_of_mem hmem
    rw [hsplit, takeLine_terminated newline htext] at hl
    exact Or.inl ⟨text, hl.symm, htext⟩
  · rw [takeLine_of_not_mem newline hmem] at hl
    rw [dropLine_of_not_mem newline hmem] at hls
    exact Or.inr ⟨hl ▸ hmem, hls.symm⟩

theorem EndsLine.newline_not_mem {l : Bytes} {ls : List Bytes} (h : EndsLine l ls) :
    newline ∉ withoutTrailing l := by
  rcases h with ⟨text, rfl, htext⟩ | ⟨hl, -⟩
  · rw [withoutTrailing_newline]
    exact fun hmem => htext (withoutTrailing_subset text hmem)
  · exact fun hmem => hl (withoutTrailing_subset l hmem)

/-- The blanks at the end of a line end as it does. -/
theorem EndsLine.trailing {l : Bytes} {ls : List Bytes} (h : EndsLine l ls) :
    EndsLine (trailing l) ls := by
  rcases h with ⟨text, rfl, htext⟩ | ⟨hl, hls⟩
  · have hnot : newline ∉ QueryPlayback.trailing text :=
      fun hmem => htext (trailing_subset text hmem)
    exact Or.inl ⟨QueryPlayback.trailing text, trailing_newline text, hnot⟩
  · exact Or.inr ⟨fun hmem => hl (trailing_subset l hmem), hls⟩

/-- Nothing is below a line that does not even have a line break. -/
theorem EndsLine.below_nil {l : Bytes} {ls : List Bytes} (h : EndsLine l ls) (hl : l = []) :
    ls = [] := by
  rcases h with ⟨text, rfl, -⟩ | ⟨-, hls⟩
  · simp at hl
  · exact hls

/-! ### What `getQuery` joins -/

@[simp] theorem spaced_nil : spaced [] = [] := rfl

/-- A line that is left out with the timestamps. -/
def isTimestamp (l : Bytes) : Bool := (bytes "SET timestamp=").isPrefixOf l

/-- The lines that are left when the timestamps are removed or not. -/
def keptLines (removeTimestamp : Bool) (ls : List Bytes) : List Bytes :=
  ls.filter fun l => !(removeTimestamp && isTimestamp l)

@[simp] theorem keptLines_false (ls : List Bytes) : keptLines false ls = ls :=
  List.filter_eq_self.mpr fun _ _ => rfl

theorem foldl_getQueryStep_eq (removeTimestamp : Bool) (ls : List Bytes) (text : Bytes) :
    (ls.foldl (QueryLogData.getQueryStep removeTimestamp) (text, true)).1 =
      if text = [] then joinLines (keptLines removeTimestamp ls)
      else text ++ spaced (joinLines (keptLines removeTimestamp ls)) := by
  induction ls generalizing text with
  | nil => simp [joinLines, keptLines]
  | cons l ls ih =>
      rw [List.foldl_cons, keptLines, List.filter_cons]
      cases hout : removeTimestamp && isTimestamp l with
      | true =>
          have hstep : QueryLogData.getQueryStep removeTimestamp (text, true) l = (text, true) := by
            rw [isTimestamp] at hout
            simp only [QueryLogData.getQueryStep, hout, Bool.not_true, Bool.false_and,
              Bool.false_eq_true, if_false, if_true]
          rw [hstep, ih]
          rfl
      | false =>
          rw [isTimestamp] at hout
          rw [Bool.not_false, if_pos rfl, joinLines]
          by_cases hblank : trim l = []
          · have hstep : QueryLogData.getQueryStep removeTimestamp (text, true) l =
                (text, true) := by
              simp [QueryLogData.getQueryStep, hout, hblank]
            rw [hstep, ih, if_pos hblank]
            rfl
          · have hstep : QueryLogData.getQueryStep removeTimestamp (text, true) l =
                ((if text = [] then [] else text ++ [32]) ++ trim l, true) := by
              simp [QueryLogData.getQueryStep, hout, hblank]
            rw [hstep, ih, if_neg hblank]
            by_cases htext : text = []
            · simp [htext, hblank, keptLines]
            · simp [htext, hblank, spaced, keptLines]

/-- The lines behind the metadata are joined, except for the timestamps. -/
theorem foldl_getQueryStep (removeTimestamp : Bool) (ls : List Bytes) :
    (ls.foldl (QueryLogData.getQueryStep removeTimestamp) ([], false)).1 =
      joinLines (keptLines removeTimestamp (ls.dropWhile fun l => [hash].isPrefixOf l)) := by
  induction ls with
  | nil => rfl
  | cons l ls ih =>
      rw [List.foldl_cons, List.dropWhile_cons]
      cases hmeta : [hash].isPrefixOf l with
      | true =>
          have hstep : QueryLogData.getQueryStep removeTimestamp ([], false) l = ([], false) := by
            simp [QueryLogData.getQueryStep, hmeta]
          rw [hstep, ih, if_pos rfl]
      | false =>
          have hstep : QueryLogData.getQueryStep removeTimestamp ([], false) l =
              QueryLogData.getQueryStep removeTimestamp ([], true) l := by
            simp [QueryLogData.getQueryStep, hmeta]
          rw [hstep, ← List.foldl_cons, foldl_getQueryStep_eq, if_pos rfl]
          simp

/-- `getQuery` joins the statement lines, without the timestamps if it is to remove them. -/
theorem QueryLogData.getQuery_eq_joinLines_keptLines (d : QueryLogData) (removeTimestamp : Bool) :
    d.getQuery removeTimestamp = joinLines (keptLines removeTimestamp d.statementLines) := by
  rw [getQuery_eq_foldl, foldl_getQueryStep, statementLines]

/-- `getQuery` with the timestamp left in joins the statement lines. -/
theorem QueryLogData.getQuery_eq_joinLines (d : QueryLogData) :
    d.getQuery false = joinLines d.statementLines := by
  rw [getQuery_eq_joinLines_keptLines, keptLines_false]

/-! ### Breaks -/

/-- The joined text is one line. -/
theorem newline_not_mem_joinLines {ls : List Bytes} (h : lines newline ls.flatten = ls) :
    newline ∉ joinLines ls := by
  induction ls with
  | nil => simp [joinLines]
  | cons l ls ih =>
      have hrest := ih (lines_of_cons h)
      have hl : newline ∉ trim l :=
        fun hmem => (endsLine_of_lines h).newline_not_mem (trim_subset l hmem)
      have hspace : newline ≠ 32 := by decide
      rw [joinLines]
      split
      · exact hrest
      · unfold spaced
        split <;> simp [hl, hrest, hspace]

/-- Outside of literals and comments a break does what the space in its place does. -/
theorem tokens_break_open {m : Mode} (h : m.Open) {ls : List Bytes} {blank : Bytes}
    (hblank : ∀ c ∈ blank, isSpace c = true) (hlast : blank = [] → ls = []) :
    tokensFrom m (spaced (joinLines ls)) = tokensFrom m (blank ++ ls.flatten) ↔
      tokensFrom m.rest (joinLines ls) = tokensFrom m.rest ls.flatten := by
  have hjoin : tokensFrom m (spaced (joinLines ls)) =
      m.finish ++ tokensFrom m.rest (joinLines ls) := by
    by_cases hnil : joinLines ls = []
    · simp [spaced, hnil]
    · have hblank : ∀ c ∈ [(32 : Byte)], isSpace c = true :=
        List.forall_mem_singleton.mpr (by decide)
      have hspace := tokensFrom_spaces h (List.cons_ne_nil 32 []) hblank (joinLines ls)
      rw [spaced, if_neg hnil, ← hspace, List.singleton_append]
  by_cases hne : blank = []
  · simp [hne, hlast hne, joinLines]
  · rw [hjoin, tokensFrom_spaces h hne hblank, List.append_cancel_left_eq]

/-- A comment to the end of the line swallows all that is joined to it. -/
theorem tokens_break_lineComment {m : Mode} (h : m.inLineComment = true) {ls : List Bytes}
    {blank : Bytes} (hblank : ∀ c ∈ blank, isSpace c = true) (hends : EndsLine blank ls)
    (hjoin : newline ∉ joinLines ls) :
    tokensFrom m (spaced (joinLines ls)) = tokensFrom m (blank ++ ls.flatten) ↔
      tokens ls.flatten = [] := by
  have hspace : newline ≠ 32 := by decide
  have hleft : tokensFrom m (spaced (joinLines ls)) = m.finish := by
    unfold spaced
    split
    · rfl
    · exact tokensFrom_inLineComment h (by decide) (List.not_mem_cons_of_ne_of_not_mem hspace hjoin)
  rcases hends with ⟨text, rfl, htext⟩ | ⟨hline, rfl⟩
  · have hspaces : ∀ c ∈ text, isSpace c = true := fun c hc => hblank c (by simp [hc])
    have hright := tokensFrom_inLineComment_lineEnd h hspaces htext ls.flatten
    rw [hleft, List.append_assoc, List.singleton_append]
    exact (hright ▸ List.self_eq_append_right)
  · have hright : tokensFrom m blank = m.finish := by
      cases blank with
      | nil => rfl
      | cons c blank => exact tokensFrom_inLineComment h (hblank c (by simp)) hline
    rw [hleft, List.flatten_nil, List.append_nil, hright]
    exact iff_of_true rfl rfl

/-- A break in a literal is never replaced by what it is. -/
theorem tokens_break_inLiteral {m : Mode} (h : m.inLiteral = true) {ls : List Bytes}
    {blank : Bytes} (hblank : ∀ c ∈ blank, isSpace c = true) (hends : EndsLine blank ls)
    (hpending : newline ∉ m.pending) (hjoin : newline ∉ joinLines ls) :
    tokensFrom m (spaced (joinLines ls)) = tokensFrom m (blank ++ ls.flatten) ↔ blank = [] := by
  rcases hends with ⟨text, rfl, -⟩ | ⟨-, rfl⟩
  · have hne : text ++ [newline] ≠ [] := by simp
    refine iff_of_false ?_ hne
    intro heq
    obtain ⟨t, ht, hbytes⟩ := tokensFrom_inLiteral_lineEnd h hblank (by simp [lineEnd, newline])
      ls.flatten
    rw [← heq] at ht
    have hread := tokensFrom_bytes m _ t ht hbytes
    rcases List.mem_append.mp hread with hmem | hmem
    · exact hpending hmem
    · have hspace : newline ≠ 32 := by decide
      unfold spaced at hmem
      split at hmem
      · cases hmem
      · rcases List.mem_cons.mp hmem with hmem | hmem
        · exact hspace hmem
        · exact hjoin hmem
  · rw [List.flatten_nil, List.append_nil]
    constructor
    · intro heq
      by_contra hne
      exact tokensFrom_inLiteral_ne h hblank hne heq.symm
    · rintro rfl
      rfl

/-- What a break keeps depends on where it is. -/
theorem tokens_break_iff {m : Mode} {ls : List Bytes} {blank : Bytes}
    (hblank : ∀ c ∈ blank, isSpace c = true) (hends : EndsLine blank ls)
    (hpending : newline ∉ m.pending) (hjoin : newline ∉ joinLines ls) :
    tokensFrom m (spaced (joinLines ls)) = tokensFrom m (blank ++ ls.flatten) ↔
      if m.inLiteral then blank = []
      else if m.inLineComment then tokens ls.flatten = []
      else tokensFrom m.rest (joinLines ls) = tokensFrom m.rest ls.flatten := by
  split
  · next hliteral => exact tokens_break_inLiteral hliteral hblank hends hpending hjoin
  · next hliteral =>
      split
      · next hcomment => exact tokens_break_lineComment hcomment hblank hends hjoin
      · next hcomment =>
          have hopen : m.Open := ⟨by simpa using hliteral, by simpa using hcomment⟩
          exact tokens_break_open hopen hblank hends.below_nil

/-- A line that is not blank is read up to the end of its trimmed text. -/
theorem after_withoutTrailing {l : Bytes} (h : trim l ≠ []) (m : Mode) :
    after m.rest (withoutTrailing l) = after m.rest (trim l) := by
  rw [withoutTrailing_eq h, after_append, after_rest_spaces m (isSpace_leading l)]

theorem after_line {l : Bytes} (h : trim l ≠ []) (m : Mode) :
    after m.rest l = after (after m.rest (trim l)) (trailing l) :=
  calc after m.rest l = after m.rest (withoutTrailing l ++ trailing l) := by
        rw [withoutTrailing_append_trailing]
    _ = after (after m.rest (withoutTrailing l)) (trailing l) := after_append ..
    _ = after (after m.rest (trim l)) (trailing l) := by rw [after_withoutTrailing h]

theorem tokensFrom_line {l : Bytes} (h : trim l ≠ []) (m : Mode) (below : Bytes) :
    tokensFrom m.rest (l ++ below) = completed m.rest (trim l) ++
      tokensFrom (after m.rest (trim l)) (trailing l ++ below) :=
  calc tokensFrom m.rest (l ++ below)
      = tokensFrom m.rest (withoutTrailing l ++ (trailing l ++ below)) := by
        rw [← List.append_assoc, withoutTrailing_append_trailing]
    _ = tokensFrom m.rest (trim l ++ (trailing l ++ below)) := by
        rw [withoutTrailing_eq h, List.append_assoc,
          tokensFrom_rest_spaces m (isSpace_leading l)]
    _ = completed m.rest (trim l) ++
          tokensFrom (after m.rest (trim l)) (trailing l ++ below) := tokensFrom_append ..

/-- The joined lines have the tokens of the lines exactly if every break may be replaced. -/
theorem tokens_joinLines_iff {ls : List Bytes} (hlines : lines newline ls.flatten = ls) (m : Mode) :
    tokensFrom m.rest (joinLines ls) = tokensFrom m.rest ls.flatten ↔ JoinsFrom m.rest ls := by
  induction ls generalizing m with
  | nil => simp [joinLines, JoinsFrom]
  | cons l ls ih =>
      have hrest := lines_of_cons hlines
      have hends := endsLine_of_lines hlines
      rw [List.flatten_cons, joinLines, JoinsFrom]
      by_cases hblank : trim l = []
      · -- a blank line changes nothing on either side
        have hspaces : ∀ c ∈ l, isSpace c = true :=
          fun c hc => isSpace_of_mem_blanks (mem_blanks_of_blank hblank c hc)
        obtain ⟨hliteral, hcomment⟩ := open_rest m
        rw [if_pos hblank, tokensFrom_rest_spaces m hspaces, withoutTrailing_of_blank hblank,
          after_nil, after_rest_spaces m hspaces, ih hrest m]
        simp [hliteral, hcomment]
      · have hpending : newline ∉ (after m.rest (trim l)).pending := by
          intro hmem
          have hread := pending_after_subset m.rest (trim l) hmem
          rw [pending_rest, List.nil_append] at hread
          exact hends.newline_not_mem (trim_subset l hread)
        have hjoin := newline_not_mem_joinLines hrest
        rw [if_neg hblank, tokensFrom_append, tokensFrom_line hblank m, List.append_cancel_left_eq,
          tokens_break_iff (isSpace_trailing l) hends.trailing hpending hjoin,
          after_withoutTrailing hblank m, after_line hblank m, withoutTrailing_eq_self_iff]
        generalize after m.rest (trim l) = last
        split
        · rfl
        · next hliteral =>
            split
            · rfl
            · next hcomment =>
                -- only the last line can end without a blank behind its text
                by_cases hend : trailing l = []
                · simp [hend, hends.trailing.below_nil hend, joinLines, JoinsFrom]
                · have hopen : last.Open := ⟨by simpa using hliteral, by simpa using hcomment⟩
                  rw [after_spaces hopen hend (isSpace_trailing l)]
                  exact ih hrest last

/-- `getQuery` keeps the tokens of the statement exactly if every line break of the statement
may be replaced by a space. -/
theorem getQuery_keepsTokens_iff (d : QueryLogData) :
    tokens (d.getQuery false) = tokens d.statement ↔ JoinsFrom (.plain []) d.statementLines := by
  have hsplit : lines newline d.data.chars =
      (lines newline d.data.chars).takeWhile (fun l => [hash].isPrefixOf l) ++
        d.statementLines := by
    rw [QueryLogData.statementLines, List.takeWhile_append_dropWhile]
  rw [d.getQuery_eq_joinLines]
  exact tokens_joinLines_iff (lines_suffix newline hsplit) (.plain [])

example : JoinsFrom (.plain [])
    [bytes "select * from article78\n", bytes "order by id desc limit 11;"] := by decide +kernel

/-- Metadata lines are comments. -/
theorem tokens_dropWhile_hash {ls : List Bytes} (h : lines newline ls.flatten = ls) :
    tokens (ls.dropWhile fun l => [hash].isPrefixOf l).flatten = tokens ls.flatten := by
  induction ls with
  | nil => rfl
  | cons l ls ih =>
      have hrest := ih (lines_of_cons h)
      rw [List.dropWhile_cons]
      split
      · next hmeta =>
          obtain ⟨comment, rfl⟩ := List.isPrefixOf_iff_prefix.mp hmeta
          have hstep (text : Bytes) :
              tokens ([hash] ++ text) = tokensFrom .lineComment text := rfl
          rw [hrest, List.flatten_cons, List.append_assoc, hstep]
          rcases endsLine_of_lines h with ⟨text, htext, hnot⟩ | ⟨hnot, rfl⟩
          · cases text with
            | nil => simp [hash, newline] at htext
            | cons c text =>
                obtain ⟨-, rfl⟩ : hash = c ∧ comment = text ++ [newline] := by simpa using htext
                have hline : lineEnd ∉ text := fun hmem => hnot (List.mem_cons_of_mem c hmem)
                have hbelow := tokensFrom_lineComment_lineEnd hline ls.flatten
                rw [List.append_assoc]
                exact hbelow.symm
          · have hline : lineEnd ∉ comment := fun hmem => hnot (List.mem_append_right _ hmem)
            rw [List.flatten_nil, List.append_nil, tokensFrom_lineComment hline]
            rfl
      · rfl

/-- The statement has all the tokens of its entry. -/
theorem tokens_statement (d : QueryLogData) : tokens d.statement = tokens d.data.chars := by
  have hlines : lines newline (lines newline d.data.chars).flatten =
      lines newline d.data.chars := by
    rw [flatten_lines]
  have htokens := tokens_dropWhile_hash hlines
  rwa [flatten_lines] at htokens

/-- The entry of a record. -/
def QueryLogData.ofRecord (record : String) : QueryLogData :=
  new (StringRef.ofBytes (bytes record)) epoch

/-- A record whose literal goes over two lines. -/
def brokenLiteral : QueryLogData := .ofRecord "# User@Host: a[a] @ h []\nSELECT 'a\nb';\n"

/-- A record with a comment at the end of a line. -/
def lineWithComment : QueryLogData :=
  .ofRecord "# User@Host: a[a] @ h []\nSELECT 1 -- one\n+ 2;\n"

/-- The line break in the literal becomes a space, and what stands below the comment becomes a
part of it. -/
theorem line_breaks_lost :
    (tokens (brokenLiteral.getQuery false) =
        [.word (bytes "SELECT"), .literal (bytes "'a b'"), .word (bytes ";")] ∧
      tokens brokenLiteral.statement =
        [.word (bytes "SELECT"), .literal (bytes "'a\nb'"), .word (bytes ";")]) ∧
    tokens (lineWithComment.getQuery false) = [.word (bytes "SELECT"), .word (bytes "1")] ∧
      tokens lineWithComment.statement =
        [.word (bytes "SELECT"), .word (bytes "1"), .word (bytes "+"), .word (bytes "2;")] := by
  decide +kernel

end QueryPlayback
