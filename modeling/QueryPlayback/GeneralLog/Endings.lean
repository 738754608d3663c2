import QueryPlayback.GeneralLog.Records

/-!
# How the line of a query ends

Whatever the line ends with, its last character is dropped, and a carriage
return in front of it. What is dropped is a part of the statement when the file
ends without a line feed.

## Implementation notes

The text in front of the columns is arbitrary. A zero byte there hides the line
from the reader, who may still find the same argument in front of it. The same
bytes may be read as a line that ends with a line feed behind a statement that
ends with a carriage return; the condition is stated for both readings.
-/

namespace QueryPlayback

open Lines GeneralLogEntry Pattern

/-- What a line of the log ends with; the last one may end with the file. -/
inductive LineEnding
  | lf
  | crlf
  | eof
  deriving DecidableEq, Repr

def LineEnding.bytes : LineEnding → Bytes
  | lf => [newline]
  | crlf => [13, newline]
  | eof => []

/-- The line of a `Query` record. -/
structure QueryLine where
  front : Bytes
  gap : Bytes
  id : Bytes
  idGap : Bytes
  commandGap : Bytes
  argument : Bytes
  ending : LineEnding
  threadId : UInt64
  gap_isGap : IsGap gap
  id_isDigits : IsDigits id
  id_value : Scan.number 10 id = threadId.toNat
  idGap_isGap : IsGap idGap
  commandGap_isGap : IsGap commandGap
  argument_ne : argument ≠ []
  no_newline : newline ∉ front ++ (gap ++ (idGap ++ (commandGap ++ argument)))

namespace QueryLine

variable (q : QueryLine)

/-- What stands behind the command. -/
def behindCommand : Bytes := q.commandGap ++ (q.argument ++ q.ending.bytes)

/-- What stands behind the gap in front of the thread id. -/
def columns : Bytes := q.id ++ (q.idGap ++ (bytes "Query" ++ q.behindCommand))

/-- The line with its ending. -/
def line : Bytes := q.front ++ (q.gap ++ q.columns)

/-- The entry made of the line. -/
def entry : GeneralLogEntry := ({} : GeneralLogEntry).addQueryLine (ParseGeneralLog.cString q.line)

/-- The entry has the thread id of the record and its argument with one space behind it. -/
def KeepsText : Prop := q.entry.threadId = q.threadId ∧ q.entry.query = q.argument ++ [32]

/-- Nothing of the argument is lost: it has no zero byte and does not begin with white space,
the text in front has no columns of its own, and a line feed ends the line. -/
structure Intact (q : QueryLine) : Prop where
  text : 0 ∉ q.argument
  front : ¬QueryColumns q.front
  head : ∀ c ∈ q.argument.head?, Scan.isSpace c = false
  ending : q.ending = .crlf ∨ q.ending = .lf ∧ q.argument.getLast? ≠ some 13

end QueryLine

/-- What is dropped behind an argument: a character and a carriage return in front of it. -/
def IsDropped (argument tail : Bytes) : Prop :=
  (∃ c, tail = [13, c]) ∨ argument.getLast? ≠ some 13 ∧ ∃ c, tail = [c]

/-- The text is the line of a record of the thread with the argument. -/
def HoldsLine (s : Bytes) (threadId : UInt64) (argument : Bytes) : Prop :=
  ∃ pre gap id gap' gap'' tail, s = pre ++ (gap ++ (id ++ (gap' ++ (bytes "Query" ++
      (gap'' ++ (argument ++ tail)))))) ∧
    ¬QueryColumns pre ∧ IsGap gap ∧ IsDigits id ∧ Scan.strtoull id = threadId ∧ IsGap gap' ∧
      IsGap gap'' ∧ (∀ c ∈ argument.head?, Scan.isSpace c = false) ∧ IsDropped argument tail

section Terminator

theorem withoutTerminator_eq_iff {argument ns : Bytes} (hne : argument ≠ []) :
    withoutTerminator ns = argument ↔ ∃ tail, ns = argument ++ tail ∧ IsDropped argument tail := by
  constructor
  · intro h
    have hns : ns ≠ [] := by
      rintro rfl
      exact hne h.symm
    obtain ⟨init, last, rfl⟩ := (List.eq_nil_or_concat' ns).resolve_left hns
    rw [withoutTerminator, List.dropLast_concat] at h
    split at h
    · rename_i hreturn
      obtain ⟨init', rfl⟩ := List.getLast?_eq_some_iff.mp hreturn.2
      rw [List.dropLast_concat] at h
      exact ⟨[13, last], by simp [h], Or.inl ⟨last, rfl⟩⟩
    · rename_i hreturn
      refine ⟨[last], by rw [h], Or.inr ⟨fun hlast => hreturn ⟨?_, h ▸ hlast⟩, last, rfl⟩⟩
      rw [h, List.length_append]
      exact Nat.add_le_add (List.length_pos_iff.mpr hne) (Nat.le_refl 1)
  · rintro ⟨tail, rfl, ⟨c, rfl⟩ | ⟨hlast, c, rfl⟩⟩
    · have hsplit : argument ++ [13, c] = argument ++ [13] ++ [c] := by simp
      rw [withoutTerminator, hsplit, List.dropLast_concat, if_pos (by simp), List.dropLast_concat]
    · rw [withoutTerminator, List.dropLast_concat, if_neg fun h => hlast h.2]

theorem isDropped_ending_iff {argument : Bytes} {ending : LineEnding} :
    IsDropped argument ending.bytes ↔
      ending = .crlf ∨ ending = .lf ∧ argument.getLast? ≠ some 13 := by
  cases ending <;> simp [IsDropped, LineEnding.bytes]

/-- Nothing but the terminator is dropped from a text that ends with it. -/
theorem withoutTerminator_ending_eq_iff {t : Bytes} (ht : t ≠ []) (ending : LineEnding) :
    withoutTerminator (t ++ ending.bytes) = t ↔
      ending = .crlf ∨ ending = .lf ∧ t.getLast? ≠ some 13 := by
  rw [withoutTerminator_eq_iff ht, ← isDropped_ending_iff]
  constructor
  · rintro ⟨tail, htail, hdropped⟩
    rwa [List.append_cancel_left htail]
  · intro hdropped
    exact ⟨ending.bytes, rfl, hdropped⟩

/-- The terminator at least is dropped. -/
theorem length_withoutTerminator_ending (t : Bytes) (ending : LineEnding) :
    (withoutTerminator (t ++ ending.bytes)).length ≤ t.length := by
  have hshort := (withoutTerminator_isPrefix (t ++ ending.bytes)).length_le
  rw [List.length_dropLast, List.length_append] at hshort
  cases ending with
  | lf => exact hshort
  | crlf =>
      have hsplit : t ++ LineEnding.crlf.bytes = t ++ [13] ++ [newline] := by
        simp [LineEnding.bytes]
      rw [withoutTerminator, hsplit, List.dropLast_concat, if_pos (by simp), List.dropLast_concat]
  | eof => exact hshort.trans (Nat.sub_le _ _)

theorem isSpace_ending (ending : LineEnding) : ∀ c ∈ ending.bytes, Scan.isSpace c = true := by
  cases ending with
  | lf => exact List.all_eq_true.mp (by decide)
  | crlf => exact List.all_eq_true.mp (by decide)
  | eof => exact List.all_eq_true.mp (by decide)

end Terminator

namespace QueryLine

variable {q : QueryLine}

/-- What is captured leaves the argument just when neither white space at its beginning nor its
last characters are lost. -/
theorem captured (q : QueryLine) :
    ∃ ns, matchItems textItems q.behindCommand = some [ns] ∧
      (withoutTerminator ns = q.argument ↔
        (∀ c ∈ q.argument.head?, Scan.isSpace c = false) ∧
          (q.ending = .crlf ∨ q.ending = .lf ∧ q.argument.getLast? ≠ some 13)) := by
  have hne : q.argument ++ q.ending.bytes ≠ [] := List.append_ne_nil_of_left_ne_nil q.argument_ne _
  obtain ⟨b, rest, hb⟩ := List.exists_cons_of_ne_nil q.argument_ne
  have hhead : (∀ c ∈ q.argument.head?, Scan.isSpace c = false) ↔ Scan.isSpace b = false := by
    simp [hb]
  rw [hhead]
  rcases matchItems_text_cases q.commandGap_isGap hne with
    ⟨c, t, hmatch, hc, hdrop⟩ | ⟨c, hmatch, hblank⟩
  · refine ⟨c :: t, hmatch, ?_⟩
    rw [List.dropWhile_append] at hdrop
    split at hdrop
    · have hnone := List.dropWhile_eq_nil_iff.mpr (isSpace_ending q.ending)
      rw [hdrop] at hnone
      cases hnone
    rw [← hdrop]
    cases hspace : Scan.isSpace b with
    | false =>
        rw [hb, List.dropWhile_cons_of_neg (by simp [hspace]), ← hb,
          withoutTerminator_ending_eq_iff q.argument_ne, and_iff_right rfl]
    | true =>
        refine iff_of_false (fun heq => ?_) fun h => Bool.noConfusion h.1
        have hshort := length_withoutTerminator_ending (q.argument.dropWhile Scan.isSpace) q.ending
        have hrest := (List.dropWhile_suffix Scan.isSpace (l := rest)).length_le
        rw [heq, hb, List.dropWhile_cons_of_pos hspace, List.length_cons] at hshort
        omega
  · -- nothing is left of a blank argument
    refine ⟨[c], hmatch, iff_of_false (fun heq => q.argument_ne heq.symm) fun h => ?_⟩
    have hspace := hblank b (by simp [hb])
    rw [h.1] at hspace
    cases hspace

/-- A line without a zero byte is read to its end. -/
theorem cString_line (hfront : 0 ∉ q.front) (hzero : 0 ∉ q.argument) :
    ParseGeneralLog.cString q.line = q.line := by
  have hending : 0 ∉ q.ending.bytes := fun hmem => by
    exact absurd (isSpace_ending q.ending 0 hmem) (by decide)
  have hword : 0 ∉ bytes "Query" := by decide
  apply ParseGeneralLog.cString_of_not_mem
  simp only [line, columns, behindCommand, List.mem_append, not_or]
  exact ⟨hfront, q.gap_isGap.not_mem rfl, q.id_isDigits.not_mem rfl, q.idGap_isGap.not_mem rfl,
    hword, q.commandGap_isGap.not_mem rfl, hzero, hending⟩

/-- The text of an entry is what some match captures. -/
theorem keepsText_iff_search : q.KeepsText ↔
    ∃ id ns, Pattern.search regex (ParseGeneralLog.cString q.line) = some [id, ns] ∧
      Scan.strtoull id = q.threadId ∧ withoutTerminator ns = q.argument := by
  rw [KeepsText, entry, addQueryLine]
  constructor
  · intro h
    split at h
    · rename_i id ns hsearch
      exact ⟨id, ns, hsearch, h.1, List.append_cancel_right h.2⟩
    · have hlength := congrArg List.length h.2
      simp at hlength
  · rintro ⟨id, ns, hsearch, hid, hns⟩
    rw [hsearch]
    simp only [hid, hns, List.nil_append, and_self]

/-- What is captured behind columns in front of the line's own ones reaches over these. -/
theorem columns_suffix_of_queryColumns (hfront : QueryColumns q.front) {id ns : Bytes}
    (h : Pattern.search regex q.line = some [id, ns]) : q.columns <:+ ns := by
  obtain ⟨u, gap, id', gap', v, hsplit, hgap, hid, hgap', hv⟩ := hfront
  have hline : q.line = u ++ (gap ++ (id' ++ (gap' ++ (bytes "Query" ++
      (v ++ (q.gap ++ q.columns)))))) := by
    rw [line, hsplit]
    simp only [List.append_assoc]
  obtain ⟨d, rest, hd⟩ := List.exists_cons_of_ne_nil q.id_isDigits.1
  have hcolumns : q.columns = d :: (rest ++ (q.idGap ++ (bytes "Query" ++ q.behindCommand))) := by
    rw [columns, hd, List.cons_append]
  have hdSpace : Scan.isSpace d = false :=
    Scan.isSpace_of_isDigit (q.id_isDigits.2 d (hd ▸ List.mem_cons_self))
  have htext : HasText (v ++ (q.gap ++ q.columns)) :=
    hasText_append hv ⟨q.gap, q.columns, rfl, q.gap_isGap, hcolumns ▸ List.cons_ne_nil d _⟩
  obtain ⟨ns', hns'⟩ := matchItems_text_of_hasText htext
  have hmatch' := matchItems_regex hgap hid hgap' hns'
  obtain ⟨pre, suf, hpre, hmatch, hearlier⟩ := search_first h
  -- the match does not begin behind the columns in front
  have hsuf : ∃ m, suf = m ++ (gap ++ (id' ++ (gap' ++ (bytes "Query" ++
      (v ++ (q.gap ++ q.columns)))))) := by
    rw [hline] at hpre
    rcases List.append_eq_append_iff.mp hpre with ⟨m, hm, hm'⟩ | ⟨m, -, hm⟩
    · cases m with
      | nil => exact ⟨[], hm'.symm⟩
      | cons c m =>
          have hnone := hearlier u (c :: m) hm (List.cons_ne_nil c m)
          rw [← hm', hmatch'] at hnone
          cases hnone
    · exact ⟨m, hm⟩
  obtain ⟨m, hm⟩ := hsuf
  obtain ⟨gap₁, id₁, gap₂, w, g', rfl, hgap₁, hid₁, hgap₂, hw, hg⟩ := matchItems_regex_spec hmatch
  obtain ⟨-, rfl⟩ := List.cons.inj hg
  have hbehind : v ++ (q.gap ++ q.columns) <:+ w := by
    have hwords : (gap₁ ++ (id₁ ++ gap₂)) ++ (bytes "Query" ++ w) =
        (m ++ (gap ++ (id' ++ gap'))) ++ (bytes "Query" ++ (v ++ (q.gap ++ q.columns))) := by
      simpa only [List.append_assoc] using hm
    exact suffix_of_first_word (ne_Q_of_columns hgap₁ hid₁ hgap₂) hwords
  have hsuffix : q.columns <:+ w := by
    refine List.IsSuffix.trans ?_ hbehind
    exact (List.suffix_append q.gap q.columns).trans (List.suffix_append v _)
  rw [hcolumns] at hsuffix ⊢
  exact suffix_of_matchItems_text hdSpace hsuffix hw

/-- Behind a front without a zero byte an entry keeps the argument exactly if nothing is lost
at either end of it. -/
theorem keepsText_iff_intact (hfrontZero : 0 ∉ q.front) : q.KeepsText ↔ q.Intact := by
  obtain ⟨ns, hns, hcaptured⟩ := q.captured
  have hline : q.line = q.front ++ (q.gap ++ (q.id ++ (q.idGap ++ (bytes "Query" ++
      q.behindCommand)))) := rfl
  constructor
  · intro hkeeps
    obtain ⟨id', ns', hsearch, -, hargument⟩ := keepsText_iff_search.mp hkeeps
    have hzero : 0 ∉ q.argument := fun hmem => by
      apply ParseGeneralLog.zero_not_mem_cString q.line
      obtain ⟨pre, gap, gap', w, hread, -, -, -, -, hw⟩ := search_regex_iff.mp hsearch
      obtain ⟨gap'', ns₁, rfl, -, -, hns₁⟩ := matchItems_text_spec hw
      obtain rfl := List.singleton_inj.mp hns₁
      rw [← hargument] at hmem
      have hin := List.dropLast_subset ns' ((withoutTerminator_isPrefix ns').subset hmem)
      rw [hread]
      simp [hin]
    rw [cString_line hfrontZero hzero] at hsearch
    have hfront : ¬QueryColumns q.front := fun hfront => by
      have hlong := (columns_suffix_of_queryColumns hfront hsearch).length_le
      have hshort := length_le_withoutTerminator ns'
      have hid := List.length_pos_iff.mpr q.id_isDigits.1
      have hidGap := List.length_pos_iff.mpr q.idGap_isGap.1
      have hcommandGap := List.length_pos_iff.mpr q.commandGap_isGap.1
      rw [hargument] at hshort
      simp only [columns, behindCommand, List.length_append] at hlong
      omega
    have hown := search_regex hfront q.gap_isGap q.id_isDigits q.idGap_isGap hns
    rw [← hline, hsearch] at hown
    obtain ⟨-, rfl⟩ : id' = q.id ∧ ns' = ns := by simpa using hown
    obtain ⟨hhead, hending⟩ := hcaptured.mp hargument
    exact ⟨hzero, hfront, hhead, hending⟩
  · intro h
    have hsearch := search_regex h.front q.gap_isGap q.id_isDigits q.idGap_isGap hns
    rw [← hline, ← cString_line hfrontZero h.text] at hsearch
    exact keepsText_iff_search.mpr ⟨q.id, ns, hsearch,
      strtoull_of_isDigits q.id_isDigits q.id_value, hcaptured.mpr ⟨h.head, h.ending⟩⟩

/-- Behind a zero byte nothing is read. -/
theorem keepsText_iff_holdsLine (hfrontZero : 0 ∈ q.front) :
    q.KeepsText ↔ HoldsLine (ParseGeneralLog.cString q.front) q.threadId q.argument := by
  have hread : ParseGeneralLog.cString q.line = ParseGeneralLog.cString q.front :=
    ParseGeneralLog.cString_append_of_mem hfrontZero _
  rw [keepsText_iff_search, hread]
  constructor
  · rintro ⟨id, ns, hsearch, hid, hns⟩
    obtain ⟨pre, gap, gap', w, hfront, hpre, hgap, hidDigits, hgap', hw⟩ :=
      search_regex_iff.mp hsearch
    obtain ⟨gap'', ns₁, rfl, hgap'', -, hns₁⟩ := matchItems_text_spec hw
    obtain rfl := List.singleton_inj.mp hns₁
    obtain ⟨tail, rfl, htail⟩ := (withoutTerminator_eq_iff q.argument_ne).mp hns
    obtain ⟨b, rest, hb⟩ := List.exists_cons_of_ne_nil q.argument_ne
    have hlong : 2 ≤ (q.argument ++ tail).length := by
      rw [hb, List.cons_append, List.length_cons]
      have hpos : 0 < (rest ++ tail).length := by
        rcases htail with ⟨c, rfl⟩ | ⟨-, c, rfl⟩ <;> simp
      exact Nat.succ_le_succ hpos
    refine ⟨pre, gap, id, gap', gap'', tail, hfront, hpre, hgap, hidDigits, hid, hgap', hgap'', ?_,
      htail⟩
    intro c hc
    apply head_of_captured hw hlong c
    rwa [List.head?_append_of_ne_nil _ q.argument_ne]
  · rintro ⟨pre, gap, id, gap', gap'', tail, hfront, hpre, hgap, hidDigits, hid, hgap', hgap'',
      hhead, htail⟩
    have hw : matchItems textItems (gap'' ++ (q.argument ++ tail)) = some [q.argument ++ tail] := by
      apply matchItems_text hgap'' (List.append_ne_nil_of_left_ne_nil q.argument_ne tail)
      rwa [List.head?_append_of_ne_nil _ q.argument_ne]
    refine ⟨id, q.argument ++ tail, ?_, hid, ?_⟩
    · rw [hfront]
      exact search_regex hpre hgap hidDigits hgap' hw
    · exact (withoutTerminator_eq_iff q.argument_ne).mpr ⟨tail, rfl, htail⟩

/-- An entry keeps the argument exactly if the line is intact, or if a zero byte cuts the
line off behind another one of the same thread with the same argument. -/
theorem keepsText_iff (q : QueryLine) : q.KeepsText ↔
    (0 ∉ q.front ∧ q.Intact) ∨
      (0 ∈ q.front ∧ HoldsLine (ParseGeneralLog.cString q.front) q.threadId q.argument) := by
  by_cases hfront : 0 ∈ q.front
  · rw [keepsText_iff_holdsLine hfront]
    simp [hfront]
  · rw [keepsText_iff_intact hfront]
    simp [hfront]

/-- It is one line of a log. -/
theorem lines_line (q : QueryLine) : lines newline q.line = [q.line] := by
  have hword : newline ∉ bytes "Query" := by decide
  have htext := q.no_newline
  simp only [List.mem_append, not_or] at htext
  obtain ⟨hfront, hgap, hidGap, hcommandGap, hargument⟩ := htext
  have hbody : ∀ tail : Bytes, newline ∉ tail → newline ∉ q.front ++ (q.gap ++ (q.id ++
      (q.idGap ++ (bytes "Query" ++ (q.commandGap ++ (q.argument ++ tail)))))) := by
    intro tail htail
    simp only [List.mem_append, not_or]
    exact ⟨hfront, hgap, q.id_isDigits.not_mem rfl, hidGap, hword, hcommandGap, hargument, htail⟩
  have hone : ∀ tail : Bytes, newline ∉ tail → q.ending.bytes = tail ++ [newline] →
      lines newline q.line = [q.line] := by
    intro tail htail hending
    have hline := lines_terminated newline (hbody tail htail) []
    simpa only [line, columns, behindCommand, hending, List.append_assoc, lines_nil] using hline
  cases hending : q.ending with
  | lf => exact hone [] (by decide) (by rw [hending]; rfl)
  | crlf => exact hone [13] (by decide) (by rw [hending]; rfl)
  | eof =>
      have hline : newline ∉ q.line := by
        simpa only [line, columns, behindCommand, hending, LineEnding.bytes] using
          hbody [] List.not_mem_nil
      apply lines_of_not_mem newline _ hline
      exact List.append_ne_nil_of_right_ne_nil _
        (List.append_ne_nil_of_left_ne_nil q.gap_isGap.1 _)

/-- The entry is the one the parse loop makes of the line. -/
theorem getEntries_line (hnoticed : ParseGeneralLog.ignoreLine q.line = false)
    (h : q.KeepsText) : (ParseGeneralLog.getEntries q.line).entries = [q.entry] := by
  obtain ⟨id, ns, hsearch, -⟩ := keepsText_iff_search.mp h
  have hentry : ParseGeneralLog.lineEntry q.line = some q.entry := by
    rw [ParseGeneralLog.lineEntry, if_neg (by simp [hnoticed]), entry, addQueryLine, hsearch]
    rfl
  rw [ParseGeneralLog.getEntries_entries, lines_line, List.filterMap_cons_some hentry,
    List.filterMap_nil]

/-- A query at the end of a file without a line feed. -/
def lastLine : QueryLine where
  front := twoLineRecord.timestamp
  gap := twoLineRecord.gap
  id := twoLineRecord.id
  idGap := twoLineRecord.idGap
  commandGap := twoLineRecord.commandGap
  argument := bytes "SELECT 10"
  ending := .eof
  threadId := 5
  gap_isGap := twoLineRecord.gap_isGap
  id_isDigits := twoLineRecord.id_isDigits
  id_value := twoLineRecord.id_value
  idGap_isGap := twoLineRecord.idGap_isGap
  commandGap_isGap := twoLineRecord.commandGap_isGap rfl
  argument_ne := by decide
  no_newline := by decide

/-- The last digit is lost. -/
theorem lastLine_is_cut : lastLine.entry.query = bytes "SELECT 1 " ∧ ¬lastLine.KeepsText := by
  have hquery : lastLine.entry.query = bytes "SELECT 1 " := by decide +kernel
  refine ⟨hquery, fun hkeeps => ?_⟩
  have hlength := congrArg List.length (hquery.symm.trans hkeeps.2)
  exact absurd hlength (by decide)

end QueryLine

end QueryPlayback
