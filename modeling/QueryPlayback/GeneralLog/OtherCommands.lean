import QueryPlayback.GeneralLog.Endings

/-!
# Records of other commands

A record whose command is not `Query` should give no entry. The reader does not
look at the columns of a line but for a match anywhere in it, so an argument may
look like a query, even like one of another thread.

## Implementation notes

The argument may be any text, also one of several lines. Nothing is asked of the
name of the command but that it is a column of its own without digits.
-/

namespace QueryPlayback

open Lines GeneralLogEntry ParseGeneralLog

/-- A record of a command other than `Query`. -/
structure OtherRecord where
  timestamp : Bytes
  gap : Bytes
  id : Bytes
  idGap : Bytes
  command : Bytes
  commandGap : Bytes
  argument : Bytes
  ending : LineEnding
  timestamp_bytes : ∀ c ∈ timestamp, isTimestampByte c = true
  gap_isGap : IsGap gap
  id_isDigits : IsDigits id
  idGap_isGap : IsGap idGap
  command_ne : command ≠ []
  command_ne_query : command ≠ bytes "Query"
  command_text : ∀ c ∈ command, Scan.isDigit c = false ∧ c ≠ 0
  command_head : ∀ c ∈ command.head?, Scan.isSpace c = false
  command_last : ∀ c ∈ command.getLast?, Scan.isSpace c = false
  commandGap_isSpace : ∀ c ∈ commandGap, Scan.isSpace c = true
  commandGap_ne : argument ≠ [] → commandGap ≠ []
  no_newline : newline ∉ gap ++ (idGap ++ (command ++ commandGap))

namespace OtherRecord

variable (r : OtherRecord)

/-- The columns up to the command. -/
def columns : Bytes := r.timestamp ++ (r.gap ++ (r.id ++ (r.idGap ++ r.command)))

/-- What stands behind the command. -/
def behindCommand : Bytes := r.commandGap ++ (r.argument ++ r.ending.bytes)

/-- The record as it stands in the log. -/
def text : Bytes := r.columns ++ r.behindCommand

/-- The first line of what stands behind the command. -/
def firstArgument : Bytes := takeLine newline r.behindCommand

/-- The lines behind the first one. -/
def otherLines : List Bytes := lines newline (dropLine newline r.behindCommand)

/-- The name of the command up to a blank. -/
def firstWord : Bytes := r.command.takeWhile fun c => !Scan.isSpace c

/-- No line of the record is taken for a query: neither does the command begin with the word
`Query`, nor are there columns behind it. -/
structure Harmless (r : OtherRecord) : Prop where
  first : ignoreLine (r.columns ++ r.firstArgument) = true ∨
    r.firstWord ≠ bytes "Query" ∧ ¬HasColumns (cString r.firstArgument)
  others : ∀ line ∈ r.otherLines, ignoreLine line = true ∨ ¬HasColumns (cString line)

end OtherRecord

/-- Wherever the text stands in a log, it adds no entry. -/
def Silent (text : Bytes) : Prop :=
  ∀ before after, (before = [] ∨ before.getLast? = some newline) →
    (text.getLast? = some newline ∨ after = []) →
    (ParseGeneralLog.getEntries (before ++ (text ++ after))).entries =
      (ParseGeneralLog.getEntries before).entries ++ (ParseGeneralLog.getEntries after).entries

section Lines

/-- A text adds no entry if none of its lines gives one. -/
theorem silent_iff {text : Bytes} :
    Silent text ↔ ∀ line ∈ lines newline text, lineEntry line = none := by
  rw [← List.filterMap_eq_nil_iff]
  constructor
  · intro h
    have hnone := h [] [] (Or.inl rfl) (Or.inr rfl)
    simpa only [ParseGeneralLog.getEntries_entries, List.nil_append, List.append_nil, lines_nil,
      List.filterMap_nil] using hnone
  · intro h before after hbefore hafter
    rw [ParseGeneralLog.getEntries_entries, lines_append newline (Or.inl hbefore),
      lines_append newline (hafter.imp_left Or.inr), List.filterMap_append, List.filterMap_append,
      h, List.nil_append, ParseGeneralLog.getEntries_entries, ParseGeneralLog.getEntries_entries]

theorem lineEntry_eq_none_iff_columns {line : Bytes} :
    lineEntry line = none ↔ ignoreLine line = true ∨ ¬HasColumns (cString line) := by
  rw [lineEntry_eq_none_iff, readsAsQuery, ← search_regex_isSome_iff]
  cases ignoreLine line <;> simp

namespace OtherRecord

variable {r : OtherRecord}

theorem newline_not_mem_columns : newline ∉ r.columns := by
  have htimestamp : newline ∉ r.timestamp := fun hmem => by
    exact absurd (r.timestamp_bytes newline hmem) (by decide)
  have hgaps := r.no_newline
  simp only [columns, List.mem_append, not_or] at hgaps ⊢
  exact ⟨htimestamp, hgaps.1, r.id_isDigits.not_mem rfl, hgaps.2.1, hgaps.2.2.1⟩

theorem lines_text : lines newline r.text = (r.columns ++ r.firstArgument) :: r.otherLines := by
  have hne : r.text ≠ [] := by
    refine List.append_ne_nil_of_left_ne_nil ?_ _
    exact List.append_ne_nil_of_right_ne_nil _ (List.append_ne_nil_of_left_ne_nil r.gap_isGap.1 _)
  obtain ⟨htake, hdrop⟩ := takeLine_append_of_not_mem newline newline_not_mem_columns
    r.behindCommand
  rw [lines_eq_cons newline hne, text, htake, hdrop]
  rfl

end OtherRecord

end Lines

section Columns

/-- What ends a text without some character lies behind every place that has it. -/
theorem suffix_of_not_mem {x y u s : Bytes} {b : Byte} (hb : b ∉ s) (h : x ++ b :: y = u ++ s) :
    s <:+ y := by
  rcases List.append_eq_append_iff.mp h with ⟨m, -, hm⟩ | ⟨m, -, rfl⟩
  · cases m with
    | nil =>
        obtain rfl : b :: y = s := hm
        exact absurd List.mem_cons_self hb
    | cons c m => exact ⟨m, (List.cons.inj hm).2.symm⟩
  · exact absurd (List.mem_append_right m List.mem_cons_self) hb

theorem head_of_hasText {w : Bytes} (h : HasText w) : ∀ c ∈ w.head?, Scan.isSpace c = true := by
  obtain ⟨gap, rest, rfl, hgap, -⟩ := h
  exact hgap.head_append rest

namespace OtherRecord

variable {r : OtherRecord}

/-- A word at the beginning of the command is its first word. -/
theorem firstWord_eq {s w : Bytes} (hs : ∀ c ∈ s.head?, Scan.isSpace c = true) (hw : HasText w)
    (h : r.command ++ s = bytes "Query" ++ w) : r.firstWord = bytes "Query" := by
  rcases List.append_eq_append_iff.mp h with ⟨m, hm, rfl⟩ | ⟨m, hm, rfl⟩
  · rw [eq_nil_of_word_cut hm hs, List.append_nil] at hm
    exact absurd hm.symm r.command_ne_query
  · cases m with
    | nil =>
        rw [List.append_nil] at hm
        exact absurd hm r.command_ne_query
    | cons c m =>
        rw [firstWord, hm]
        apply Pattern.takeWhile_append_of_stop fun c hc => by rw [isSpace_word c hc]; rfl
        intro a ha
        obtain rfl : c = a := Option.some.inj ha
        rw [head_of_hasText hw c rfl]
        rfl

/-- A command that begins with the word has a text behind it. -/
theorem command_of_firstWord (h : r.firstWord = bytes "Query") (s : Bytes) :
    ∃ v, r.command = bytes "Query" ++ v ∧ HasText (v ++ s) := by
  have hsplit := List.takeWhile_append_dropWhile (p := fun c => !Scan.isSpace c) (l := r.command)
  rw [← firstWord, h] at hsplit
  cases hdrop : r.command.dropWhile fun c => !Scan.isSpace c with
  | nil =>
      rw [hdrop, List.append_nil] at hsplit
      exact absurd hsplit.symm r.command_ne_query
  | cons c v =>
      rw [hdrop] at hsplit
      have hc : Scan.isSpace c = true := by
        have hhead := List.head?_dropWhile_not (fun c => !Scan.isSpace c) r.command
        rw [hdrop, List.head?_cons] at hhead
        simpa using hhead
      have hv : v ≠ [] := by
        rintro rfl
        have hlast := r.command_last c (by rw [← hsplit]; exact List.getLast?_concat)
        rw [hc] at hlast
        cases hlast
      refine ⟨c :: v, hsplit.symm, [c], v ++ s, rfl, ⟨List.cons_ne_nil c [], ?_⟩, ?_⟩
      · exact List.forall_mem_singleton.mpr hc
      · exact List.append_ne_nil_of_left_ne_nil hv s

/-- A word that does not begin the command has its columns behind the command. -/
theorem hasColumns_of_behind {s u gap id gap' w front m : Bytes} {b : Byte} (hgap : IsGap gap)
    (hid : IsDigits id) (hgap' : IsGap gap') (hw : HasText w)
    (hcolumns : u ++ (gap ++ (id ++ gap')) = front ++ b :: m)
    (hword : r.command ++ s = b :: m ++ (bytes "Query" ++ w)) : HasColumns s := by
  rcases List.append_eq_append_iff.mp hword with ⟨n, hn, hrest⟩ | ⟨n, hn, -⟩
  · -- the last character of the command is in front of the columns
    obtain ⟨init, last, hcommand⟩ := (List.eq_nil_or_concat' r.command).resolve_left r.command_ne
    have hlast := r.command_last last (by rw [hcommand]; exact List.getLast?_concat)
    have hmem : last ∈ r.command := by simp [hcommand]
    have hnot := not_mem_of_columns hgap hid hgap' hlast (r.command_text last hmem).1
    have hsplit : front ++ init ++ last :: n = u ++ (gap ++ (id ++ gap')) := by
      rw [hcolumns, hn, hcommand]
      simp
    obtain ⟨u', hu'⟩ := suffix_of_not_mem hnot hsplit
    refine ⟨u', gap, id, gap', w, ?_, hgap, hid, hgap', hw⟩
    rw [hrest, ← hu']
    simp only [List.append_assoc]
  · -- a word inside the command has no digits in front of it
    have hhead := r.command_head b (by rw [hn]; rfl)
    have hmem : b ∈ r.command := by simp [hn]
    have hnot := not_mem_of_columns hgap hid hgap' hhead (r.command_text b hmem).1
    have hsuffix := suffix_of_not_mem hnot hcolumns.symm
    obtain ⟨d, id', rfl⟩ := List.exists_cons_of_ne_nil hid.1
    have hdm : d ∈ m := hsuffix.subset (by simp)
    have hd := (r.command_text d (by simp [hn, hdm])).1
    rw [hid.2 d List.mem_cons_self] at hd
    cases hd

/-- The columns of the record itself have no word, so a text behind them is taken for a query
when the command begins with the word or when it has columns of its own. -/
theorem hasColumns_append_iff {s : Bytes} (hs : ∀ c ∈ s.head?, Scan.isSpace c = true) :
    HasColumns (r.columns ++ s) ↔ r.firstWord = bytes "Query" ∨ HasColumns s := by
  have hcolumns : ∀ t, r.columns ++ t =
      (r.timestamp ++ (r.gap ++ (r.id ++ r.idGap))) ++ (r.command ++ t) := by
    simp [columns]
  constructor
  · rintro ⟨u, gap, id, gap', w, heq, hgap, hid, hgap', hw⟩
    have hfront : (r.timestamp ++ (r.gap ++ (r.id ++ r.idGap))) ++ (r.command ++ s) =
        (u ++ (gap ++ (id ++ gap'))) ++ (bytes "Query" ++ w) := by
      rw [← hcolumns, heq]
      simp only [List.append_assoc]
    rcases List.append_eq_append_iff.mp hfront with ⟨m, hm, hword⟩ | ⟨m, hm, hword⟩
    · cases m with
      | nil => exact Or.inl (firstWord_eq hs hw hword)
      | cons b m => exact Or.inr (hasColumns_of_behind hgap hid hgap' hw hm hword)
    · cases m with
      | nil => exact Or.inl (firstWord_eq hs hw hword.symm)
      | cons b m =>
          obtain rfl : 81 = b := (List.cons.inj hword).1
          have hmem : 81 ∈ r.timestamp ++ (r.gap ++ (r.id ++ r.idGap)) :=
            hm ▸ List.mem_append_right _ List.mem_cons_self
          rcases List.mem_append.mp hmem with hmem | hmem
          · exact absurd (r.timestamp_bytes 81 hmem) (by decide)
          · exact absurd hmem (not_mem_of_columns r.gap_isGap r.id_isDigits r.idGap_isGap rfl rfl)
  · rintro (hfirst | ⟨u, gap, id, gap', w, rfl, hgap, hid, hgap', hw⟩)
    · obtain ⟨v, hcommand, hv⟩ := command_of_firstWord hfirst s
      refine ⟨r.timestamp, r.gap, r.id, r.idGap, v ++ s, ?_, r.gap_isGap, r.id_isDigits,
        r.idGap_isGap, hv⟩
      rw [columns, hcommand]
      simp only [List.append_assoc]
    · refine ⟨r.columns ++ u, gap, id, gap', w, ?_, hgap, hid, hgap', hw⟩
      rw [List.append_assoc]

/-- The columns have no zero byte, so they are read to their end. -/
theorem cString_columns_append (s : Bytes) : cString (r.columns ++ s) = r.columns ++ cString s := by
  apply cString_append_of_not_mem
  simp only [columns, List.mem_append, not_or]
  refine ⟨fun hmem => ?_, r.gap_isGap.not_mem rfl, r.id_isDigits.not_mem rfl,
    r.idGap_isGap.not_mem rfl, fun hmem => (r.command_text 0 hmem).2 rfl⟩
  exact absurd (r.timestamp_bytes 0 hmem) (by decide)

theorem head_behindCommand : ∀ c ∈ r.behindCommand.head?, Scan.isSpace c = true := by
  intro c hc
  rw [behindCommand] at hc
  cases hgap : r.commandGap with
  | nil =>
      have hargument : r.argument = [] := by
        by_contra hne
        exact r.commandGap_ne hne hgap
      rw [hgap, hargument] at hc
      exact isSpace_ending r.ending c (List.mem_of_mem_head? hc)
  | cons b gap =>
      rw [hgap] at hc
      obtain rfl : b = c := Option.some.inj hc
      exact r.commandGap_isSpace b (hgap ▸ List.mem_cons_self)

/-- What stands behind the command begins with white space. -/
theorem head_firstArgument : ∀ c ∈ (cString r.firstArgument).head?, Scan.isSpace c = true := by
  intro c hc
  apply head_behindCommand c
  have hread : cString r.firstArgument <+: r.behindCommand :=
    (List.takeWhile_prefix _).trans ⟨_, takeLine_append_dropLine newline r.behindCommand⟩
  obtain ⟨rest, hrest⟩ := hread
  rw [← hrest, List.head?_append, hc]
  rfl

/-- A record of another command adds no entry exactly if it is harmless. -/
theorem silent_iff_harmless (r : OtherRecord) : Silent r.text ↔ r.Harmless := by
  rw [silent_iff, lines_text, List.forall_mem_cons]
  simp only [lineEntry_eq_none_iff_columns, cString_columns_append,
    hasColumns_append_iff head_firstArgument, not_or]
  exact ⟨fun h => ⟨h.1, h.2⟩, fun h => ⟨h.first, h.others⟩⟩

/-- An execution whose argument looks like a query of another thread. -/
def executeRecord : OtherRecord where
  timestamp := twoLineRecord.timestamp
  gap := twoLineRecord.gap
  id := twoLineRecord.id
  idGap := twoLineRecord.idGap
  command := bytes "Execute"
  commandGap := twoLineRecord.commandGap
  argument := bytes "SELECT ' 7 Query DROP TABLE t'"
  ending := .lf
  timestamp_bytes := twoLineRecord.timestamp_bytes
  gap_isGap := twoLineRecord.gap_isGap
  id_isDigits := twoLineRecord.id_isDigits
  idGap_isGap := twoLineRecord.idGap_isGap
  command_ne := by decide
  command_ne_query := by decide
  command_text := by decide +kernel
  command_head := by decide +kernel
  command_last := by decide +kernel
  commandGap_isSpace := (twoLineRecord.commandGap_isGap rfl).2
  commandGap_ne _ := (twoLineRecord.commandGap_isGap rfl).1
  no_newline := by decide

/-- Its argument is replayed on the other thread. -/
theorem execute_forges_query :
    (ParseGeneralLog.getEntries executeRecord.text).entries =
        [{ threadId := 7, query := bytes "DROP TABLE t' " }] ∧
      ¬Silent executeRecord.text := by
  have hentries : (ParseGeneralLog.getEntries executeRecord.text).entries =
      [{ threadId := 7, query := bytes "DROP TABLE t' " }] := by
    decide +kernel
  refine ⟨hentries, fun hsilent => ?_⟩
  have hnone := hsilent [] [] (Or.inl rfl) (Or.inr rfl)
  rw [List.nil_append, List.append_nil, hentries] at hnone
  cases hnone

end OtherRecord

end Columns

end QueryPlayback
