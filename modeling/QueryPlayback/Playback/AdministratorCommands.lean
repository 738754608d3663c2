import QueryPlayback.QueryLog.Logged
import QueryPlayback.QueryLog.Execute
import QueryPlayback.MySQL.Thread

/-!
# Statements and administrator commands

The run loop of a worker asks an entry whether it is a quit and executes it
otherwise. A quit is found by searching the bytes of the entry for the line of
the command, and the text that is executed keeps every line behind the metadata,
the lines of other commands among them.
-/

namespace QueryPlayback

open Lines MySQLDBThread

section Searching

/-- A marker without a line break begins a text as it begins its first line. -/
theorem isPrefixOf_takeLine {p : Bytes} (hp : newline ∉ p) (text : Bytes) :
    p.isPrefixOf (takeLine newline text) = p.isPrefixOf text := by
  by_cases hmem : newline ∈ text
  · obtain ⟨t, rest, rfl, ht⟩ := List.eq_append_cons_of_mem hmem
    rw [takeLine_terminated newline ht, isPrefixOf_append_newline hp,
      isPrefixOf_append_newline hp]
  · rw [takeLine_of_not_mem newline hmem]

/-- A line break and a marker are found just when a line below the first begins with the marker. -/
theorem search_newline_isSome_iff {p : Bytes} (hp : newline ∉ p) (hne : p ≠ []) (text : Bytes) :
    (search (newline :: p) text).isSome = true ↔
      ∃ l ∈ (lines newline text).tail, p.isPrefixOf l = true := by
  have hbehind : ∀ t, (search (newline :: p) t).isSome = (behind (newline :: p) t).isSome := by
    intro t
    rw [← search_map_drop, Option.isSome_map]
  simp only [hbehind]
  have hskip : ∀ {t : Bytes}, newline ∉ t → ∀ x, behind (newline :: p) (t ++ x) =
      behind (newline :: p) x := fun ht x => behind_append_of_not_mem rfl ht x
  induction hlines : lines newline text generalizing text with
  | nil =>
      have hnil : text = [] := by
        rw [← flatten_lines newline text, hlines]
        rfl
      subst hnil
      simp [behind]
  | cons l ls ih =>
      by_cases hmem : newline ∈ text
      · obtain ⟨t, rest, rfl, ht⟩ := List.eq_append_cons_of_mem hmem
        rw [lines_terminated newline ht, List.cons.injEq] at hlines
        obtain ⟨-, rfl⟩ := hlines
        have hbelow := ih rest rfl
        have hfirst : (newline :: p).isPrefixOf (newline :: rest) = p.isPrefixOf rest := by
          simp [List.isPrefixOf]
        rw [hskip ht, behind, hfirst, List.tail_cons]
        by_cases hrest : rest = []
        · have hempty : p.isPrefixOf [] = false := by
            cases p with
            | nil => exact absurd rfl hne
            | cons c p => rfl
          simp [hrest, hempty, behind]
        · have htake := isPrefixOf_takeLine hp rest
          rw [lines_eq_cons newline hrest] at hbelow ⊢
          rw [List.tail_cons] at hbelow
          simp only [List.mem_cons, exists_eq_or_imp, htake]
          split
          · rename_i hp
            exact iff_of_true rfl (Or.inl hp)
          · rename_i hp
            exact hbelow.trans (or_iff_right hp).symm
      · have hne : text ≠ [] := by
          rintro rfl
          cases hlines
        rw [lines_of_not_mem newline hne hmem, List.cons.injEq] at hlines
        obtain ⟨-, rfl⟩ := hlines
        have hnone := hskip hmem []
        rw [List.append_nil] at hnone
        simp [hnone, behind]

end Searching

/-- An entry of the slow log as the run loop sees it. -/
def QueryLogData.threadEntry (d : QueryLogData) (options : QueryLogOptions) (shutdown : Bool) :
    ThreadEntry :=
  ⟨d.isQuit, shutdown, some (d.getQuery (!options.runSetTimestamp))⟩

/-- The text is the one that the entry executes. -/
theorem QueryLogData.threadEntry_text (d : QueryLogData) (options : QueryLogOptions)
    (shutdown : Bool) (r : QueryResult) (startTime endTime : Int64) :
    (d.threadEntry options shutdown).text =
      some (d.execute options r startTime endTime).query := rfl

namespace LoggedEntry

/-- The entry with an administrator command in place of what was logged. -/
def withCommand (e : LoggedEntry) (command : {c : Bytes // newline ∉ c}) : LoggedEntry :=
  { e with
    body := [commandLine command]
    body_line := by
      have hopen : newline ∉ bytes "# administrator command: " := by decide
      have hclose : newline ∉ bytes ";" := by decide
      have hcommand := command.2
      rw [List.forall_mem_singleton, commandLine, List.mem_append, List.mem_append]
      tauto
    missing_body := fun _ h => by cases h }

/-- A client statement is executed as a whole. -/
def ExecutesStatement (e : LoggedEntry) (options : QueryLogOptions) (query : ThreadEntry) : Prop :=
  query.treatment = .executes (joinLines (e.whole (!options.runSetTimestamp)))

/-- Of the administrator commands `Quit` is a quit, and no other is executed as SQL. -/
def TreatsCommand (command : Bytes) (query : ThreadEntry) : Prop :=
  (query.treatment = .quit ↔ command = bytes "Quit") ∧
    ∀ text, query.treatment = .executes text → ¬commandLine command <:+: text

section Quit

variable (e : LoggedEntry)

theorem tail_closeLines (missing : Bool) (t : Bytes) (rest : List Bytes) :
    (closeLines missing (t :: rest)).tail = closeLines missing rest := by
  cases rest <;> rfl

theorem exists_closeLines_iff {p : Bytes} (hp : newline ∉ p) (missing : Bool)
    (texts : List Bytes) :
    (∃ l ∈ closeLines missing texts, p.isPrefixOf l = true) ↔
      ∃ t ∈ texts, p.isPrefixOf t = true := by
  constructor
  · rintro ⟨l, hl, hbegins⟩
    obtain ⟨t, ht, rfl | rfl⟩ := mem_closeLines hl
    · exact ⟨l, ht, hbegins⟩
    · rw [isPrefixOf_terminated hp] at hbegins
      exact ⟨t, ht, hbegins⟩
  · rintro ⟨t, ht, hbegins⟩
    rcases closeLines_of_mem missing ht with hl | hl
    · exact ⟨t, hl, hbegins⟩
    · exact ⟨t ++ [newline], hl, by rwa [isPrefixOf_terminated hp]⟩

/-- An entry is a quit just when one of the logged lines begins as the command does. -/
theorem isQuit_entry_iff (offset : ℕ) (after : Bytes) (endTime : TimePoint) :
    (e.entry offset after endTime).isQuit = true ↔
      ∃ l ∈ e.body, (bytes "# administrator command: Quit;").isPrefixOf l = true := by
  have hmarker : bytes "\n# administrator command: Quit;" =
      newline :: bytes "# administrator command: Quit;" := by decide
  have hline : newline ∉ bytes "# administrator command: Quit;" := by decide
  have hchars : (e.entry offset after endTime).data.chars =
      cutEnd e.missing (writeLines e.texts) := rfl
  have hcommand : ∀ t, (bytes "# administrator command: Quit;").isPrefixOf t = true →
      (bytes "# administrator command: ").isPrefixOf t = true := by
    intro t ht
    rw [List.isPrefixOf_iff_prefix] at ht ⊢
    exact (List.isPrefixOf_iff_prefix.mp (by decide)).trans ht
  obtain ⟨first, rest, hmetadata⟩ := List.exists_cons_of_ne_nil e.metadata_ne
  have htexts : e.texts = first :: (rest ++ (e.front ++ e.body)) := by
    rw [texts, hmetadata, List.cons_append]
  rw [QueryLogData.isQuit, find, hmarker, search_newline_isSome_iff hline (by decide), hchars,
    e.lines_entry, htexts, tail_closeLines, exists_closeLines_iff hline]
  constructor
  · rintro ⟨t, ht, hbegins⟩
    rcases List.mem_append.mp ht with ht | ht
    · have hplain := (e.metadata_comment t (by simp [hmetadata, ht])).2
      rw [hcommand t hbegins] at hplain
      cases hplain
    · rcases List.mem_append.mp ht with ht | ht
      · have hplain := (e.front_plain t ht).1
        obtain ⟨s, rfl⟩ := List.isPrefixOf_iff_prefix.mp hbegins
        cases hplain
      · exact ⟨t, ht, hbegins⟩
  · rintro ⟨t, ht, hbegins⟩
    exact ⟨t, by simp [ht], hbegins⟩

end Quit

section Commands

variable (e : LoggedEntry)

theorem trim_commandLine (command : Bytes) : trim (commandLine command) = commandLine command := by
  have hhash : (35 : Byte) ∉ blanks := by decide
  have hsemicolon : (59 : Byte) ∉ blanks := by decide
  obtain ⟨text, htext⟩ : ∃ text, commandLine command = 35 :: (text ++ [59]) :=
    ⟨bytes " administrator command: " ++ command, by simp [commandLine, bytes]⟩
  rw [htext, trim, List.dropWhile_cons_of_neg (by simp [hhash]), ← List.cons_append,
    List.reverse_append, List.reverse_singleton, List.singleton_append,
    List.dropWhile_cons_of_neg (by simp [hsemicolon]), List.reverse_cons, List.reverse_reverse]

theorem joinLines_infix_cons (l : Bytes) (ls : List Bytes) :
    trim l <:+: joinLines (l :: ls) ∧ joinLines ls <:+: joinLines (l :: ls) := by
  rw [joinLines]
  split
  · rename_i hblank
    rw [hblank]
    exact ⟨List.nil_infix, List.infix_rfl⟩
  · refine ⟨(List.prefix_append _ _).isInfix, ?_⟩
    by_cases hnil : joinLines ls = []
    · rw [hnil]
      exact List.nil_infix
    · rw [spaced, if_neg hnil]
      exact ⟨trim l ++ [32], [], by simp⟩

/-- Every trimmed line is part of the joined text. -/
theorem trim_infix_joinLines {l : Bytes} {ls : List Bytes} (h : l ∈ ls) :
    trim l <:+: joinLines ls := by
  induction ls with
  | nil => cases h
  | cons t ls ih =>
      rcases List.mem_cons.mp h with rfl | h
      · exact (joinLines_infix_cons l ls).1
      · exact (ih h).trans (joinLines_infix_cons t ls).2

/-- A line of a command is a quit when the command is `Quit` or begins with it and a semicolon. -/
theorem isPrefixOf_commandLine (command : Bytes) :
    (bytes "# administrator command: Quit;").isPrefixOf (commandLine command) =
      (bytes "Quit;").isPrefixOf (command ++ bytes ";") := by
  have hquit : bytes "# administrator command: Quit;" =
      bytes "# administrator command: " ++ bytes "Quit;" := by decide
  rw [Bool.eq_iff_iff, List.isPrefixOf_iff_prefix, List.isPrefixOf_iff_prefix, hquit, commandLine,
    List.prefix_append_right_inj]

/-- The command is executed as SQL when a line that is no metadata stands in front of it. -/
theorem commandLine_infix_getQuery (command : {c : Bytes // newline ∉ c}) (offset : ℕ)
    (after : Bytes) (endTime : TimePoint) (removeTimestamp : Bool) :
    commandLine command <:+: ((e.withCommand command).entry offset after endTime).getQuery
      removeTimestamp ↔ e.front ≠ [] := by
  have hbody : (e.withCommand command).body = [commandLine command] := rfl
  have hcomment : isComment (commandLine command) = true := rfl
  have hfront : (e.withCommand command).front = e.front := rfl
  rw [getQuery_entry, hfront, hbody]
  constructor
  · intro hinfix hnil
    rw [hnil, List.nil_append, List.dropWhile_cons_of_pos hcomment, List.dropWhile_nil] at hinfix
    have hlength := hinfix.length_le
    simp [keptLines, joinLines, commandLine, bytes] at hlength
  · intro hne
    obtain ⟨first, rest, hcons⟩ := List.exists_cons_of_ne_nil hne
    have hhead : ∀ l ∈ (e.front ++ [commandLine command]).head?, isComment l = false := by
      intro l hl
      rw [hcons, List.cons_append, List.head?_cons, Option.mem_some_iff] at hl
      exact (e.front_plain l (by simp [hcons, hl])).1
    have hkept : commandLine command ∈ keptLines removeTimestamp
        (e.front ++ [commandLine command]) := by
      rw [keptLines, List.mem_filter]
      refine ⟨by simp, ?_⟩
      have hplain : isTimestamp (commandLine command) = false := rfl
      rw [hplain, Bool.and_false]
      rfl
    rw [dropWhile_isComment_of_head hhead]
    have hinfix := trim_infix_joinLines hkept
    rwa [trim_commandLine] at hinfix

/-- The line of a command is a quit just when the command begins as `Quit` does. -/
theorem isQuit_withCommand_iff (command : {c : Bytes // newline ∉ c}) (offset : ℕ)
    (after : Bytes) (endTime : TimePoint) :
    ((e.withCommand command).entry offset after endTime).isQuit = true ↔
      (bytes "Quit;").isPrefixOf (command ++ bytes ";") = true := by
  have hbody : (e.withCommand command).body = [commandLine command] := rfl
  rw [isQuit_entry_iff, hbody, ← isPrefixOf_commandLine]
  simp only [List.mem_singleton, exists_eq_left]

end Commands

section Treatment

variable (e : LoggedEntry) (options : QueryLogOptions) (shutdown : Bool) (offset : ℕ)
variable (after : Bytes) (endTime : TimePoint)

theorem treatment_threadEntry (d : QueryLogData) :
    (d.threadEntry options shutdown).treatment =
      if d.isQuit then .quit else .executes (d.getQuery (!options.runSetTimestamp)) := rfl

theorem executesStatement_iff :
    e.ExecutesStatement options ((e.entry offset after endTime).threadEntry options shutdown) ↔
      (∀ l ∈ e.body, (bytes "# administrator command: Quit;").isPrefixOf l = false) ∧
        (options.runSetTimestamp = false → ∀ l ∈ e.body, isTimestamp l = false) ∧
        (e.front = [] → ∀ l ∈ e.body.head?, isComment l = false) := by
  have hquit := e.isQuit_entry_iff offset after endTime
  have hwhole := e.getQuery_eq_whole_iff offset after endTime (!options.runSetTimestamp)
  rw [Bool.not_eq_true'] at hwhole
  rw [ExecutesStatement, treatment_threadEntry, ← hwhole]
  cases hisQuit : (e.entry offset after endTime).isQuit with
  | true =>
      obtain ⟨l, hl, hbegins⟩ := hquit.mp hisQuit
      refine iff_of_false (by simp) ?_
      rintro ⟨hnone, -⟩
      rw [hnone l hl] at hbegins
      cases hbegins
  | false =>
      have hnone : ∀ l ∈ e.body,
          (bytes "# administrator command: Quit;").isPrefixOf l = false := by
        intro l hl
        by_contra hbegins
        rw [hquit.mpr ⟨l, hl, by simpa using hbegins⟩] at hisQuit
        cases hisQuit
      rw [if_neg (by decide), Treatment.executes.injEq]
      exact (and_iff_right hnone).symm

theorem treatsCommand_iff (command : {c : Bytes // newline ∉ c}) :
    TreatsCommand command
        (((e.withCommand command).entry offset after endTime).threadEntry options shutdown) ↔
      command = bytes "Quit" ∨
        e.front = [] ∧ (bytes "Quit;").isPrefixOf (command ++ bytes ";") = false := by
  have hquit := e.isQuit_withCommand_iff command offset after endTime
  have hinfix := e.commandLine_infix_getQuery command offset after endTime
    (!options.runSetTimestamp)
  have hname : ∀ c : Bytes, c = bytes "Quit" →
      (bytes "Quit;").isPrefixOf (c ++ bytes ";") = true := by
    rintro c rfl
    decide
  rw [TreatsCommand, treatment_threadEntry]
  cases hisQuit : ((e.withCommand command).entry offset after endTime).isQuit with
  | true =>
      rw [if_pos rfl, hquit.mp hisQuit]
      simp
  | false =>
      have hother : (bytes "Quit;").isPrefixOf (command ++ bytes ";") = false := by
        by_contra hbegins
        rw [hquit.mpr (by simpa using hbegins)] at hisQuit
        cases hisQuit
      have hne : (command : Bytes) ≠ bytes "Quit" := by
        intro heq
        rw [hname command heq] at hother
        cases hother
      simp only [Bool.false_eq_true, if_false, reduceCtorEq, hne, hother, false_or, and_true,
        true_and, Treatment.executes.injEq, forall_eq', hinfix,
        ne_eq, not_not]

end Treatment

/-- A client statement is executed as a whole just when none of its lines begins as the command
`Quit`, none is taken for a timestamp to be removed, and its first line is not taken for
metadata. A command is treated as what it is just when it is `Quit`, or when nothing is executed
for it and it does not begin as `Quit`. -/
theorem treatment_iff (e : LoggedEntry) (options : QueryLogOptions) (shutdown : Bool) (offset : ℕ)
    (after : Bytes) (endTime : TimePoint) :
    (e.ExecutesStatement options ((e.entry offset after endTime).threadEntry options shutdown) ↔
      (∀ l ∈ e.body, (bytes "# administrator command: Quit;").isPrefixOf l = false) ∧
        (options.runSetTimestamp = false → ∀ l ∈ e.body, isTimestamp l = false) ∧
        (e.front = [] → ∀ l ∈ e.body.head?, isComment l = false)) ∧
    ∀ command : {c : Bytes // newline ∉ c},
      TreatsCommand command
          (((e.withCommand command).entry offset after endTime).threadEntry options shutdown) ↔
        command = bytes "Quit" ∨
          e.front = [] ∧ (bytes "Quit;").isPrefixOf (command ++ bytes ";") = false :=
  ⟨e.executesStatement_iff options shutdown offset after endTime,
    e.treatsCommand_iff options shutdown offset after endTime⟩

/-- A server logs that a statement was prepared. -/
def prepareCommand : LoggedEntry where
  metadata := sampleMetadata
  use := none
  timestamp := some 1297024921
  body := [bytes "# administrator command: Prepare;"]
  missing := false
  metadata_ne := sampleMetadata_ne
  metadata_comment := sampleMetadata_comment
  metadata_line := sampleMetadata_line
  use_line db hdb := by cases hdb
  body_line := List.forall_mem_singleton.mpr (by decide)
  missing_body h := by cases h

/-- The command is executed as SQL. -/
theorem prepareCommand_executed :
    prepareCommand = prepareCommand.withCommand ⟨bytes "Prepare", by decide +kernel⟩ ∧
      ((prepareCommand.entry 0 [] epoch).threadEntry ⟨false, false, false, false⟩ false).treatment =
        .executes (bytes "# administrator command: Prepare;") ∧
      ¬TreatsCommand (bytes "Prepare")
        ((prepareCommand.entry 0 [] epoch).threadEntry ⟨false, false, false, false⟩ false) := by
  have hexecutes : ((prepareCommand.entry 0 [] epoch).threadEntry ⟨false, false, false, false⟩
      false).treatment = .executes (bytes "# administrator command: Prepare;") := by
    decide +kernel
  refine ⟨rfl, hexecutes, fun h => ?_⟩
  exact h.2 _ hexecutes List.infix_rfl

end LoggedEntry

end QueryPlayback
