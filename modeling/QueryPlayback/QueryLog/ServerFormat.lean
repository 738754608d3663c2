import QueryPlayback.Text.Fields
import QueryPlayback.QueryLog.Execute
import QueryPlayback.QueryLog.Metadata

/-!
# The numbers a server writes

A server with thread ids writes three metadata lines with the user, the thread
and the times of a query. The thread id is read back in every case. The number of
examined rows is looked for behind a marker that the server does not write, so
only the texts of an entry that are not the server's can contain it.
-/

namespace QueryPlayback

/-- The markers the readers of the numbers look for. -/
def numberMarkers : List Bytes :=
  [bytes "Thread_id: ", bytes "Rows_sent: ", bytes "Rows_Examined: "]

/-- Blanks between two fields of a line. -/
def isSpacing (gap : Bytes) : Bool := gap.all fun c => c == 32 || c == 9

/-- The digits and the point of a time. -/
def isSeconds (time : Bytes) : Bool := time.all fun c => Scan.isDigit c || c == 46

/-- An entry as a server writes it. The schema is everything behind its name on the line of
the thread, and `more` is what follows the examined rows on the line and below it. -/
structure ServerEntry where
  userHost : Bytes
  threadId : UInt64
  threadGap : Bytes
  schema : Bytes
  queryTime : Bytes
  timeGap : Bytes
  lockTime : Bytes
  lockGap : Bytes
  rowsSent : UInt64
  sentGap : Bytes
  rowsExamined : UInt64
  more : Bytes
  statement : Bytes
  userHost_marker : (bytes "# User@Host").isPrefixOf userHost = true
  userHost_plain : ∀ marker ∈ numberMarkers, behind marker userHost = none
  userHost_line : newline ∉ userHost
  schema_line : newline ∉ schema
  times : isSeconds queryTime = true ∧ isSeconds lockTime = true
  spacing : ∀ gap ∈ [threadGap, timeGap, lockGap, sentGap], isSpacing gap = true
  more_apart : more.head?.all (fun c => !Scan.isDigit c) = true

namespace ServerEntry

variable (e : ServerEntry)

/-- The line of the times from the number of sent rows on, and what is below it. -/
def rowsText : Bytes :=
  bytes "Rows_sent: " ++ (decimal e.rowsSent.toNat ++ (e.sentGap ++
    (bytes "Rows_examined: " ++ (decimal e.rowsExamined.toNat ++
      (e.more ++ newline :: e.statement)))))

/-- The line of the times and what is below it. -/
def timesText : Bytes :=
  bytes "# Query_time: " ++ (e.queryTime ++ (e.timeGap ++ (bytes "Lock_time: " ++
    (e.lockTime ++ (e.lockGap ++ e.rowsText)))))

/-- The bytes of the entry. -/
def text : Bytes :=
  e.userHost ++ newline :: (bytes "# Thread_id: " ++ (decimal e.threadId.toNat ++ (e.threadGap ++
    (bytes "Schema: " ++ (e.schema ++ newline :: e.timesText)))))

/-- The entry where it stands in a log. -/
def entry (offset : ℕ) (after : Bytes) (endTime : TimePoint) : QueryLogData :=
  .new ⟨offset, e.text, after⟩ endTime

/-- The number behind the misspelt marker in the texts that are not the server's: the schema,
what follows the numbers, and the statement. -/
def strayRowsExamined (after : Bytes) : Option UInt64 :=
  ((behind (bytes "Rows_Examined: ") e.schema).map Scan.strtoull).or
    ((behind (bytes "Rows_Examined: ") (e.more ++ newline :: e.statement)).map fun s =>
      Scan.strtoull (s ++ after))

/-- The number behind the marker of the sent rows in the schema. -/
def strayRowsSent : Option UInt64 :=
  (behind (bytes "Rows_sent: ") e.schema).map Scan.strtoull

/-- The readers give what the server wrote, and so does the expected result. -/
structure Decodes (d : QueryLogData) : Prop where
  threadId : d.getThreadId = e.threadId
  rowsSent : d.parseRowsSent = e.rowsSent
  rowsExamined : d.parseRowsExamined = e.rowsExamined
  expectedRowsSent : d.expectedResult.rowsSent = e.rowsSent.toNat
  expectedRowsExamined : d.expectedResult.rowsExamined = e.rowsExamined.toNat

section Texts

/-- The byte `R` that both markers of row numbers begin with. -/
theorem not_mem_of_isSpacing {gap : Bytes} (h : isSpacing gap = true) : (82 : Byte) ∉ gap := by
  intro hmem
  have hc := List.all_eq_true.mp h 82 hmem
  cases hc

theorem not_mem_of_isSeconds {time : Bytes} (h : isSeconds time = true) : (82 : Byte) ∉ time := by
  intro hmem
  have hc := List.all_eq_true.mp h 82 hmem
  cases hc

theorem not_mem_decimal (n : ℕ) : (82 : Byte) ∉ decimal n := by
  intro hmem
  have hc := Scan.isDigit_decimal n 82 hmem
  cases hc

/-- A number in front of spacing and a letter is read to its end. -/
theorem head_spacing {gap rest : Bytes} (h : isSpacing gap = true)
    (hrest : ∀ c ∈ rest.head?, Scan.isDigit c = false) :
    ∀ c ∈ (gap ++ rest).head?, Scan.isDigit c = false := by
  cases gap with
  | nil => exact hrest
  | cons b gap =>
      intro c hc
      obtain rfl : b = c := by simpa using hc
      have hb := List.all_eq_true.mp h b List.mem_cons_self
      rcases Bool.or_eq_true_iff.mp hb with hb | hb <;> rw [beq_iff_eq.mp hb] <;> rfl

/-- A marker of a row number is found in the schema or from the sent rows on. -/
theorem behind_text {marker : Bytes} (hhead : marker.head? = some 82) (hline : newline ∉ marker)
    (huser : behind marker e.userHost = none) :
    behind marker e.text =
      ((behind marker e.schema).map (· ++ newline :: e.timesText)).or
        (behind marker e.rowsText) := by
  have hne : marker ≠ [] := by
    rintro rfl
    cases hhead
  have hthread : isSpacing e.threadGap = true := e.spacing _ (by simp)
  have htime : isSpacing e.timeGap = true := e.spacing _ (by simp)
  have hlock : isSpacing e.lockGap = true := e.spacing _ (by simp)
  have htimes : behind marker e.timesText = behind marker e.rowsText := by
    rw [timesText, behind_append_of_not_mem hhead (by decide),
      behind_append_of_not_mem hhead (not_mem_of_isSeconds e.times.1),
      behind_append_of_not_mem hhead (not_mem_of_isSpacing htime),
      behind_append_of_not_mem hhead (by decide),
      behind_append_of_not_mem hhead (not_mem_of_isSeconds e.times.2),
      behind_append_of_not_mem hhead (not_mem_of_isSpacing hlock)]
  rw [text, behind_append_newline hline hne, huser, Option.map_none, Option.none_or,
    behind_append_of_not_mem hhead (by decide),
    behind_append_of_not_mem hhead (not_mem_decimal _),
    behind_append_of_not_mem hhead (not_mem_of_isSpacing hthread),
    behind_append_of_not_mem hhead (by decide), behind_append_newline hline hne, htimes]

/-- Behind the marker of the thread id there is the thread id. -/
theorem behind_threadId :
    behind (bytes "Thread_id: ") e.text =
      some (decimal e.threadId.toNat ++ (e.threadGap ++ (bytes "Schema: " ++ (e.schema ++
        newline :: e.timesText)))) := by
  have huser : behind (bytes "Thread_id: ") e.userHost = none :=
    e.userHost_plain _ (by simp [numberMarkers])
  have hmark : bytes "# Thread_id: " = [35, 32] ++ bytes "Thread_id: " := by decide
  rw [text, behind_append_newline (by decide) (by decide), huser, Option.map_none,
    Option.none_or, hmark, List.append_assoc, behind_append_of_not_mem rfl (by decide),
    behind_self (by decide)]

/-- Behind the marker of the sent rows there is their number. -/
theorem behind_rowsSent :
    behind (bytes "Rows_sent: ") e.rowsText =
      some (decimal e.rowsSent.toNat ++ (e.sentGap ++ (bytes "Rows_examined: " ++
        (decimal e.rowsExamined.toNat ++ (e.more ++ newline :: e.statement))))) := by
  rw [rowsText, behind_self (by decide)]

/-- The numbers of rows do not contain the misspelt marker. -/
theorem behind_rowsExamined :
    behind (bytes "Rows_Examined: ") e.rowsText =
      behind (bytes "Rows_Examined: ") (e.more ++ newline :: e.statement) := by
  have hhead : (bytes "Rows_Examined: ").head? = some 82 := rfl
  have hsent : bytes "Rows_sent: " = 82 :: bytes "ows_sent: " := by decide
  have hexamined : bytes "Rows_examined: " = 82 :: bytes "ows_examined: " := by decide
  have hgap : isSpacing e.sentGap = true := e.spacing _ (by simp)
  rw [rowsText, hsent, behind_append_of_other hhead (by decide) rfl,
    behind_append_of_not_mem hhead (not_mem_decimal _),
    behind_append_of_not_mem hhead (not_mem_of_isSpacing hgap), hexamined,
    behind_append_of_other hhead (by decide) rfl,
    behind_append_of_not_mem hhead (not_mem_decimal _)]

end Texts

section Readers

variable (offset : ℕ) (after : Bytes) (endTime : TimePoint)

/-- A field is read in the memory behind its marker. -/
theorem field_entry (marker : Bytes) :
    QueryLogData.field (e.entry offset after endTime).data marker marker.length =
      (behind marker e.text).map (· ++ after) := by
  change (search marker e.text).map (fun k => (e.text ++ after).drop (k + marker.length)) = _
  rw [← search_map_drop, Option.map_map]
  cases hk : search marker e.text with
  | none => rfl
  | some k =>
      rw [Option.map_some, Option.map_some,
        List.drop_append_of_le_length (search_add_length_le hk)]
      rfl

theorem getThreadId_entry : (e.entry offset after endTime).getThreadId = e.threadId := by
  have hfield := e.field_entry offset after endTime (bytes "Thread_id: ")
  rw [e.behind_threadId, Option.map_some] at hfield
  have hschema : ∀ c ∈ (bytes "Schema: " ++ (e.schema ++ newline :: e.timesText) ++ after).head?,
      Scan.isDigit c = false := by
    intro c hc
    obtain rfl : (83 : Byte) = c := Option.some.inj hc
    rfl
  have hgap : isSpacing e.threadGap = true := e.spacing _ (by simp)
  rw [QueryLogData.getThreadId_readsField _ _ rfl hfield, List.append_assoc, List.append_assoc,
    Scan.strtoull_decimal _ (head_spacing hgap hschema)]

theorem parseRowsSent_entry :
    (e.entry offset after endTime).parseRowsSent = e.strayRowsSent.getD e.rowsSent := by
  have hfield := e.field_entry offset after endTime (bytes "Rows_sent: ")
  have huser : behind (bytes "Rows_sent: ") e.userHost = none :=
    e.userHost_plain _ (by simp [numberMarkers])
  rw [e.behind_text rfl (by decide) huser, e.behind_rowsSent] at hfield
  rw [strayRowsSent]
  cases hschema : behind (bytes "Rows_sent: ") e.schema with
  | some u =>
      rw [hschema, Option.map_some, Option.some_or, Option.map_some] at hfield
      rw [QueryLogData.parseRowsSent_readsField _ _ rfl hfield, List.append_assoc]
      exact Scan.strtoull_append_comment u _
  | none =>
      rw [hschema, Option.map_none, Option.none_or, Option.map_some] at hfield
      have hgap : isSpacing e.sentGap = true := e.spacing _ (by simp)
      have hnext : ∀ c ∈ (bytes "Rows_examined: " ++ (decimal e.rowsExamined.toNat ++
          (e.more ++ newline :: e.statement)) ++ after).head?, Scan.isDigit c = false := by
        intro c hc
        obtain rfl : (82 : Byte) = c := Option.some.inj hc
        rfl
      rw [QueryLogData.parseRowsSent_readsField _ _ rfl hfield, List.append_assoc,
        List.append_assoc, Scan.strtoull_decimal _ (head_spacing hgap hnext)]
      rfl

theorem parseRowsExamined_entry :
    (e.entry offset after endTime).parseRowsExamined = (e.strayRowsExamined after).getD 0 := by
  have hfield := e.field_entry offset after endTime (bytes "Rows_Examined: ")
  have huser : behind (bytes "Rows_Examined: ") e.userHost = none :=
    e.userHost_plain _ (by simp [numberMarkers])
  rw [e.behind_text rfl (by decide) huser, e.behind_rowsExamined] at hfield
  rw [strayRowsExamined]
  cases hschema : behind (bytes "Rows_Examined: ") e.schema with
  | some u =>
      rw [hschema, Option.map_some, Option.some_or, Option.map_some] at hfield
      rw [QueryLogData.parseRowsExamined_readsField _ _ rfl hfield, List.append_assoc]
      exact Scan.strtoull_append_comment u _
  | none =>
      rw [hschema, Option.map_none, Option.none_or] at hfield
      rw [Option.map_none, Option.none_or]
      cases hstray : behind (bytes "Rows_Examined: ") (e.more ++ newline :: e.statement) with
      | some s =>
          rw [hstray, Option.map_some] at hfield
          exact QueryLogData.parseRowsExamined_readsField _ _ rfl hfield
      | none =>
          rw [hstray, Option.map_none] at hfield
          have hlength : (bytes "Rows_examined: ").length = (bytes "Rows_Examined: ").length := by
            decide
          rw [QueryLogData.parseRowsExamined, hlength, hfield]
          rfl

end Readers

/-- The numbers are decoded to what the server wrote just when no other number of sent rows
stands in the schema and the misspelt marker, which only the texts that are not the server's
can contain, gives the number of examined rows, or is missing and no row was examined. -/
theorem decodes_iff (offset : ℕ) (after : Bytes) (endTime : TimePoint) :
    e.Decodes (e.entry offset after endTime) ↔
      (∀ n ∈ e.strayRowsSent, n = e.rowsSent) ∧
      (e.strayRowsExamined after = some e.rowsExamined ∨
        e.strayRowsExamined after = none ∧ e.rowsExamined = 0) := by
  have hsent := e.parseRowsSent_entry offset after endTime
  have hexamined := e.parseRowsExamined_entry offset after endTime
  constructor
  · intro h
    have hs := hsent.symm.trans h.rowsSent
    have he := hexamined.symm.trans h.rowsExamined
    constructor
    · intro n hn
      rwa [Option.mem_def.mp hn] at hs
    · cases hstray : e.strayRowsExamined after with
      | some n =>
          rw [hstray] at he
          exact Or.inl (congrArg some he)
      | none =>
          rw [hstray] at he
          exact Or.inr ⟨rfl, he.symm⟩
  · rintro ⟨hs, he⟩
    have hs : (e.entry offset after endTime).parseRowsSent = e.rowsSent := by
      rw [hsent]
      cases hstray : e.strayRowsSent with
      | some n => exact hs n hstray
      | none => rfl
    have he : (e.entry offset after endTime).parseRowsExamined = e.rowsExamined := by
      rw [hexamined]
      rcases he with he | ⟨he, hzero⟩
      · rw [he]
        rfl
      · rw [he, hzero]
        rfl
    exact ⟨e.getThreadId_entry offset after endTime, hs, he, congrArg UInt64.toNat hs,
      congrArg UInt64.toNat he⟩

theorem localHost_marker :
    (bytes "# User@Host").isPrefixOf (bytes "# User@Host: root[root] @ localhost []") = true := by
  decide

/-- A query that has examined three rows. -/
def threeExamined : ServerEntry where
  userHost := bytes "# User@Host: root[root] @ localhost []"
  threadId := 2
  threadGap := bytes "  "
  schema := bytes "test  Last_errno: 0  Killed: 0"
  queryTime := bytes "0.000170"
  timeGap := bytes "  "
  lockTime := bytes "0.000000"
  lockGap := bytes "  "
  rowsSent := 1
  sentGap := bytes "  "
  rowsExamined := 3
  more := bytes "  Rows_affected: 0  Rows_read: 3"
  statement := bytes "SET timestamp=1325207652;\nSELECT MAX(a) FROM t;\n"
  userHost_marker := localHost_marker
  userHost_plain := by decide +kernel
  userHost_line := by decide +kernel
  schema_line := by decide +kernel
  times := by decide +kernel
  spacing := by decide +kernel
  more_apart := by decide +kernel

/-- The number of examined rows is read as zero. -/
theorem threeExamined_not_decoded :
    (threeExamined.entry 0 [] epoch).parseRowsExamined = 0 ∧
      (threeExamined.entry 0 [] epoch).expectedResult.rowsExamined = 0 ∧
      ¬threeExamined.Decodes (threeExamined.entry 0 [] epoch) := by
  have hzero : (threeExamined.entry 0 [] epoch).parseRowsExamined = 0 := by decide +kernel
  have hexpected : (threeExamined.entry 0 [] epoch).expectedResult.rowsExamined = 0 := by
    rw [QueryLogData.expectedResult]
    dsimp only
    rw [hzero]
    rfl
  refine ⟨hzero, hexpected, fun h => ?_⟩
  have hthree := h.rowsExamined
  rw [hzero] at hthree
  exact absurd hthree (by decide)

end ServerEntry

end QueryPlayback
