import QueryPlayback.QueryLog.Records
import QueryPlayback.Text.FinishedNumbers

/-!
# What the field readers read of the log

The view of an entry has a length, but the numeric readers hand the bare
pointer behind a field name to `strtoull` or `strtod`. The log is not
terminated by a zero byte, so nothing but its own bytes stops such a scan. It
leaves the log when the log ends inside the number, or in front of it. This
can happen in the last record only.

## Implementation notes

A place in memory is its offset from the first byte of the log. `find` looks
at the view alone, so the addresses listed here are those of the scans.
-/

namespace QueryPlayback

/-- The memory from the pointer on is the rest of the log. -/
def StringRef.PointsInto (data : StringRef) (log : Bytes) : Prop :=
  ∃ front : Bytes, front.length = data.offset ∧ log = front ++ data.memory

/-- The same view with more memory behind the log. -/
def StringRef.followedBy (data : StringRef) (x : Bytes) : StringRef :=
  { data with after := data.after ++ x }

namespace QueryLogData

/-- The addresses read by a scan that starts behind the first occurrence of a field name. -/
def fieldReads {σ : Type} (scan : Scanner σ Byte) (data : StringRef) (name : Bytes)
    (skip : Nat) : List Nat :=
  match find data name with
  | some location =>
      scan.reads (data.offset + (location + skip)) (data.memory.drop (location + skip))
  | none => []

/-- The addresses the scan of `parseThreadId()` reads, none when the id is cached. -/
def parseThreadIdReads (d : QueryLogData) : List Nat :=
  if d.threadId ≠ 0 then []
  else if (find d.data (bytes "Thread_id: ")).isSome then
    fieldReads Scan.strtoullScanner d.data (bytes "Thread_id: ") (bytes "Thread_Id: ").length
  else fieldReads Scan.strtoullScanner d.data (bytes "Id: ") (bytes "Id: ").length

/-- The addresses the scan of `parseRowsSent()` reads. -/
def parseRowsSentReads (d : QueryLogData) : List Nat :=
  fieldReads Scan.strtoullScanner d.data (bytes "Rows_sent: ") (bytes "Rows_sent: ").length

/-- The addresses the scan of `parseRowsExamined()` reads. -/
def parseRowsExaminedReads (d : QueryLogData) : List Nat :=
  fieldReads Scan.strtoullScanner d.data (bytes "Rows_Examined: ")
    (bytes "Rows_examined: ").length

/-- The addresses the scan of `parseQueryTime()` reads. -/
def parseQueryTimeReads (d : QueryLogData) : List Nat :=
  fieldReads Scan.strtodScanner d.data (bytes "Query_time: ") (bytes "Query_time: ").length

/-- The four readers read inside a log of the given size. The sorting stage asks
for the thread id before it is cached and later callers find it cached, so
every content of the cache counts. -/
def ScansInside (size : Nat) (d : QueryLogData) : Prop :=
  ∀ id : UInt64, ∀ address,
    address ∈ { d with threadId := id }.parseThreadIdReads ∨
      address ∈ d.parseRowsSentReads ∨ address ∈ d.parseRowsExaminedReads ∨
        address ∈ d.parseQueryTimeReads → address < size

/-- The field `parseThreadId()` reads: the older name comes first. -/
def threadIdField (data : StringRef) : Option Bytes :=
  (field data (bytes "Thread_id: ") (bytes "Thread_Id: ").length).or
    (field data (bytes "Id: ") (bytes "Id: ").length)

/-- Behind no field name that the view contains does the log end inside the
number or in front of it. -/
structure NumbersFinished (data : StringRef) : Prop where
  threadId : ∀ s ∈ threadIdField data, Scan.unfinishedInteger s = false
  rowsSent : ∀ s ∈ field data (bytes "Rows_sent: ") (bytes "Rows_sent: ").length,
    Scan.unfinishedInteger s = false
  rowsExamined : ∀ s ∈ field data (bytes "Rows_Examined: ") (bytes "Rows_examined: ").length,
    Scan.unfinishedInteger s = false
  queryTime : ∀ s ∈ field data (bytes "Query_time: ") (bytes "Query_time: ").length,
    Scan.unfinishedFloat s = false

section Readers

variable {data : StringRef} {log : Bytes}

/-- A field name that is found ends inside the view. -/
theorem find_add_le {name : Bytes} {location : Nat} (h : find data name = some location) :
    location + name.length ≤ data.chars.length := search_add_length_le h

/-- Two names are searched in one spelling and skipped in another. -/
theorem skip_eq : (bytes "Thread_Id: ").length = (bytes "Thread_id: ").length ∧
    (bytes "Rows_examined: ").length = (bytes "Rows_Examined: ").length := by
  decide

/-- A scan behind a field name stays inside the log exactly if it does not
overrun the rest of the log. -/
theorem fieldReads_lt_iff {σ : Type} (scan : Scanner σ Byte) (name : Bytes) {skip : Nat}
    (hlog : data.PointsInto log) (hskip : skip = name.length) :
    (∀ address ∈ fieldReads scan data name skip, address < log.length) ↔
      ∀ s ∈ field data name skip, scan.overruns s = false := by
  subst hskip
  cases h : find data name with
  | none => simp [fieldReads, field, h]
  | some location =>
      have hend : log.length = data.offset + (location + name.length) +
          (data.memory.drop (location + name.length)).length := by
        obtain ⟨front, hfront, rfl⟩ := hlog
        have hle := find_add_le h
        rw [List.length_append, hfront, StringRef.memory, List.length_drop, List.length_append]
        omega
      simp only [fieldReads, field, h, hend, Option.map_some, Option.mem_some_iff, forall_eq']
      exact Scanner.reads_lt_iff _ _

/-- With an empty cache the thread id is read from the log. -/
theorem parseThreadIdReads_lt_iff {d : QueryLogData} (hlog : d.data.PointsInto log)
    (hcache : d.threadId = 0) :
    (∀ address ∈ d.parseThreadIdReads, address < log.length) ↔
      ∀ s ∈ threadIdField d.data, Scan.unfinishedInteger s = false := by
  simp only [parseThreadIdReads, hcache, ne_eq, not_true_eq_false, if_false,
    ← Scan.strtoullScanner_overruns]
  cases h : find d.data (bytes "Thread_id: ") with
  | some location =>
      have hfield : threadIdField d.data =
          field d.data (bytes "Thread_id: ") (bytes "Thread_Id: ").length := by
        rw [threadIdField, field, h]
        rfl
      simp only [hfield, Option.isSome_some, if_true]
      exact fieldReads_lt_iff _ _ hlog skip_eq.1
  | none =>
      have hfield : threadIdField d.data = field d.data (bytes "Id: ") (bytes "Id: ").length := by
        rw [threadIdField, field, h]
        rfl
      simp only [hfield, Option.isSome_none, Bool.false_eq_true, if_false]
      exact fieldReads_lt_iff _ _ hlog rfl

/-- With a filled cache nothing is read. -/
theorem mem_parseThreadIdReads {d : QueryLogData} {id : UInt64} {address : Nat}
    (h : address ∈ { d with threadId := id }.parseThreadIdReads) :
    address ∈ { d with threadId := 0 }.parseThreadIdReads := by
  by_cases hid : id = 0
  · rwa [hid] at h
  · simp [parseThreadIdReads, hid] at h

/-- The readers of an entry stay inside the log exactly if its numbers are finished. -/
theorem scansInside_iff {d : QueryLogData} (hlog : d.data.PointsInto log) :
    d.ScansInside log.length ↔ NumbersFinished d.data := by
  have hid := parseThreadIdReads_lt_iff (d := { d with threadId := 0 }) hlog rfl
  have hsent := fieldReads_lt_iff Scan.strtoullScanner (bytes "Rows_sent: ") hlog rfl
  have hexamined := fieldReads_lt_iff Scan.strtoullScanner (bytes "Rows_Examined: ") hlog
    skip_eq.2
  have htime := fieldReads_lt_iff Scan.strtodScanner (bytes "Query_time: ") hlog rfl
  simp only [Scan.strtoullScanner_overruns, Scan.strtodScanner_overruns] at hsent hexamined htime
  constructor
  · intro h
    exact
      { threadId := hid.mp fun address ha => h 0 address (Or.inl ha)
        rowsSent := hsent.mp fun address ha => h 0 address (Or.inr (Or.inl ha))
        rowsExamined := hexamined.mp fun address ha => h 0 address (Or.inr (Or.inr (Or.inl ha)))
        queryTime := htime.mp fun address ha => h 0 address (Or.inr (Or.inr (Or.inr ha))) }
  · rintro h id address (ha | ha | ha | ha)
    · exact hid.mpr h.threadId address (mem_parseThreadIdReads ha)
    · exact hsent.mpr h.rowsSent address ha
    · exact hexamined.mpr h.rowsExamined address ha
    · exact htime.mpr h.queryTime address ha

end Readers

section Finished

variable {data : StringRef} {log : Bytes}

/-- The field names the readers look for. -/
def fieldNames : List Bytes :=
  [bytes "Thread_id: ", bytes "Id: ", bytes "Rows_sent: ", bytes "Rows_Examined: ",
    bytes "Query_time: "]

/-- What is finished behind every field name is finished for every reader. -/
theorem numbersFinished_of_fields
    (h : ∀ name ∈ fieldNames, ∀ s ∈ field data name name.length,
      Scan.unfinishedInteger s = false ∧ Scan.unfinishedFloat s = false) :
    NumbersFinished data where
  threadId s hs := by
    rw [threadIdField, skip_eq.1, Option.mem_def, Option.or_eq_some_iff] at hs
    rcases hs with hs | ⟨-, hs⟩
    · exact (h (bytes "Thread_id: ") (by simp [fieldNames]) s hs).1
    · exact (h (bytes "Id: ") (by simp [fieldNames]) s hs).1
  rowsSent s hs := (h (bytes "Rows_sent: ") (by simp [fieldNames]) s hs).1
  rowsExamined s hs := by
    rw [skip_eq.2] at hs
    exact (h (bytes "Rows_Examined: ") (by simp [fieldNames]) s hs).1
  queryTime s hs := (h (bytes "Query_time: ") (by simp [fieldNames]) s hs).2

/-- A field is what stands behind an occurrence of its name, with all that follows the view. -/
theorem append_of_mem_field {name s : Bytes} (h : s ∈ field data name name.length) :
    data.after <:+ s ∧ ∃ front, data.memory = front ++ name ++ s := by
  obtain ⟨location, hfind, rfl⟩ := Option.map_eq_some_iff.mp h
  rw [StringRef.memory, List.drop_append_of_le_length (find_add_le hfind)]
  refine ⟨List.suffix_append _ _, data.chars.take location, ?_⟩
  rw [← List.append_assoc, ← search_split hfind]

/-- A byte of no number that stands behind the view ends all numbers of the view. -/
theorem numbersFinished_of_after {c : Byte} (hc : Scan.isForeign c = true) (h : c ∈ data.after) :
    NumbersFinished data := by
  refine numbersFinished_of_fields fun name _ s hs => ?_
  have hmem : c ∈ s := (append_of_mem_field hs).1.subset h
  exact ⟨Scan.unfinishedInteger_of_foreign hc hmem, Scan.unfinishedFloat_of_foreign hc hmem⟩

/-- Nothing that ends in a blank reaches into the end of a statement. -/
theorem mem_of_closed {log s : Bytes} (hclosed : bytes ";\n" <:+ log) (hs : 32 :: s <:+ log) :
    (59 : Byte) ∈ s := by
  by_cases hlength : 2 ≤ s.length
  · have htail : bytes ";\n" <:+ s :=
      List.suffix_of_suffix_length_le hclosed ((List.suffix_cons 32 s).trans hs) hlength
    exact htail.subset (by decide)
  · have hshort : 32 :: s <:+ bytes ";\n" :=
      List.suffix_of_suffix_length_le hs hclosed (by simp [bytes]; omega)
    cases s with
    | nil => exact absurd hshort (by decide)
    | cons a s =>
        cases s with
        | nil => exact absurd (hshort.eq_of_length rfl) (by simp [bytes])
        | cons b s => exact absurd (Nat.le_add_left 2 s.length) hlength

/-- A log that ends with a finished statement cuts off no number. -/
theorem numbersFinished_of_closed (hlog : data.PointsInto log) (hclosed : bytes ";\n" <:+ log) :
    NumbersFinished data := by
  have hblanks : ∀ name ∈ fieldNames, name.getLast? = some 32 := by decide
  refine numbersFinished_of_fields fun name hname s hs => ?_
  obtain ⟨word, rfl⟩ := List.getLast?_eq_some_iff.mp (hblanks name hname)
  obtain ⟨front, -, rfl⟩ := hlog
  obtain ⟨-, front', hmemory⟩ := append_of_mem_field hs
  have hsuffix : 32 :: s <:+ front ++ data.memory :=
    ⟨front ++ (front' ++ word), by rw [hmemory]; simp⟩
  have hmem := mem_of_closed hclosed hsuffix
  exact ⟨Scan.unfinishedInteger_of_foreign (by decide) hmem,
    Scan.unfinishedFloat_of_foreign (by decide) hmem⟩

end Finished

section Values

theorem field_followedBy (data : StringRef) (name x : Bytes) :
    field (data.followedBy x) name name.length =
      (field data name name.length).map (· ++ x) := by
  rw [field, field, Option.map_map]
  change (find data name).map _ = _
  refine Option.map_congr fun location hfind => ?_
  have hle : location + name.length ≤ data.memory.length := by
    have hle := find_add_le hfind
    rw [StringRef.memory, List.length_append]
    omega
  change (data.chars ++ (data.after ++ x)).drop (location + name.length) =
    data.memory.drop (location + name.length) ++ x
  rw [← List.append_assoc, ← StringRef.memory, List.drop_append_of_le_length hle]

theorem threadIdField_followedBy (data : StringRef) (x : Bytes) :
    threadIdField (data.followedBy x) = (threadIdField data).map (· ++ x) := by
  rw [threadIdField, threadIdField, skip_eq.1, field_followedBy, field_followedBy, Option.map_or]

/-- With an empty cache the thread id is the number in its field. -/
theorem getThreadId_of_empty {d : QueryLogData} (hcache : d.threadId = 0) :
    d.getThreadId = ((threadIdField d.data).map Scan.strtoull).getD 0 := by
  simp only [getThreadId, parseThreadId, hcache, ne_eq, not_true_eq_false, if_false, threadIdField]
  cases field d.data (bytes "Thread_id: ") (bytes "Thread_Id: ").length with
  | some s => rfl
  | none => cases field d.data (bytes "Id: ") (bytes "Id: ").length <;> rfl

/-- What an entry with finished numbers says does not depend on the memory behind the log. -/
theorem values_followedBy {d : QueryLogData} (h : NumbersFinished d.data) (x : Bytes) :
    { d with data := d.data.followedBy x }.getThreadId = d.getThreadId ∧
      { d with data := d.data.followedBy x }.parseRowsSent = d.parseRowsSent ∧
      { d with data := d.data.followedBy x }.parseRowsExamined = d.parseRowsExamined ∧
      parseQueryTime (d.data.followedBy x) = parseQueryTime d.data := by
  refine ⟨?_, ?_, ?_, ?_⟩
  · by_cases hcache : d.threadId = 0
    · have hid := getThreadId_of_empty (d := { d with data := d.data.followedBy x }) hcache
      rw [hid, getThreadId_of_empty hcache, threadIdField_followedBy]
      cases hfield : threadIdField d.data with
      | none => rfl
      | some s => exact Scan.strtoull_append (h.threadId s hfield) x
    · simp only [getThreadId, parseThreadId, ne_eq, hcache, not_false_eq_true, if_true]
  · rw [parseRowsSent, parseRowsSent, field_followedBy]
    cases hfield : field d.data (bytes "Rows_sent: ") (bytes "Rows_sent: ").length with
    | none => rfl
    | some s => exact Scan.strtoull_append (h.rowsSent s hfield) x
  · rw [parseRowsExamined, parseRowsExamined, skip_eq.2, field_followedBy]
    cases hfield : field d.data (bytes "Rows_Examined: ") (bytes "Rows_Examined: ").length with
    | none => rfl
    | some s =>
        have hfinished := h.rowsExamined s (by rw [skip_eq.2, hfield]; rfl)
        exact Scan.strtoull_append hfinished x
  · rw [parseQueryTime, parseQueryTime, field_followedBy]
    cases hfield : field d.data (bytes "Query_time: ") (bytes "Query_time: ").length with
    | none => rfl
    | some s => exact Scan.strtod_append (h.queryTime s hfield) x

end Values

end QueryLogData

section Blocks

variable (mktime : Tm → Int)

/-- A header starts with the sign of a comment. -/
theorem head?_header {l : Bytes} (h : isHeader l = true) (x : Bytes) :
    (l ++ x).head? = some hash := by
  have hcomment : isComment l = true := by
    by_contra hnot
    rw [isHeader_of_not_isComment (by simpa using hnot)] at h
    cases h
  obtain ⟨rest, rfl⟩ := List.isPrefixOf_iff_prefix.mp hcomment
  rfl

/-- Behind a block stands a header or what follows the last line. -/
theorem blocks_after {after : Bytes} {offset : Nat} {time : TimePoint} {ls : List Bytes}
    {b : Block} (h : b ∈ blocks mktime after offset time ls) :
    b.after = after ∨ b.after.head? = some hash := by
  induction offset, time, ls using blocks.induct mktime with
  | case1 => simp [blocks] at h
  | case2 offset time l rest hc ih =>
      rw [blocks, if_pos hc] at h
      exact ih h
  | case3 offset time l rest hc ht ih =>
      rw [blocks, if_neg hc, if_pos ht] at h
      exact ih h
  | case4 offset time l rest hc ht body others ih =>
      rw [blocks, if_neg hc, if_neg ht] at h
      rcases List.mem_cons.mp h with rfl | h
      · change others.flatten ++ after = after ∨ (others.flatten ++ after).head? = some hash
        cases hothers : others with
        | nil => exact Or.inl rfl
        | cons header rest' =>
            have hheader := List.head?_dropWhile_not (!isHeader ·) rest
            rw [show rest.dropWhile (!isHeader ·) = header :: rest' from hothers] at hheader
            rw [List.flatten_cons, List.append_assoc]
            exact Or.inr (head?_header (by simpa using hheader) _)
      · exact ih h

/-- The memory of a block is the rest of the lines and what follows them. -/
theorem blocks_memory {after : Bytes} {offset : Nat} {time : TimePoint} {ls : List Bytes}
    {b : Block} (h : b ∈ blocks mktime after offset time ls) :
    ∃ front : Bytes, b.offset = offset + front.length ∧
      ls.flatten ++ after = front ++ b.view.memory := by
  induction offset, time, ls using blocks.induct mktime with
  | case1 => simp [blocks] at h
  | case2 offset time l rest hc ih =>
      rw [blocks, if_pos hc] at h
      obtain ⟨front, hoffset, hmemory⟩ := ih h
      refine ⟨l ++ front, by rw [hoffset, List.length_append, Nat.add_assoc], ?_⟩
      rw [List.flatten_cons, List.append_assoc, hmemory, List.append_assoc]
  | case3 offset time l rest hc ht ih =>
      rw [blocks, if_neg hc, if_pos ht] at h
      obtain ⟨front, hoffset, hmemory⟩ := ih h
      refine ⟨l ++ front, by rw [hoffset, List.length_append, Nat.add_assoc], ?_⟩
      rw [List.flatten_cons, List.append_assoc, hmemory, List.append_assoc]
  | case4 offset time l rest hc ht body others ih =>
      rw [blocks, if_neg hc, if_neg ht] at h
      have hall : (l :: rest).flatten = body.flatten ++ others.flatten := by
        rw [← List.flatten_append]
        change _ = (l :: (rest.takeWhile (!isHeader ·) ++ others)).flatten
        rw [List.takeWhile_append_dropWhile]
      rcases List.mem_cons.mp h with rfl | h
      · refine ⟨[], rfl, ?_⟩
        rw [hall, List.append_assoc]
        rfl
      · obtain ⟨front, hoffset, hmemory⟩ := ih h
        refine ⟨body.flatten ++ front, by rw [hoffset, List.length_append, Nat.add_assoc], ?_⟩
        rw [hall, List.append_assoc, hmemory, List.append_assoc]

/-- The view of an entry is the view of a block. -/
theorem exists_block_of_mem {mktime : Tm → Int} {options : QueryLogOptions} {data : StringRef}
    {q : QueryLogEntries} {accurate : Bool}
    (h : getEntries mktime options data = some (q, accurate)) {d : QueryLogData}
    (hd : d ∈ q.entries) : ∃ b ∈ logBlocks mktime data, d.data = b.view := by
  obtain ⟨b, hb, hview⟩ := List.mem_map.mp
    ((getEntries_views mktime h).mem_iff.mp (List.mem_map_of_mem hd))
  exact ⟨b, List.mem_of_mem_filter hb, hview.symm⟩

end Blocks

section Entries

variable {mktime : Tm → Int} {options : QueryLogOptions} {log : Bytes} {q : QueryLogEntries}
  {accurate : Bool} {d : QueryLogData}

/-- Every entry points into the log. Behind its view stands nothing or the header
of the next record. -/
theorem getEntries_pointsInto
    (h : getEntries mktime options (StringRef.ofBytes log) = some (q, accurate))
    (hd : d ∈ q.entries) :
    d.data.PointsInto log ∧ (d.data.after = [] ∨ d.data.after.head? = some hash) := by
  obtain ⟨b, hb, hview⟩ := exists_block_of_mem h hd
  obtain ⟨front, hoffset, hmemory⟩ := blocks_memory mktime hb
  rw [Lines.flatten_lines] at hmemory
  rw [hview]
  refine ⟨⟨front, ?_, ?_⟩, blocks_after mktime hb⟩
  · exact (hoffset.trans (Nat.zero_add _)).symm
  · exact (List.append_nil log).symm.trans hmemory

/-- The readers of an entry read inside the log exactly if the log does not end
inside one of the entry's numbers or in front of it. -/
theorem getEntries_scansInside_iff
    (h : getEntries mktime options (StringRef.ofBytes log) = some (q, accurate))
    (hd : d ∈ q.entries) : d.ScansInside log.length ↔ QueryLogData.NumbersFinished d.data :=
  QueryLogData.scansInside_iff (getEntries_pointsInto h hd).1

/-- A log that ends inside a comment of its last statement. -/
def truncatedLog : Bytes :=
  bytes "# User@Host: app[app] @ localhost []\n" ++
    bytes "# Query_time: 0.5  Lock_time: 0.0  Rows_sent: 1  Rows_examined: 4\n" ++
      bytes "select 1 -- Id: 7"

/-- The reader of the thread id looks at the byte behind the log. -/
theorem truncatedLog_leaves :
    ∃ (q : QueryLogEntries) (accurate : Bool) (d : QueryLogData),
      getEntries (fun td => td.sec) ⟨false, false, false, true⟩ (StringRef.ofBytes truncatedLog) =
          some (q, accurate) ∧
        d ∈ q.entries ∧ truncatedLog.length ∈ d.parseThreadIdReads ∧
        ¬ d.ScansInside truncatedLog.length := by
  have hreads : (getEntries (fun td => td.sec) ⟨false, false, false, true⟩
      (StringRef.ofBytes truncatedLog)).map
        (fun e => e.1.entries.map QueryLogData.parseThreadIdReads) = some [[119, 120]] := by
    decide +kernel
  obtain ⟨⟨q, accurate⟩, hentries, hlist⟩ := Option.map_eq_some_iff.mp hreads
  obtain ⟨d, hd, hread⟩ := List.mem_map.mp (hlist ▸ List.mem_singleton_self [119, 120])
  have hbeyond : truncatedLog.length ∈ d.parseThreadIdReads := by
    rw [hread]
    decide +kernel
  exact ⟨q, accurate, d, hentries, hd, hbeyond, fun h =>
    lt_irrefl _ (h d.threadId _ (Or.inl hbeyond))⟩

/-- The same log with its last statement finished. -/
def finishedLog : Bytes := truncatedLog ++ bytes ";\n"

/-- With the last statement finished the same readers stay inside the log. -/
theorem getEntries_scansInside_finished :
    ∃ (q : QueryLogEntries) (accurate : Bool) (d : QueryLogData),
      getEntries (fun td => td.sec) ⟨false, false, false, true⟩ (StringRef.ofBytes finishedLog) =
          some (q, accurate) ∧
        d ∈ q.entries ∧ d.ScansInside finishedLog.length := by
  have hreads : (getEntries (fun td => td.sec) ⟨false, false, false, true⟩
      (StringRef.ofBytes finishedLog)).map
        (fun e => e.1.entries.map QueryLogData.parseThreadIdReads) = some [[119, 120]] := by
    decide +kernel
  obtain ⟨⟨q, accurate⟩, hentries, hlist⟩ := Option.map_eq_some_iff.mp hreads
  obtain ⟨d, hd, -⟩ := List.mem_map.mp (hlist ▸ List.mem_singleton_self [119, 120])
  have hfinished : QueryLogData.NumbersFinished d.data :=
    QueryLogData.numbersFinished_of_closed (getEntries_pointsInto hentries hd).1
      (List.suffix_append truncatedLog (bytes ";\n"))
  exact ⟨q, accurate, d, hentries, hd, (getEntries_scansInside_iff hentries hd).mpr hfinished⟩

/-- Only the last record of a log can send a reader beyond the end. -/
theorem getEntries_scansInside_of_followed
    (h : getEntries mktime options (StringRef.ofBytes log) = some (q, accurate))
    (hd : d ∈ q.entries) (hnext : d.data.after ≠ []) : d.ScansInside log.length := by
  obtain ⟨hlog, hafter⟩ := getEntries_pointsInto h hd
  have hhash : hash ∈ d.data.after := List.mem_of_head? (hafter.resolve_left hnext)
  exact (QueryLogData.scansInside_iff hlog).mpr
    (QueryLogData.numbersFinished_of_after (by decide) hhash)

/-- In a log whose last statement is finished every reader stays inside the log. -/
theorem getEntries_scansInside_of_closed
    (h : getEntries mktime options (StringRef.ofBytes log) = some (q, accurate))
    (hclosed : bytes ";\n" <:+ log) (hd : d ∈ q.entries) : d.ScansInside log.length := by
  obtain ⟨hlog, -⟩ := getEntries_pointsInto h hd
  exact (QueryLogData.scansInside_iff hlog).mpr
    (QueryLogData.numbersFinished_of_closed hlog hclosed)

/-- An entry whose readers stay inside the log takes its values from the log alone. -/
theorem getEntries_values_of_scansInside
    (h : getEntries mktime options (StringRef.ofBytes log) = some (q, accurate))
    (hd : d ∈ q.entries) (hinside : d.ScansInside log.length) (x : Bytes) :
    { d with data := d.data.followedBy x }.getThreadId = d.getThreadId ∧
      { d with data := d.data.followedBy x }.parseRowsSent = d.parseRowsSent ∧
      { d with data := d.data.followedBy x }.parseRowsExamined = d.parseRowsExamined ∧
      QueryLogData.parseQueryTime (d.data.followedBy x) = QueryLogData.parseQueryTime d.data := by
  obtain ⟨hlog, -⟩ := getEntries_pointsInto h hd
  exact QueryLogData.values_followedBy ((QueryLogData.scansInside_iff hlog).mp hinside) x

end Entries

end QueryPlayback
