import QueryPlayback.Lib.Sections
import QueryPlayback.QueryLog.Account
import QueryPlayback.QueryLog.Entries
import QueryPlayback.QueryLog.ScanBounds

/-!
# The records of a slow log by their bytes

What a connection has to execute is found in the records of the log alone:
neither the clock nor the sorting nor what stands behind a record in the log
plays a part in it. A number that the end of the log would cut off is ended by
the next record just as well.
-/

namespace QueryPlayback

open Lines Sections

section Numbers

/-- A byte that stands in no number ends it like the end of the text. -/
theorem takeWhile_append_of_head {p : Byte → Bool} {c : Byte} (hc : p c = false) (u rest : Bytes) :
    (u ++ c :: rest).takeWhile p = u.takeWhile p := by
  rw [List.takeWhile_append, List.takeWhile_cons_of_neg (by simp [hc]), List.append_nil]
  split
  · rename_i hlength
    exact ((List.takeWhile_prefix p).eq_of_length hlength).symm
  · rfl

theorem dropWhile_append_of_head {p : Byte → Bool} {c : Byte} (hc : p c = false) (u rest : Bytes) :
    (u ++ c :: rest).dropWhile p = u.dropWhile p ++ c :: rest := by
  rw [List.dropWhile_append, List.dropWhile_cons_of_neg (by simp [hc])]
  split
  · rename_i hnil
    rw [List.isEmpty_iff.mp hnil, List.nil_append]
  · rfl

/-- The next record ends a number like the end of the log. -/
theorem Scan.strtoull_append_hash (u rest : Bytes) :
    Scan.strtoull (u ++ hash :: rest) = Scan.strtoull u := by
  have hsign : ∀ v : Bytes, Scan.takeSign (v ++ hash :: rest) =
      ((Scan.takeSign v).1, (Scan.takeSign v).2 ++ hash :: rest) := by
    intro v
    cases v with
    | nil => rfl
    | cons c v => exact Scan.takeSign_append (List.cons_ne_nil c v) _
  simp only [Scan.strtoull, dropWhile_append_of_head (show Scan.isSpace hash = false from rfl),
    hsign, takeWhile_append_of_head (show Scan.isDigit hash = false from rfl)]

end Numbers

namespace QueryLogData

/-- The entry of a record that is read by itself. -/
def ofChars (chars : Bytes) : QueryLogData := new (StringRef.ofBytes chars) epoch

theorem getThreadId_ofChars {data : StringRef} (endTime : TimePoint)
    (h : data.after = [] ∨ data.after.head? = some hash) :
    (new data endTime).getThreadId = (ofChars data.chars).getThreadId := by
  obtain ⟨offset, chars, after⟩ := data
  have hfield : threadIdField ⟨offset, chars, after⟩ =
      (threadIdField (StringRef.ofBytes chars)).map (· ++ after) :=
    threadIdField_followedBy (StringRef.ofBytes chars) after
  rw [getThreadId_of_empty rfl, getThreadId_of_empty rfl, ofChars, new_data, new_data, hfield,
    Option.map_map]
  congr 1
  refine Option.map_congr fun s _ => ?_
  rcases h with rfl | hhead
  · exact congrArg Scan.strtoull (List.append_nil s)
  · obtain ⟨rest, rfl⟩ := List.head?_eq_some_iff.mp hhead
    exact Scan.strtoull_append_hash s rest

/-- The text of an entry is found in its own bytes. -/
theorem getQuery_ofChars (d : QueryLogData) (removeTimestamp : Bool) :
    d.getQuery removeTimestamp = (ofChars d.data.chars).getQuery removeTimestamp := by
  rw [getQuery_eq_foldl, getQuery_eq_foldl]
  rfl

theorem isQuit_ofChars (d : QueryLogData) : d.isQuit = (ofChars d.data.chars).isQuit := rfl

/-- The sorting stage keeps the records of every connection in their order. -/
theorem map_data_filter_preprocess (options : QueryLogOptions) (entries : List QueryLogData)
    (id : UInt64) : ((preprocess options entries).filter (·.getThreadId = id)).map data =
      (entries.filter (·.getThreadId = id)).map data := by
  have hviews : ∀ l : List QueryLogData, (l.filter (·.getThreadId = id)).map data =
      ((l.map fun d => (d.data, d.getThreadId)).filter (·.2 = id)).map Prod.fst := by
    intro l
    rw [List.filter_map, List.map_map]
    rfl
  unfold preprocess
  split
  · rw [filter_sortEntries, hviews, adjustStartTimes_identity, ← hviews]
  · rfl

end QueryLogData

/-- The records of the log that have a statement. -/
def recordTexts (log : Bytes) : List Bytes :=
  ((sections opensRecord isHeader (lines newline log)).filter
    (·.any (!isComment ·))).map List.flatten

/-- A log that is cut off has the records of the whole log, but for the last one at most. -/
theorem recordTexts_cut (log more : Bytes) : ∃ front last, recordTexts log = front ++ last ∧
    last.length ≤ 1 ∧ front <+: recordTexts (log ++ more) := by
  obtain ⟨whole, rest, others, hlog, hrest, hall⟩ := lines_cut newline log more
  obtain ⟨front, last, tail, hsections, hfront, hlast, htail⟩ :=
    @sections_cut _ opensRecord isHeader whole _ hrest others
  have hnone : tail.filter (·.any (!isComment ·)) = [] := by
    rw [List.filter_eq_nil_iff]
    intro s hs
    have hmem : s ∈ sections opensRecord isHeader (whole ++ rest) := by
      rw [hsections]
      exact List.mem_append_right _ (List.mem_append_right _ hs)
    -- a line that opens a record is no statement
    obtain ⟨l, behind, rfl, hopens⟩ := exists_of_mem hmem
    rw [← htail _ hs, List.length_cons] at hrest
    obtain rfl : behind = [] := List.length_eq_zero_iff.mp (by omega)
    rw [opensRecord, Bool.and_eq_true] at hopens
    simp [hopens.1]
  refine ⟨(front.filter (·.any (!isComment ·))).map List.flatten,
    (last.filter (·.any (!isComment ·))).map List.flatten, ?_, ?_, ?_⟩
  · rw [recordTexts, hlog, hsections, List.filter_append, List.filter_append, hnone,
      List.append_nil, List.map_append]
  · rw [List.length_map]
    exact (List.length_filter_le _ last).trans hlast
  · rw [recordTexts, hall]
    exact (hfront.filter _).map _

/-- Logs that meet in front of a header have their records one behind the other. -/
theorem recordTexts_append {log more : Bytes} (hend : log = [] ∨ log.getLast? = some newline)
    (hbegin : ∀ l ∈ (lines newline more).head?, isHeader l = true) :
    recordTexts (log ++ more) = recordTexts log ++ recordTexts more := by
  rw [recordTexts, lines_append newline (Or.inl hend), sections_append hbegin, List.filter_append,
    List.map_append]
  rfl

variable (mktime : Tm → Int)

/-- The blocks are the sections, whatever the clock shows. -/
theorem map_lines_blocks (after : Bytes) (offset : ℕ) (time : TimePoint) (ls : List Bytes) :
    (blocks mktime after offset time ls).map Block.lines = sections opensRecord isHeader ls := by
  induction offset, time, ls using blocks.induct mktime with
  | case1 => rw [blocks, sections_nil, List.map_nil]
  | case2 offset time l rest hc ih =>
      have hopens : opensRecord l = false := by
        rw [opensRecord, show isComment l = false by simpa using hc, Bool.false_and]
      rw [blocks, if_pos hc, ih, sections_cons_of_not_opens hopens]
  | case3 offset time l rest hc ht ih =>
      have hopens : opensRecord l = false := by rw [opensRecord, ht, Bool.not_true, Bool.and_false]
      rw [blocks, if_neg hc, if_pos ht, ih, sections_cons_of_not_opens hopens]
  | case4 offset time l rest hc ht body others ih =>
      have hopens : opensRecord l = true := by
        rw [opensRecord, show isComment l = true by simpa using hc,
          show isTimeLine l = false by simpa using ht]
        rfl
      rw [blocks, if_neg hc, if_neg ht, sections_cons_of_opens hopens, List.map_cons, ih]

theorem recordTexts_eq_blocks (log : Bytes) :
    recordTexts log =
      ((logBlocks mktime (StringRef.ofBytes log)).filter (·.hasSql)).map (·.lines.flatten) := by
  rw [recordTexts, ← map_lines_blocks mktime [] 0 epoch, List.filter_map, List.map_map]
  rfl

variable {mktime}

/-- Each connection has the records with its thread id, in the order of the log, however the
entries have been sorted. -/
theorem getEntries_connection {options : QueryLogOptions} {log : Bytes} {q : QueryLogEntries}
    {accurate : Bool} (h : getEntries mktime options (StringRef.ofBytes log) = some (q, accurate))
    (id : UInt64) : (q.entries.filter (·.getThreadId = id)).map (·.data.chars) =
      (recordTexts log).filter fun chars =>
        (QueryLogData.ofChars chars).getThreadId = id := by
  rw [getEntries_eq, Option.some.injEq, Prod.mk.injEq] at h
  obtain ⟨rfl, -⟩ := h
  dsimp only
  have hdata := congrArg (List.map StringRef.chars) (QueryLogData.map_data_filter_preprocess
    { options with accurateMode := accurateAfter mktime options (StringRef.ofBytes log) }
    (((logBlocks mktime (StringRef.ofBytes log)).filter (·.hasSql)).map Block.entry) id)
  rw [List.map_map, List.map_map] at hdata
  refine hdata.trans ?_
  rw [recordTexts_eq_blocks mktime, List.filter_map, List.filter_map, List.map_map]
  have hid : ∀ b ∈ (logBlocks mktime (StringRef.ofBytes log)).filter (·.hasSql),
      b.entry.getThreadId = (QueryLogData.ofChars b.lines.flatten).getThreadId := by
    intro b hb
    exact QueryLogData.getThreadId_ofChars b.time (blocks_after mktime (List.mem_of_mem_filter hb))
  rw [List.filter_congr fun b hb => by rw [Function.comp_apply, hid b hb]]
  rfl

end QueryPlayback
