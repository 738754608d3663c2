import QueryPlayback.QueryLog.RecordTexts
import QueryPlayback.QueryLog.TimeLines
import QueryPlayback.Playback.Sessions

/-!
# Logs that grow

What a connection executes when a log is replayed is put together from the
records of the log, each of which is read by itself. So it depends neither on
the sorting nor on the clock; a log may be cut off while the server still writes
it, and logs may be written one behind the other.
-/

namespace QueryPlayback

open QueryEntry QueryEntries Lines

section Records

variable (options : QueryLogOptions) (id : UInt64)

/-- What a record of a slow log has the connection execute. -/
def recordText? (chars : Bytes) : Option Bytes :=
  let d := QueryLogData.ofChars chars
  if d.getThreadId = id ∧ d.isQuit = false then some (d.getQuery (!options.runSetTimestamp))
  else none

/-- What a line of a general log has the connection execute. -/
def lineText? (line : Bytes) : Option Bytes :=
  (ParseGeneralLog.lineEntry line).bind fun e =>
    if e.threadId = id ∧ e.isQuit = false then some e.query else none

/-- The texts that the log of a plugin has the connection execute. -/
def InputPlugin.askedTexts (data : Bytes) : InputPlugin → List Bytes
  | queryLog => (recordTexts data).filterMap (recordText? options id)
  | generalLog => (lines newline data).filterMap (lineText? id)

variable {options id}

/-- The texts of the entries of one connection. -/
theorem texts_ofThread (entries : List AnyEntry) :
    texts options (ofThread id entries) = entries.filterMap fun e =>
      if getThreadId e = id ∧ isQuit e = false then some (e.query options) else none := by
  induction entries with
  | nil => rfl
  | cons e entries ih =>
      rw [List.filterMap_cons, ← ih, texts, texts, ofThread, ofThread, List.filter_cons]
      by_cases hid : getThreadId e = id
      · cases hquit : isQuit e <;> simp [hid, hquit]
      · simp [hid]

theorem texts_queryLog (entries : List QueryLogData) (flag : QueryLogData → Bool) :
    texts options (ofThread id ((entries.map fun d => (⟨d, flag d⟩ : QueryLogEntry)).map
      AnyEntry.queryLog)) = ((entries.filter (·.getThreadId = id)).map (·.data.chars)).filterMap
        fun chars => if (QueryLogData.ofChars chars).isQuit = false then
          some ((QueryLogData.ofChars chars).getQuery (!options.runSetTimestamp)) else none := by
  rw [texts_ofThread, List.map_map, List.filterMap_map, List.filterMap_map,
    List.filterMap_filter]
  refine List.filterMap_congr fun d _ => ?_
  change (if d.getThreadId = id ∧ d.isQuit = false then
      some (d.getQuery (!options.runSetTimestamp)) else none) = _
  rw [d.isQuit_ofChars, d.getQuery_ofChars]
  by_cases hid : d.getThreadId = id <;> simp [hid]

end Records

section Parsed

variable (mktime : Tm → Int) (options : QueryLogOptions) (plugin : InputPlugin)
  (accurateMode : Bool) (data : Bytes) (id : UInt64)

/-- The texts that the connection executes when the log is replayed. -/
abbrev connectionTexts : List Bytes :=
  texts options (ofThread id (parsedEntries mktime options plugin accurateMode data).toPop)

/-- They are found in the records of the log alone. -/
theorem connectionTexts_eq :
    connectionTexts mktime options plugin accurateMode data id =
      plugin.askedTexts options id data := by
  cases plugin with
  | queryLog =>
      have hget := getEntries_eq mktime { options with accurateMode := accurateMode }
        (StringRef.ofBytes data)
      have hconnection := getEntries_connection hget id
      rw [connectionTexts, parsedEntries, InputPlugin.getEntries, hget]
      refine (texts_queryLog _ _).trans ?_
      rw [hconnection, InputPlugin.askedTexts, List.filterMap_filter]
      refine List.filterMap_congr fun chars _ => ?_
      rw [recordText?]
      by_cases hid : (QueryLogData.ofChars chars).getThreadId = id <;> simp [hid]
  | generalLog =>
      have htoPop : (parsedEntries mktime options .generalLog accurateMode data).toPop =
          ((lines newline data).filterMap ParseGeneralLog.lineEntry).map .generalLog := by
        change ((ParseGeneralLog.getEntries data).entries.drop
          (ParseGeneralLog.getEntries data).pos).map _ = _
        rw [ParseGeneralLog.getEntries_pos, List.drop_zero, ParseGeneralLog.getEntries_entries]
      rw [connectionTexts, htoPop, texts_ofThread, List.filterMap_map, List.filterMap_filterMap]
      rfl

/-- Two statements of one connection, the first of which is the later one by the clock. -/
def timedLog : Bytes :=
  bytes "# Time: 120810  2:52:44\n# User@Host: a[a] @ h []\n# Thread_id: 7\nSELECT 1;\n" ++
    bytes "# Time: 120810  2:52:40\n# User@Host: a[a] @ h []\n# Thread_id: 7\nSELECT 2;\n"

/-- Neither the time zone nor the sorting nor the accurate mode has a part in what a connection
executes. -/
theorem connectionTexts_of_settings {options' : QueryLogOptions}
    (h : options'.runSetTimestamp = options.runSetTimestamp) (mktime' : Tm → Int)
    (accurateMode' : Bool) :
    connectionTexts mktime' options' plugin accurateMode' data id =
      connectionTexts mktime options plugin accurateMode data id := by
  have hrecord : recordText? options' id = recordText? options id := by
    funext chars
    rw [recordText?, recordText?, h]
  rw [connectionTexts_eq, connectionTexts_eq]
  cases plugin with
  | queryLog => rw [InputPlugin.askedTexts, InputPlugin.askedTexts, hrecord]
  | generalLog => rfl

theorem connectionTexts_of_settings_sample :
    connectionTexts utcMktime ⟨true, false, false, false⟩ .queryLog false timedLog 7 =
      connectionTexts (fun td => td.sec) ⟨true, true, true, true⟩ .queryLog true timedLog 7 :=
  @connectionTexts_of_settings (fun td => td.sec) ⟨true, true, true, true⟩ .queryLog true timedLog 7
    ⟨true, false, false, false⟩ rfl utcMktime false

/-- A log that is cut off anywhere has each connection execute what the whole log does, but for
one text at most. -/
theorem connectionTexts_of_cut (more : Bytes) : ∃ front last,
    connectionTexts mktime options plugin accurateMode data id = front ++ last ∧
      last.length ≤ 1 ∧
      front <+: connectionTexts mktime options plugin accurateMode (data ++ more) id := by
  rw [connectionTexts_eq, connectionTexts_eq]
  cases plugin with
  | queryLog =>
      obtain ⟨front, last, hrecords, hlast, hfront⟩ := recordTexts_cut data more
      refine ⟨front.filterMap (recordText? options id), last.filterMap (recordText? options id),
        ?_, (List.length_filterMap_le _ last).trans hlast, hfront.filterMap _⟩
      rw [InputPlugin.askedTexts, hrecords, List.filterMap_append]
  | generalLog =>
      obtain ⟨whole, rest, others, hlog, hrest, hall⟩ := lines_cut newline data more
      refine ⟨whole.filterMap (lineText? id), rest.filterMap (lineText? id), ?_,
        (List.length_filterMap_le _ rest).trans hrest, ?_⟩
      · rw [InputPlugin.askedTexts, hlog, List.filterMap_append]
      · rw [InputPlugin.askedTexts, hall, List.filterMap_append]
        exact List.prefix_append _ _

/-- A log ends with a line, and in a slow log the next one begins with a header. -/
def InputPlugin.Meet (log more : Bytes) (plugin : InputPlugin) : Prop :=
  (log = [] ∨ log.getLast? = some newline) ∧
    (plugin = queryLog → ∀ l ∈ (lines newline more).head?, isHeader l = true)

/-- Of two logs that are written one behind the other, each connection executes what it executes
of the first one and then what it executes of the second one. -/
theorem connectionTexts_append {data more : Bytes} (h : plugin.Meet data more) :
    connectionTexts mktime options plugin accurateMode (data ++ more) id =
      connectionTexts mktime options plugin accurateMode data id ++
        connectionTexts mktime options plugin accurateMode more id := by
  obtain ⟨hend, hbegin⟩ := h
  rw [connectionTexts_eq, connectionTexts_eq, connectionTexts_eq]
  cases plugin with
  | queryLog =>
      rw [InputPlugin.askedTexts, recordTexts_append hend (hbegin rfl), List.filterMap_append]
      rfl
  | generalLog =>
      rw [InputPlugin.askedTexts, lines_append newline (Or.inl hend), List.filterMap_append]
      rfl

/-- The log of two days. -/
theorem connectionTexts_append_sample :
    connectionTexts utcMktime sampleOptions .queryLog false (timedLog ++ timedLog) 7 =
      connectionTexts utcMktime sampleOptions .queryLog false timedLog 7 ++
        connectionTexts utcMktime sampleOptions .queryLog false timedLog 7 :=
  connectionTexts_append utcMktime sampleOptions .queryLog false 7
    ⟨Or.inr (by decide +kernel), fun _ => by decide +kernel⟩

end Parsed

end QueryPlayback
