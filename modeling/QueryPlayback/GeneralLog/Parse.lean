import QueryPlayback.GeneralLog.Entry
import QueryPlayback.Lib.Lines

/-!
# The parse loop of the general log

`ParseGeneralLog::getEntries` reads the log line by line. A line that is not
ignored is added to the current entry, and an entry with a text is stored at
once.

## Implementation notes

The members `next_line` and `next_len` are never set to anything but null and
zero, so the branches that read them are left out. `std::string(line)` ends at
the first zero byte, whereas the length is that of the whole line.
-/

namespace QueryPlayback

open Lines QueryEntry QueryEntries

/-- `class GeneralLogQueryEntries` with the counts of its base class. -/
structure GeneralLogQueryEntries where
  entries : List GeneralLogEntry := []
  pos : ℕ := 0
  numEntries : ℕ := 0
  numQueries : ℕ := 0
  deriving DecidableEq, Repr

namespace GeneralLogQueryEntries

/-- `popEntry()`. -/
def popEntry (q : GeneralLogQueryEntries) : Option (GeneralLogEntry × GeneralLogQueryEntries) :=
  (q.entries[q.pos]?).map fun e => (e, { q with pos := q.pos + 1 })

/-- The body of the loop in `setShutdownOnLastQueryOfConn`: the ids seen so far and the
entries behind this one. -/
def markStep (it : GeneralLogEntry) (st : List UInt64 × List GeneralLogEntry) :
    List UInt64 × List GeneralLogEntry :=
  if it.threadId ∈ st.1 then (st.1, it :: st.2)
  else (it.threadId :: st.1, it.setShutdown :: st.2)

/-- `setShutdownOnLastQueryOfConn()`, which goes from the last entry to the first one. -/
def setShutdownOnLastQueryOfConn (q : GeneralLogQueryEntries) : GeneralLogQueryEntries :=
  { q with entries := (q.entries.foldr markStep ([], [])).2 }

instance : QueryEntries GeneralLogQueryEntries GeneralLogEntry where
  popEntry := popEntry
  setShutdownOnLastQueryOfConn := setShutdownOnLastQueryOfConn

/-- The entries as they come out of `popEntry`. -/
theorem drains_entries (entries : List GeneralLogEntry) (numEntries numQueries : ℕ) :
    ∀ pos, Drains (⟨entries, pos, numEntries, numQueries⟩ : GeneralLogQueryEntries)
      (entries.drop pos) := by
  intro pos
  induction hrest : entries.drop pos generalizing pos with
  | nil =>
      apply Drains.done
      have hnone : entries[pos]? = none := by
        rw [← List.head?_drop, hrest, List.head?_nil]
      simp [QueryEntries.popEntry, popEntry, hnone]
  | cons e rest ih =>
      have hsome : entries[pos]? = some e := by
        rw [← List.head?_drop, hrest, List.head?_cons]
      have hnext : entries.drop (pos + 1) = rest := by
        rw [← List.drop_drop, hrest, List.drop_one, List.tail_cons]
      apply Drains.pop _ (ih (pos + 1) hnext)
      simp [QueryEntries.popEntry, popEntry, hsome]

end GeneralLogQueryEntries

namespace ParseGeneralLog

/-- `std::string(line)`. -/
def cString (line : Bytes) : Bytes := line.takeWhile (· ≠ 0)

theorem zero_not_mem_cString (line : Bytes) : 0 ∉ cString line := by
  intro hmem
  simpa using List.mem_takeWhile_imp hmem

/-- A text without a zero byte is read to its end. -/
theorem cString_append_of_not_mem {text : Bytes} (h : 0 ∉ text) (rest : Bytes) :
    cString (text ++ rest) = text ++ cString rest := by
  apply List.takeWhile_append_of_pos
  intro c hc
  have hne : c ≠ 0 := fun heq => h (heq ▸ hc)
  simpa using hne

theorem cString_of_not_mem {line : Bytes} (h : 0 ∉ line) : cString line = line := by
  have hread := cString_append_of_not_mem h []
  rwa [List.append_nil, show cString [] = [] from rfl, List.append_nil] at hread

/-- Behind a zero byte nothing is read. -/
theorem cString_append_of_mem {text : Bytes} (h : 0 ∈ text) (rest : Bytes) :
    cString (text ++ rest) = cString text := by
  rw [cString, List.takeWhile_append, if_neg]
  · rfl
  · intro hlength
    have hall := (List.takeWhile_prefix _).eq_of_length hlength
    simpa using List.takeWhile_eq_self_iff.mp hall 0 h

/-- The condition on which a line is ignored. -/
def ignoreLine (line : Bytes) : Bool :=
  [hash].isPrefixOf line ||
    (decide ((bytes "started with:\n").length ≤ line.length) &&
      (line.drop (line.length - (bytes "started with:\n").length)).take
        (bytes "started with:").length == bytes "started with:") ||
    (bytes "Tcp port: ").isPrefixOf line ||
    (bytes "Time Id Command Argument").isPrefixOf line

/-- The body of the loop: the stored entries and `tmp_entry`. -/
def readLine (st : List GeneralLogEntry × GeneralLogEntry) (line : Bytes) :
    List GeneralLogEntry × GeneralLogEntry :=
  if ignoreLine line then st
  else
    let tmp := st.2.addQueryLine (cString line)
    if tmp.query ≠ [] then (st.1 ++ [tmp], {}) else (st.1, tmp)

/-- `getEntries()` on everything `getline` delivers. -/
def getEntries (log : Bytes) : GeneralLogQueryEntries :=
  if log = [] then {}
  else
    let entries := ((lines newline log).foldl readLine ([], {})).1
    { entries := entries, pos := 0, numEntries := entries.length, numQueries := entries.length }

/-- The entry a line gives by itself. -/
def lineEntry (line : Bytes) : Option GeneralLogEntry :=
  if ignoreLine line then none
  else
    match Pattern.search GeneralLogEntry.regex (cString line) with
    | some [id, ns] =>
        some
          { threadId := Scan.strtoull id
            query := GeneralLogEntry.withoutTerminator ns ++ [32] }
    | _ => none

/-- The current entry is always new, so every line stands by itself. -/
theorem readLine_eq (entries : List GeneralLogEntry) (line : Bytes) :
    readLine (entries, {}) line = (entries ++ (lineEntry line).toList, {}) := by
  rw [readLine, lineEntry]
  split
  · simp
  · rw [GeneralLogEntry.addQueryLine]
    cases Pattern.search GeneralLogEntry.regex (cString line) with
    | none => simp
    | some groups =>
        -- only two groups make an entry
        obtain _ | ⟨id, _ | ⟨ns, _ | ⟨other, groups⟩⟩⟩ := groups <;> simp

theorem foldl_readLine (ls : List Bytes) (entries : List GeneralLogEntry) :
    ls.foldl readLine (entries, {}) = (entries ++ ls.filterMap lineEntry, {}) := by
  induction ls generalizing entries with
  | nil => simp
  | cons l ls ih =>
      rw [List.foldl_cons, readLine_eq, ih, List.filterMap_cons]
      cases lineEntry l <;> simp

/-- The entries are those of the lines that match. -/
theorem getEntries_entries (log : Bytes) :
    (getEntries log).entries = (lines newline log).filterMap lineEntry := by
  unfold getEntries
  split
  · rename_i hnil
    rw [hnil]
    rfl
  · rw [foldl_readLine, List.nil_append]

end ParseGeneralLog

end QueryPlayback
