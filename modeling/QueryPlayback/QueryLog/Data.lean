import QueryPlayback.Text.Scan

/-!
# One entry of the slow log

`QueryLogData` keeps a view of the record's metadata and statement lines and
reads every field from these bytes when it is asked for. Only the thread id is
cached, and only the start time is stored.

## Implementation notes

Points in time are unbounded integers. The code counts nanoseconds in 64 bits and
overflows beyond about 292 years, where the model does not follow it.
-/

namespace QueryPlayback

open Lines

/-- `system_clock::time_point` in nanoseconds; the default constructed point is the epoch. -/
abbrev TimePoint := Int

/-- `TimePoint()`. -/
def epoch : TimePoint := 0

/-- `class QueryLogData`. A thread id of zero means it has not been cached. -/
structure QueryLogData where
  data : StringRef
  threadId : UInt64
  startTime : TimePoint
  deriving DecidableEq, Repr

namespace QueryLogData

/-- The memory behind the first occurrence of a field name. -/
def field (data : StringRef) (name : Bytes) (skip : Nat) : Option Bytes :=
  (find data name).map fun location => data.memory.drop (location + skip)

/-- `parseQueryTime()`. -/
def parseQueryTime (data : StringRef) : Scan.Double :=
  match field data (bytes "Query_time: ") (bytes "Query_time: ").length with
  | some s => Scan.strtod s
  | none => .finite false 0 0

/-- The constructor: the log gives the end time, the entry keeps the start time. -/
def new (data : StringRef) (endTime : TimePoint) : QueryLogData where
  data := data
  threadId := 0
  startTime := endTime - (Scan.Double.mulNat 1000000 (parseQueryTime data)).toLong * 1000

/-- `parseThreadId()`: the id and the entry with its cache filled. -/
def parseThreadId (d : QueryLogData) : UInt64 × QueryLogData :=
  if d.threadId ≠ 0 then (d.threadId, d)
  else
    match field d.data (bytes "Thread_id: ") (bytes "Thread_Id: ").length with
    | some s => (Scan.strtoull s, { d with threadId := Scan.strtoull s })
    | none =>
        -- MySQL 5.6.2 and later write the id as "Id:"
        match field d.data (bytes "Id: ") (bytes "Id: ").length with
        | some s => (Scan.strtoull s, { d with threadId := Scan.strtoull s })
        | none => (0, d)

/-- The value `parseThreadId()` returns. -/
def getThreadId (d : QueryLogData) : UInt64 := d.parseThreadId.1

/-- `parseRowsSent()`. -/
def parseRowsSent (d : QueryLogData) : UInt64 :=
  match field d.data (bytes "Rows_sent: ") (bytes "Rows_sent: ").length with
  | some s => Scan.strtoull s
  | none => 0

/-- `parseRowsExamined()`, which searches for another spelling than it skips. -/
def parseRowsExamined (d : QueryLogData) : UInt64 :=
  match field d.data (bytes "Rows_Examined: ") (bytes "Rows_examined: ").length with
  | some s => Scan.strtoull s
  | none => 0

/-- `is_quit()`. -/
def isQuit (d : QueryLogData) : Bool :=
  (find d.data (bytes "\n# administrator command: Quit;")).isSome

/-- The body of the loop in `getQuery`: the text so far and `found_non_comment_line`. -/
def getQueryStep (removeTimestamp : Bool) (st : Bytes × Bool) (line : Bytes) : Bytes × Bool :=
  if !st.2 && [hash].isPrefixOf line then st
  else if removeTimestamp && (bytes "SET timestamp=").isPrefixOf line then (st.1, true)
  else if (trim line).isEmpty then (st.1, true)
  else ((if st.1.isEmpty then [] else st.1 ++ [32]) ++ trim line, true)

/-- `getQuery(remove_timestamp)`. -/
def getQuery (d : QueryLogData) (removeTimestamp : Bool) : Bytes :=
  ((readlines d.data (d.data.size + 1) (some 0)).foldl
    (fun st line => getQueryStep removeTimestamp st line.chars) ([], false)).1

/-- `setStartTime(tp)`. -/
def setStartTime (d : QueryLogData) (tp : TimePoint) : QueryLogData := { d with startTime := tp }

/-- `operator<`. -/
def lt (left right : QueryLogData) : Bool := left.startTime < right.startTime

@[simp] theorem new_data (data : StringRef) (endTime : TimePoint) :
    (new data endTime).data = data := rfl

/-- Filling the cache changes neither the bytes nor the start time. -/
@[simp] theorem parseThreadId_snd_data (d : QueryLogData) : d.parseThreadId.2.data = d.data := by
  unfold parseThreadId
  split
  · rfl
  · split
    · rfl
    · split <;> rfl

@[simp] theorem parseThreadId_snd_startTime (d : QueryLogData) :
    d.parseThreadId.2.startTime = d.startTime := by
  unfold parseThreadId
  split
  · rfl
  · split
    · rfl
    · split <;> rfl

@[simp] theorem setStartTime_data (d : QueryLogData) (tp : TimePoint) :
    (d.setStartTime tp).data = d.data := rfl

@[simp] theorem setStartTime_startTime (d : QueryLogData) (tp : TimePoint) :
    (d.setStartTime tp).startTime = tp := rfl

theorem setStartTime_self (d : QueryLogData) : d.setStartTime d.startTime = d := rfl

/-- The thread id does not depend on the start time. -/
@[simp] theorem setStartTime_getThreadId (d : QueryLogData) (tp : TimePoint) :
    (d.setStartTime tp).getThreadId = d.getThreadId := by
  unfold getThreadId parseThreadId setStartTime
  dsimp only
  split
  · rfl
  · split
    · rfl
    · split <;> rfl

/-- Asking again after the cache was filled gives the same id. -/
@[simp] theorem getThreadId_parseThreadId_snd (d : QueryLogData) :
    d.parseThreadId.2.getThreadId = d.getThreadId := by
  by_cases hc : d.threadId = 0
  · cases hf : field d.data (bytes "Thread_id: ") (bytes "Thread_Id: ").length with
    | some s =>
        by_cases hz : Scan.strtoull s = 0 <;>
          simp [getThreadId, parseThreadId, hc, hf, hz]
    | none =>
        cases hg : field d.data (bytes "Id: ") (bytes "Id: ").length with
        | some s =>
            by_cases hz : Scan.strtoull s = 0 <;>
              simp [getThreadId, parseThreadId, hc, hf, hg, hz]
        | none => simp [getThreadId, parseThreadId, hc, hf, hg]
  · simp [getThreadId, parseThreadId, hc]

/-- `getQuery` reads the lines of the entry's own bytes and nothing else. -/
theorem getQuery_eq_foldl (d : QueryLogData) (removeTimestamp : Bool) :
    d.getQuery removeTimestamp =
      ((lines newline d.data.chars).foldl (getQueryStep removeTimestamp) ([], false)).1 := by
  have hl := readlines_chars d.data (d.data.size + 1) (some 0) (by simp [StringRef.size])
  rw [remaining_zero] at hl
  rw [getQuery, ← hl, List.foldl_map]

end QueryLogData

end QueryPlayback
