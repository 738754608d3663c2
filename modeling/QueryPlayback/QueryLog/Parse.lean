import QueryPlayback.QueryLog.Sorting
import Mathlib.Data.Finset.Insert

/-!
# The parse loop of `getEntries`

The loop keeps a look-ahead line. A line starting with `#` that is not a time
line opens a record, and an inner loop adds up the lengths of the lines until
the next header. The entry is then the view of that length at the first line.

## Implementation notes

Both loops take a bound on their iterations and give `none` when it runs out.
The bound used by `getEntries` always suffices. The number of statement lines of
an entry, an `int` of the source, is a natural number; it is only compared with
zero.
-/

namespace QueryPlayback

/-- The fields of `std::tm` that `parse_time` sets. -/
structure Tm where
  year : Int
  mon : Int
  mday : Int
  hour : Int
  min : Int
  sec : Int
  deriving DecidableEq, Repr

/-- `"# Time: %02d%02d%02d %2d:%02d:%02d.%06lld"`. -/
def timeFormat : List Scan.Directive :=
  [.literal 35, .space, .literal 84, .literal 105, .literal 109, .literal 101, .literal 58,
    .space, .int 2, .int 2, .int 2, .space, .int 2, .literal 58, .int 2, .literal 58, .int 2,
    .literal 46, .int 6]

/-- `parse_time(s, start_time)`: whether it succeeded and the new time point. -/
def parseTime (mktime : Tm → Int) (s : Bytes) (startTime : TimePoint) : Bool × TimePoint :=
  let fields := Scan.sscanf timeFormat (s.takeWhile (· ≠ 0))
  if fields.length < 6 then (false, startTime)
  else
    let year := fields.getD 0 0
    let td : Tm :=
      { year := year + (if year < 70 then 100 else 0)
        mon := fields.getD 1 0 - 1
        mday := fields.getD 2 0
        hour := fields.getD 3 0
        min := fields.getD 4 0
        sec := fields.getD 5 0 }
    (true, mktime td * 1000000000 + fields.getD 6 0 * 1000)

/-- `class QueryLogEntries`. Of the set of data pointers only membership is used. -/
structure QueryLogEntries where
  entries : List QueryLogData
  lastQueryOfConn : Finset Nat
  numEntries : Nat
  numQueries : Nat
  deriving DecidableEq

namespace QueryLogEntries

/-- A newly constructed object. -/
def empty : QueryLogEntries := ⟨[], ∅, 0, 0⟩

end QueryLogEntries

/-- A line that belongs to the metadata or is a comment. -/
def isComment (line : Bytes) : Bool := [hash].isPrefixOf line

/-- A time line. -/
def isTimeLine (line : Bytes) : Bool := (bytes "# Time").isPrefixOf line

/-- A line that signals the start of a new query. -/
def isHeader (line : Bytes) : Bool := (bytes "# User@Host").isPrefixOf line || isTimeLine line

/-- The variables of the inner loop. -/
structure Collect where
  numSqlLines : Nat
  queryDataLen : Nat
  nextLine : StringRef
  pos : Option Nat
  deriving DecidableEq, Repr

/-- The inner `do … while` loop. -/
def collect (data : StringRef) : Nat → Collect → Option Collect
  | 0, _ => none
  | fuel + 1, c =>
      let numSqlLines := if isComment c.nextLine.chars then c.numSqlLines else c.numSqlLines + 1
      let queryDataLen := c.queryDataLen + c.nextLine.size
      let (nextLine, pos) := readline data c.pos
      let c := ⟨numSqlLines, queryDataLen, nextLine, pos⟩
      if !nextLine.isEmpty && !isHeader nextLine.chars then collect data fuel c else some c

/-- The variables of the outer loop, with the global flag it may clear. -/
structure ParseState where
  pos : Option Nat
  nextLine : StringRef
  currentTimestamp : TimePoint
  accurateMode : Bool
  entries : QueryLogEntries
  deriving DecidableEq

/-- What the loop does once the inner loop has measured a record. -/
def addRecord (line : StringRef) (c : Collect) (st : ParseState) : ParseState :=
  let st := { st with
    pos := c.pos
    nextLine := c.nextLine
    entries := { st.entries with numEntries := st.entries.numEntries + 1 } }
  if c.numSqlLines ≠ 0 then
    let queryData := line.withLength c.queryDataLen
    { st with
      accurateMode :=
        if st.accurateMode && st.currentTimestamp == epoch then false else st.accurateMode
      entries := { st.entries with
        entries := st.entries.entries ++ [QueryLogData.new queryData st.currentTimestamp]
        numQueries := st.entries.numQueries + 1 } }
  else st

variable (mktime : Tm → Int)

/-- The body of the outer loop for the line it has fetched. -/
def parseLine (data : StringRef) (fuel : Nat) (line : StringRef) (st : ParseState) :
    Option ParseState :=
  if !isComment line.chars then
    if line.endsWith (bytes "started with:\n") then some st
    else if line.startsWith (bytes "Tcp port: ") then some st
    else if line.startsWith (bytes "Time ") then some st
    else some st
  else if isTimeLine line.chars then
    some { st with currentTimestamp := (parseTime mktime line.chars st.currentTimestamp).2 }
  else
    (collect data fuel ⟨0, 0, line, st.pos⟩).map fun c => addRecord line c st

/-- The outer `for (;;)` loop. -/
def parseLoop (data : StringRef) (fuel : Nat) : Nat → ParseState → Option ParseState
  | 0, _ => none
  | n + 1, st =>
      if st.nextLine.isEmpty then
        let (line, pos) := readline data st.pos
        if line.isEmpty then some { st with pos := pos }
        else (parseLine mktime data fuel line { st with pos := pos }).bind
          (parseLoop data fuel n)
      else
        (parseLine mktime data fuel st.nextLine
          { st with nextLine := st.nextLine.withLength 0 }).bind (parseLoop data fuel n)

/-- `getEntries(data)`: the entries and the accurate-mode flag it leaves behind. -/
def getEntries (options : QueryLogOptions) (data : StringRef) :
    Option (QueryLogEntries × Bool) :=
  let st : ParseState := ⟨some 0, StringRef.empty, epoch, options.accurateMode, .empty⟩
  (parseLoop mktime data (data.size + 1) (data.size + 1) st).map fun st =>
    ({ st.entries with
        entries := QueryLogData.preprocess { options with accurateMode := st.accurateMode }
          st.entries.entries },
      st.accurateMode)

end QueryPlayback
