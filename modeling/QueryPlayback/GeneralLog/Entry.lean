import QueryPlayback.Text.Scan
import QueryPlayback.Dispatch.Entry
import QueryPlayback.Lib.Pattern

/-!
# One entry of the general log

`GeneralLogEntry` takes its thread id and its text from lines that match a
regular expression. The expression is searched for in the line, so it may match
anywhere in it.
-/

namespace QueryPlayback

open Pattern

/-- `class GeneralLogEntry` with the flag of its base class. The log holds neither results
nor times, so the expected ones stay zero. -/
structure GeneralLogEntry where
  threadId : UInt64 := 0
  rowsSent : UInt64 := 0
  rowsExamined : UInt64 := 0
  queryTime : Scan.Double := .finite false 0 0
  query : Bytes := []
  shutdown : Bool := false
  deriving DecidableEq, Repr

namespace GeneralLogEntry

/-- `"\\s+(\\d+)\\s+Query\\s+(.+)"`; the dot matches every character. -/
def regex : List (Item Byte) :=
  [.run Scan.isSpace, .group Scan.isDigit, .run Scan.isSpace] ++
    literal (bytes "Query") ++ [.run Scan.isSpace, .group fun _ => true]

/-- The text between `begin` and `end`: the last character is dropped, and a carriage
return in front of it. -/
def withoutTerminator (ns : Bytes) : Bytes :=
  if 2 ≤ ns.length ∧ ns.dropLast.getLast? = some 13 then ns.dropLast.dropLast else ns.dropLast

/-- `add_query_line(s)`. -/
def addQueryLine (e : GeneralLogEntry) (s : Bytes) : GeneralLogEntry :=
  match Pattern.search regex s with
  | some [id, ns] =>
      { e with
        threadId := Scan.strtoull id
        query := e.query ++ withoutTerminator ns ++ [32] }
  | _ => e

/-- `is_quit()`. -/
def isQuit (e : GeneralLogEntry) : Bool :=
  e.query.take 30 == bytes "# administrator command: Quit;"

/-- `set_shutdown()`. -/
def setShutdown (e : GeneralLogEntry) : GeneralLogEntry := { e with shutdown := true }

end GeneralLogEntry

instance : QueryEntry GeneralLogEntry where
  getThreadId := GeneralLogEntry.threadId
  isQuit := GeneralLogEntry.isQuit
  isShutdown := GeneralLogEntry.shutdown

end QueryPlayback
