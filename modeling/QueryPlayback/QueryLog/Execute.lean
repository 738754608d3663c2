import QueryPlayback.QueryLog.Sorting
import QueryPlayback.Report.SimpleReport

/-!
# Executing an entry

`execute` passes the text of the entry to the database, measures how long that
took, sleeps for the rest of the logged query time if it is to be preserved, and
tells the report plugins.

## Implementation notes

The waiting of the accurate mode comes before the first reading of the clock and
is modelled on its own. The readings of the clock and the result of the query are
arguments.
-/

namespace QueryPlayback

/-- What a call of `execute` does: the text it executes, the argument of `usleep` if it
sleeps, and what it tells the report plugins. -/
structure Execution where
  query : Bytes
  usleep : Option UInt32
  report : QueryExecution
  deriving DecidableEq, Repr

/-- The sleep behind a query. The remaining microseconds become an argument of 32 bits. -/
def preserveQueryTime (expected actual : Int64) : Option UInt32 :=
  if actual < expected then some (expected - actual).toUInt64.toUInt32 else none

/-- `execute` with the thread id, the text and the expected result of the entry. -/
def executeExpecting (options : QueryLogOptions) (threadId : UInt64) (query : Bytes)
    (expectedResult : TimedResult) (r : QueryResult) (startTime endTime : Int64) : Execution where
  query := query
  usleep :=
    if options.preserveQueryTime then
      preserveQueryTime expectedResult.duration (endTime - startTime)
    else none
  report := ⟨threadId, expectedResult, { r with duration := endTime - startTime }⟩

namespace QueryLogData

/-- `expected_result`. -/
def expectedResult (d : QueryLogData) : TimedResult where
  rowsSent := d.parseRowsSent.toNat
  rowsExamined := d.parseRowsExamined.toNat
  error := 0
  duration := Int64.ofInt (Scan.Double.mulNat 1000000 (parseQueryTime d.data)).toLong

/-- `execute(t)`, where `r` is the result of the query. -/
def execute (d : QueryLogData) (options : QueryLogOptions) (r : QueryResult)
    (startTime endTime : Int64) : Execution :=
  executeExpecting options d.getThreadId (d.getQuery (!options.runSetTimestamp)) d.expectedResult
    r startTime endTime

end QueryLogData

namespace Execution

/-- The microseconds the thread has slept behind the query. -/
def slept (x : Execution) : ℕ :=
  match x.usleep with
  | some us => us.toNat
  | none => 0

/-- The query and the sleep behind it take the logged time at least. -/
def TimePreserved (x : Execution) : Prop :=
  x.report.expected.duration.toInt ≤ x.report.actual.duration.toInt + x.slept

instance (x : Execution) : Decidable x.TimePreserved := Int.decLe _ _

end Execution

theorem bmod_emod_two_pow (n : Int) : n.bmod (2 ^ 64) % 2 ^ 64 = n % 2 ^ 64 := by
  have hcast : (2 : Int) ^ 64 = ((2 ^ 64 : ℕ) : Int) := rfl
  rw [hcast, Int.bmod_emod]

/-- The conversion to an unsigned number keeps the value modulo 2^64. -/
theorem toNat_toUInt64_eq (x : Int64) : (x.toUInt64.toNat : Int) = x.toInt % 2 ^ 64 := by
  have hlt : x.toUInt64.toNat < 2 ^ 64 := x.toUInt64.toNat_lt
  calc (x.toUInt64.toNat : Int) = (x.toUInt64.toNat : Int) % 2 ^ 64 := by omega
    _ = (Int.bmod x.toUInt64.toNat (2 ^ 64)) % 2 ^ 64 := (bmod_emod_two_pow _).symm
    _ = x.toInt % 2 ^ 64 := by
        rw [Int64.toInt, BitVec.toInt_eq_toNat_bmod]
        rfl

/-- The argument of `usleep` is the remaining time modulo 2^32. -/
theorem toNat_remaining (expected actual : Int64) :
    ((expected - actual).toUInt64.toUInt32.toNat : Int) =
      (expected.toInt - actual.toInt) % 2 ^ 32 := by
  have hdvd : (2 ^ 32 : Int) ∣ 2 ^ 64 := by decide
  calc ((expected - actual).toUInt64.toUInt32.toNat : Int) =
      ((expected - actual).toInt % 2 ^ 64) % 2 ^ 32 := by
        rw [UInt64.toNat_toUInt32, Int.natCast_emod, toNat_toUInt64_eq]
        rfl
    _ = ((expected.toInt - actual.toInt) % 2 ^ 64) % 2 ^ 32 := by
        rw [Int64.toInt_sub, bmod_emod_two_pow]
    _ = (expected.toInt - actual.toInt) % 2 ^ 32 := Int.emod_emod_of_dvd _ hdvd

/-- A query time is preserved just when less than 2^32 microseconds of it remain. -/
theorem executeExpecting_timePreserved_iff (options : QueryLogOptions) (threadId : UInt64)
    (query : Bytes) (expectedResult : TimedResult) (r : QueryResult) (startTime endTime : Int64) :
    (executeExpecting { options with preserveQueryTime := true } threadId query expectedResult r
        startTime endTime).TimePreserved ↔
      expectedResult.duration.toInt - (endTime - startTime).toInt < 2 ^ 32 := by
  simp only [Execution.TimePreserved, Execution.slept, executeExpecting, if_true]
  generalize endTime - startTime = actual
  generalize expectedResult.duration = expected
  by_cases hlt : actual < expected
  · have hremains : actual.toInt < expected.toInt := Int64.lt_iff_toInt_lt.mp hlt
    rw [preserveQueryTime, if_pos hlt]
    dsimp only
    rw [toNat_remaining]
    -- the remainder is at most the remaining time, and equal to it below the modulus
    omega
  · have hdone : expected.toInt ≤ actual.toInt :=
      Int.not_lt.mp (mt Int64.lt_iff_toInt_lt.mpr hlt)
    rw [preserveQueryTime, if_neg hlt]
    dsimp only
    omega

/-- A statement that ran for an hour and a quarter. -/
def longRunning : QueryLogData :=
  .new (.ofBytes (bytes "# User@Host: app[app] @ localhost []\n" ++
    bytes "# Query_time: 4500  Lock_time: 0  Rows_sent: 1  Rows_examined: 1\n" ++
    bytes "SELECT SUM(a) FROM t;\n")) epoch

/-- Replayed in a millisecond, it is followed by a sleep of less than four minutes. -/
theorem longRunning_not_preserved :
    (longRunning.execute ⟨false, true, false, false⟩ {} 0 1000).usleep = some 205031704 ∧
      ¬(longRunning.execute ⟨false, true, false, false⟩ {} 0 1000).TimePreserved := by
  decide +kernel

end QueryPlayback
