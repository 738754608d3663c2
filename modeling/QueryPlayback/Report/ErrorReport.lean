import QueryPlayback.Lib.Updates
import QueryPlayback.Report.FullReport
import QueryPlayback.Text.Fields

/-!
# The report of the slower queries

`query_execution` of the error report prints a paragraph for each query that
takes longer than expected. The paragraphs of calls under way at the same time
come in some order, but nobody's paragraphs change their order.

## Implementation notes

A call of `printf` holds the lock of the stream, so it is one update. The member
`full_report` is never used, and `nr_quicker_queries` is never counted.
-/

namespace QueryPlayback

/-- The arguments of `query_execution`. -/
structure ReportCall where
  query : Bytes
  report : QueryExecution
  deriving DecidableEq, Repr

/-- The part of the arguments that the detailed report uses. -/
def ReportCall.statement (c : ReportCall) : StatementExecution :=
  ⟨c.query, c.report.expected, c.report.actual⟩

/-- `class ErrorReportPlugin`, with what it has printed. -/
structure ErrorReportPlugin where
  totalExecutionTimeMs : UInt64 := 0
  expectedTotalExecutionTimeMs : UInt64 := 0
  nrQuickerQueries : UInt64 := 0
  printed : List Bytes := []
  deriving DecidableEq, Repr

namespace ErrorReportPlugin

open Updates

/-- The atomic updates, a call of `printf` among them. -/
inductive Update where
  | totalExecutionTimeMs (time : Int64)
  | expectedTotalExecutionTimeMs (time : Int64)
  | printf (text : Bytes)
  deriving DecidableEq, Repr

def Update.apply : Update → ErrorReportPlugin → ErrorReportPlugin
  | .totalExecutionTimeMs time, r =>
      { r with totalExecutionTimeMs := r.totalExecutionTimeMs + time.toUInt64 }
  | .expectedTotalExecutionTimeMs time, r =>
      { r with expectedTotalExecutionTimeMs := r.expectedTotalExecutionTimeMs + time.toUInt64 }
  | .printf text, r => { r with printed := r.printed ++ [text] }

/-- What `%s` prints of `c_str()`. -/
def cString (s : Bytes) : Bytes := s.takeWhile (· ≠ 0)

/-- The paragraph of a slower query. -/
def paragraph (c : ReportCall) : Bytes :=
  bytes "thread " ++ decimal c.report.threadId.toNat ++ bytes " slower query was run in  " ++
    decimal c.report.actual.duration.toUInt64.toNat ++ bytes " microseconds instead of " ++
    decimal c.report.expected.duration.toUInt64.toNat ++ bytes "\n  <--\n" ++ cString c.query ++
    bytes "  -->\n"

/-- The query has taken longer than the expected time, if there is one. -/
def isSlower (c : ReportCall) : Bool :=
  c.report.expected.duration ≠ 0 && c.report.expected.duration < c.report.actual.duration

/-- `query_execution`: the updates of a call in their order. -/
def updates (c : ReportCall) : List Update :=
  .totalExecutionTimeMs c.report.actual.duration ::
    if c.report.expected.duration ≠ 0 then
      .expectedTotalExecutionTimeMs c.report.expected.duration ::
        if c.report.expected.duration < c.report.actual.duration then [.printf (paragraph c)]
        else []
    else []

/-- `print_report`. -/
def printReport : Bytes := bytes "Error Report finished\n\n\n"

/-- Nothing has been printed, and each thread has its calls before it. -/
def initial (threads : List (List ReportCall)) : System ErrorReportPlugin Update :=
  ⟨{}, threads.map (·.flatMap updates)⟩

/-- The paragraphs of the calls of one thread. -/
def paragraphs (calls : List ReportCall) : List Bytes := (calls.filter isSlower).map paragraph

section Printing

/-- What an update prints. -/
def Update.printed? : Update → Option Bytes
  | .printf text => some text
  | _ => none

theorem printed_foldl (us : List Update) (r : ErrorReportPlugin) :
    (us.foldl (fun r u => u.apply r) r).printed = r.printed ++ us.filterMap Update.printed? := by
  induction us generalizing r with
  | nil => exact (List.append_nil _).symm
  | cons u us ih =>
      rw [List.foldl_cons, ih]
      cases u <;> simp [Update.apply, Update.printed?, List.filterMap_cons]

/-- A call prints the paragraph of its query, if that is slower, and nothing else. -/
theorem filterMap_updates (calls : List ReportCall) :
    (calls.flatMap updates).filterMap Update.printed? = paragraphs calls := by
  induction calls with
  | nil => rfl
  | cons c calls ih =>
      rw [List.flatMap_cons, List.filterMap_append, ih, paragraphs, paragraphs, List.filter_cons,
        isSlower, updates]
      by_cases hexpected : c.report.expected.duration = 0
      · simp [hexpected, Update.printed?, List.filterMap_cons]
      · by_cases hslower : c.report.expected.duration < c.report.actual.duration <;>
          simp [hexpected, hslower, Update.printed?, List.filterMap_cons]

end Printing

section Runs

variable {threads : List (List ReportCall)} {sys : System ErrorReportPlugin Update}

/-- The amount that an update adds to the time executing. -/
def Update.time : Update → UInt64
  | .totalExecutionTimeMs time => time.toUInt64
  | _ => 0

/-- The amount that an update adds to the expected time. -/
def Update.expectedTime : Update → UInt64
  | .expectedTotalExecutionTimeMs time => time.toUInt64
  | _ => 0

theorem stable : Stable Update.apply fun _ _ => True :=
  ⟨fun _ _ _ _ => trivial, fun _ _ _ _ => trivial⟩

theorem time_measures :
    Measures Update.apply (fun _ _ => True) totalExecutionTimeMs Update.time := by
  intro r u _ _
  cases u <;> simp [Update.apply, Update.time]

theorem expectedTime_measures :
    Measures Update.apply (fun _ _ => True) expectedTotalExecutionTimeMs Update.expectedTime := by
  intro r u _ _
  cases u <;> simp [Update.apply, Update.expectedTime]

/-- When all calls have returned, every slower query has its paragraph, the paragraphs of each
thread are in the order of its calls, and the times are the sums over all calls. -/
structure Reported (threads : List (List ReportCall)) (r : ErrorReportPlugin) : Prop where
  printed : r.printed.Perm (paragraphs threads.flatten)
  inOrder : ∀ calls ∈ threads, (paragraphs calls).Sublist r.printed
  time : r.totalExecutionTimeMs =
    (threads.flatten.map (·.report.actual.duration.toUInt64)).sum
  expectedTime : r.expectedTotalExecutionTimeMs =
    (threads.flatten.map (·.report.expected.duration.toUInt64)).sum
  quicker : r.nrQuickerQueries = 0

/-- A run of the error report that has come to its end. -/
theorem reported_of_finished (h : Runs Update.apply (initial threads) sys)
    (hfinished : sys.Finished) : Reported threads sys.shared := by
  have hdone := h.done_of_finished stable (fun _ _ => trivial) hfinished
  rw [flatten_programs] at hdone
  obtain ⟨done, log, hdivided, hperm, hsublist, hshared⟩ := h.performed
  rw [hdivided.done_eq hfinished] at hperm hsublist
  have hprinted : sys.shared.printed = log.filterMap Update.printed? := by
    rw [hshared, printed_foldl]
    rfl
  refine ⟨?_, ?_, ?_, ?_, ?_⟩
  · rw [hprinted, ← filterMap_updates, ← flatten_programs]
    exact hperm.filterMap _
  · intro calls hcalls
    rw [hprinted, ← filterMap_updates]
    exact (hsublist _ (List.mem_map_of_mem hcalls)).filterMap _
  · have hcall : ∀ c, amount Update.time (updates c) = c.report.actual.duration.toUInt64 := by
      intro c
      rw [updates]
      split_ifs <;> simp [Update.time]
    rw [hdone.measure _ _ time_measures, amount_flatMap, funext hcall]
    exact UInt64.zero_add _
  · have hcall : ∀ c, amount Update.expectedTime (updates c) =
        c.report.expected.duration.toUInt64 := by
      intro c
      rw [updates]
      split_ifs with hexpected
      · simp [Update.expectedTime]
      · simp [Update.expectedTime]
      · rw [not_ne_iff.mp hexpected]
        rfl
    rw [hdone.measure _ _ expectedTime_measures, amount_flatMap, funext hcall]
    exact UInt64.zero_add _
  · have hquicker : Measures Update.apply (fun _ _ => True) nrQuickerQueries fun _ => 0 := by
      intro r u _ _
      cases u <;> exact (UInt64.add_zero _).symm
    rw [hdone.measure _ _ hquicker]
    simp [amount]

end Runs

end ErrorReportPlugin

end QueryPlayback
