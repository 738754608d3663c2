import QueryPlayback.Dispatch.Reports
import QueryPlayback.Playback.Sessions
import QueryPlayback.QueryLog.Execute
import QueryPlayback.Report.Exact

/-!
# The report of a whole run

A dispatcher, its workers and the simple report run together, with any database
client behind the workers. When the dispatcher has returned, the report is that
of one call for each entry of the log that is no quit. The null client answers
with what the log says, so its report is a function of the log but for the
measured times.

## Implementation notes

The simple report is the only report plugin here. What other plugins do in their
calls does not reach its counters.
-/

namespace QueryPlayback

open QueryEntry QueryEntries Updates Bounded Relation SimpleReportPlugin

/-- `expected_result` of `GeneralLogEntry::execute`. -/
def GeneralLogEntry.expectedResult (e : GeneralLogEntry) : TimedResult where
  rowsSent := e.rowsSent.toNat
  rowsExamined := e.rowsExamined.toNat
  error := 0
  duration := Int64.ofInt (Scan.Double.mulNat 1000000 e.queryTime).toLong

/-- `GeneralLogEntry::execute(t)`, which never sleeps. -/
def GeneralLogEntry.execute (e : GeneralLogEntry) (r : QueryResult) (startTime endTime : Int64) :
    Execution where
  query := e.query
  usleep := none
  report := ⟨e.threadId, e.expectedResult, { r with duration := endTime - startTime }⟩

namespace AnyEntry

variable (options : QueryLogOptions)

/-- What the entry expects. -/
def expectedResult : AnyEntry → TimedResult
  | queryLog e => e.data.expectedResult
  | generalLog e => e.expectedResult

/-- `execute(t)` of an entry of either log. -/
def execute (r : QueryResult) (startTime endTime : Int64) : AnyEntry → Execution
  | queryLog e => e.data.execute options r startTime endTime
  | generalLog e => e.execute r startTime endTime

/-- What is expected is what the log says. -/
theorem expectedResult_content (e : AnyEntry) :
    e.content.expectedResult = e.expectedResult := by
  cases e <;> rfl

/-- The report plugins are told the thread id, what was expected and what has come. -/
theorem report_execute (e : AnyEntry) (r : QueryResult) (startTime endTime : Int64) :
    (e.execute options r startTime endTime).report =
      ⟨getThreadId e, e.expectedResult, { r with duration := endTime - startTime }⟩ := by
  cases e <;> rfl

end AnyEntry

/-- What a database client may answer to a query with an expected result. -/
abbrev Client := Bytes → TimedResult → QueryResult → Prop

/-- `NULLDBThread::execute_query(query, r, expected_result)`: the result `r`. -/
def NULLDBThread.executeQuery (_ : Bytes) (expected : TimedResult) : TimedResult := expected

/-- The null client. -/
def nullClient : Client := fun query expected r =>
  r = (NULLDBThread.executeQuery query expected).toQueryResult

section Calls

variable (options : QueryLogOptions) (client : Client)

/-- A call of the report plugins behind the execution of an entry. -/
def Call (e : AnyEntry) (c : QueryExecution) : Prop :=
  ∃ r startTime endTime, client (e.query options) e.expectedResult r ∧
    c = (e.execute options r startTime endTime).report

/-- The same call follows entries of one connection with the same content. -/
theorem Call.congr {e e' : AnyEntry} {c : QueryExecution} (hid : getThreadId e = getThreadId e')
    (hcontent : e.content = e'.content) (h : Call options client e c) :
    Call options client e' c := by
  obtain ⟨r, startTime, endTime, hr, rfl⟩ := h
  refine ⟨r, startTime, endTime, ?_, ?_⟩
  · rwa [← e'.query_content, ← e'.expectedResult_content, ← hcontent, e.query_content,
      e.expectedResult_content]
  · rw [e.report_execute, e'.report_execute, hid, ← e.expectedResult_content,
      ← e'.expectedResult_content, hcontent]

/-- The report of a log: one call for each entry that is no quit. -/
def ReportsLog (ignoreRowResultDiffs : Bool) (entries : List AnyEntry)
    (report : SimpleReportPlugin) : Prop :=
  ∃ calls, List.Forall₂ (Call options client) (entries.filter fun e => !isQuit e) calls ∧
    Totals ignoreRowResultDiffs calls report

end Calls

section Permutations

variable {ignoreRowResultDiffs : Bool}

/-- The order of the calls does not matter. -/
theorem SimpleReportPlugin.Totals.perm {calls calls' : List QueryExecution}
    {r : SimpleReportPlugin} (h : Totals ignoreRowResultDiffs calls r)
    (hperm : calls.Perm calls') : Totals ignoreRowResultDiffs calls' r where
  executed := hperm.length_eq ▸ h.executed
  connections := hperm.length_eq ▸ h.connections
  connection id := by
    rw [h.connection id, hperm.countP_eq]
    simp only [hperm.mem_iff]
  comparisons := hperm.countP_eq _ ▸ h.comparisons
  quicker := hperm.countP_eq _ ▸ h.quicker
  errors := hperm.countP_eq _ ▸ h.errors
  rowsDiffer := hperm.countP_eq _ ▸ h.rowsDiffer
  expectedRowsSent := h.expectedRowsSent.trans (hperm.map _).sum_eq
  actualRowsSent := h.actualRowsSent.trans (hperm.map _).sum_eq
  executionTime := h.executionTime.trans (hperm.map _).sum_eq
  expectedExecutionTime := h.expectedExecutionTime.trans (hperm.map _).sum_eq

end Permutations

section Executed

/-- What workers execute are the entries that are no quits. -/
theorem executed_eq_filter {ε : Type} [QueryEntry ε] {handled : List (Handled ε)}
    (h : ∀ x ∈ handled, x = Worker.handle x.entry) :
    executed handled = (handled.map Handled.entry).filter fun e => !isQuit e := by
  induction handled with
  | nil => rfl
  | cons x handled ih =>
      obtain ⟨hx, hrest⟩ := List.forall_mem_cons.mp h
      have hhead : x.executed? = if isQuit x.entry then none else some x.entry := by
        conv_lhs => rw [hx, Worker.handle]
        cases isQuit x.entry <;> rfl
      rw [executed, List.filterMap_cons, hhead, ← executed, ih hrest, List.map_cons,
        List.filter_cons]
      cases isQuit x.entry <;> rfl

/-- What holds of a list holds of one with the same values of `f`. -/
theorem forall₂_of_map_eq {α β γ : Type} {R : α → β → Prop} {f : α → γ}
    (hR : ∀ a a' b, f a = f a' → R a b → R a' b) {l l' : List α} {bs : List β}
    (hmap : l.map f = l'.map f) (h : List.Forall₂ R l bs) : List.Forall₂ R l' bs := by
  induction h generalizing l' with
  | nil =>
      obtain rfl : l' = [] := List.map_eq_nil_iff.mp hmap.symm
      exact .nil
  | cons hab _ ih =>
      cases l' with
      | nil => simp at hmap
      | cons a' l' =>
          obtain ⟨hhead, htail⟩ := List.cons_eq_cons.mp hmap
          exact .cons (hR _ _ _ hhead hab) (ih htail)

variable {options : QueryLogOptions} {client : Client} {ignoreRowResultDiffs : Bool}

/-- The calls behind all entries make the report of the log. -/
theorem reportsLog_of_calls {q : AnyEntries} (hq : q.Dispatchable) {all : List AnyEntry}
    (hall : all = q.toPop ∨ all = (setShutdownOnLastQueryOfConn q).toPop)
    {handled : List (Handled AnyEntry)} (hhandle : ∀ x ∈ handled, x = Worker.handle x.entry)
    (hperm : (handled.map Handled.entry).Perm all) {calls : List QueryExecution}
    (hcalls : List.Forall₂ (Call options client) (executed handled) calls)
    {report : SimpleReportPlugin} (htotals : Totals ignoreRowResultDiffs calls report) :
    ReportsLog options client ignoreRowResultDiffs q.toPop report := by
  have hsame : all.map (fun e => (getThreadId e, isQuit e, e.content)) =
      q.toPop.map fun e => (getThreadId e, isQuit e, e.content) := by
    rcases hall with rfl | rfl
    · rfl
    · exact hq.same
  have hfilter : ∀ l : List AnyEntry,
      (l.filter fun e => !isQuit e).map (fun e => (getThreadId e, isQuit e, e.content)) =
        (l.map fun e => (getThreadId e, isQuit e, e.content)).filter fun p => !p.2.1 := by
    intro l
    rw [List.filter_map]
    rfl
  rw [executed_eq_filter hhandle] at hcalls
  obtain ⟨calls', hcalls', hperm'⟩ :=
    List.perm_comp_forall₂ (hperm.symm.filter fun e => !isQuit e) hcalls
  refine ⟨calls', ?_, htotals.perm hperm'.symm⟩
  refine forall₂_of_map_eq (f := fun e => (getThreadId e, isQuit e, e.content)) ?_ ?_ hcalls'
  · intro e e' c hsame hc
    simp only [Prod.mk.injEq] at hsame
    exact hc.congr options client hsame.1 hsame.2.2
  · rw [hfilter, hfilter, hsame]

/-- Related lists have equal values of functions that agree on related elements. -/
theorem map_eq_of_forall₂ {α β γ : Type} {R : α → β → Prop} {f : α → γ} {g : β → γ}
    (hR : ∀ a b, R a b → g b = f a) {l : List α} {l' : List β} (h : List.Forall₂ R l l') :
    l'.map g = l.map f := by
  induction h with
  | nil => rfl
  | cons hab _ ih => rw [List.map_cons, List.map_cons, hR _ _ hab, ih]

section ThreadIds

variable {entries : List AnyEntry} {calls : List QueryExecution}

theorem threadIds_of_calls
    (h : List.Forall₂ (Call options client) (entries.filter fun e => !isQuit e) calls) :
    calls.map (·.threadId) = (entries.filter fun e => !isQuit e).map getThreadId := by
  refine map_eq_of_forall₂ (fun e c hc => ?_) h
  obtain ⟨r, startTime, endTime, -, rfl⟩ := hc
  rw [e.report_execute]

theorem mem_threadIds_of_calls
    (h : List.Forall₂ (Call options client) (entries.filter fun e => !isQuit e) calls)
    (id : UInt64) : (∃ c ∈ calls, c.threadId = id) ↔
      ∃ e ∈ entries, isQuit e = false ∧ getThreadId e = id := by
  calc (∃ c ∈ calls, c.threadId = id) ↔ id ∈ calls.map (·.threadId) := List.mem_map.symm
    _ ↔ ∃ e ∈ entries, isQuit e = false ∧ getThreadId e = id := by
        rw [threadIds_of_calls h, List.mem_map]
        simp only [List.mem_filter, Bool.not_eq_true', and_assoc]

theorem countP_of_calls
    (h : List.Forall₂ (Call options client) (entries.filter fun e => !isQuit e) calls)
    (id : UInt64) : calls.countP (·.threadId = id) =
      (ofThread id entries).countP fun e => !isQuit e := by
  calc calls.countP (·.threadId = id) = (calls.map (·.threadId)).countP (· = id) := by
        rw [List.countP_map]
        rfl
    _ = (entries.filter fun e => !isQuit e).countP (getThreadId · = id) := by
        rw [threadIds_of_calls h, List.countP_map]
        rfl
    _ = (ofThread id entries).countP fun e => !isQuit e := by
        rw [List.countP_filter, ofThread, List.countP_filter]
        simp only [Bool.and_comm]

end ThreadIds

/-- What a report of the null client holds: it knows the log, and nothing differs. -/
structure NullReport (entries : List AnyEntry) (r : SimpleReportPlugin) : Prop where
  executed : r.nrQueriesExecuted = UInt64.ofNat (entries.countP fun e => !isQuit e)
  connection : ∀ id, r.connectionQueryCounts.lookup id =
    if ∃ e ∈ entries, isQuit e = false ∧ getThreadId e = id then
      some (UInt64.ofNat ((ofThread id entries).countP fun e => !isQuit e))
    else none
  errors : r.nrErrorQueries = 0
  rowsDiffer : r.nrQueriesRowsDiffer = 0
  expectedRowsSent : r.nrExpectedRowsSent =
    ((entries.filter fun e => !isQuit e).map fun e =>
      UInt64.ofNat e.expectedResult.rowsSent).sum
  actualRowsSent : r.nrActualRowsSent = r.nrExpectedRowsSent

theorem exists_of_mem_forall₂ {α β : Type} {R : α → β → Prop} {l : List α} {l' : List β}
    (h : List.Forall₂ R l l') {b : β} (hb : b ∈ l') : ∃ a ∈ l, R a b := by
  induction h with
  | nil => exact absurd hb List.not_mem_nil
  | @cons a b' l l' hab _ ih =>
      rcases List.mem_cons.mp hb with rfl | hb
      · exact ⟨a, List.mem_cons_self, hab⟩
      · obtain ⟨a', ha', hR⟩ := ih hb
        exact ⟨a', List.mem_cons_of_mem a ha', hR⟩

theorem expectedResult_error (e : AnyEntry) : e.expectedResult.error = 0 := by
  cases e <;> rfl

theorem ReportsLog.null {entries : List AnyEntry} {r : SimpleReportPlugin}
    (h : ReportsLog options nullClient ignoreRowResultDiffs entries r) : NullReport entries r := by
  obtain ⟨calls, hcalls, htotals⟩ := h
  have hanswer : ∀ e c, Call options nullClient e c → c.threadId = getThreadId e ∧
      c.expected = e.expectedResult ∧ c.actual.error = 0 ∧
      c.actual.rowsSent = e.expectedResult.rowsSent := by
    rintro e c ⟨r, startTime, endTime, rfl, rfl⟩
    rw [e.report_execute]
    exact ⟨rfl, rfl, expectedResult_error e, rfl⟩
  have hrows : calls.map (fun c => UInt64.ofNat c.actual.rowsSent) =
      (entries.filter fun e => !isQuit e).map fun e => UInt64.ofNat e.expectedResult.rowsSent :=
    map_eq_of_forall₂ (fun e c hc => by rw [(hanswer e c hc).2.2.2]) hcalls
  have hexpected : calls.map (fun c => UInt64.ofNat c.expected.rowsSent) =
      (entries.filter fun e => !isQuit e).map fun e => UInt64.ofNat e.expectedResult.rowsSent :=
    map_eq_of_forall₂ (fun e c hc => by rw [(hanswer e c hc).2.1]) hcalls
  have hnone : ∀ c ∈ calls, c.actual.error = 0 ∧ c.actual.rowsSent = c.expected.rowsSent := by
    intro c hc
    obtain ⟨e, -, hR⟩ := exists_of_mem_forall₂ hcalls hc
    obtain ⟨-, hexpected, herror, hrows⟩ := hanswer e c hR
    exact ⟨herror, by rw [hrows, hexpected]⟩
  constructor
  · rw [htotals.executed, ← hcalls.length_eq, List.countP_eq_length_filter]
  · intro id
    rw [htotals.connection id, countP_of_calls hcalls]
    simp only [mem_threadIds_of_calls hcalls]
  · rw [htotals.errors, List.countP_eq_zero.mpr fun c hc => by simp [(hnone c hc).1]]
    rfl
  · rw [htotals.rowsDiffer, List.countP_eq_zero.mpr fun c hc => by simp [(hnone c hc).2]]
    rfl
  · rw [htotals.expectedRowsSent, hexpected]
  · rw [htotals.actualRowsSent, htotals.expectedRowsSent, hrows, hexpected]

end Executed

/-- A call of the simple report takes at most eleven actions. -/
theorem SimpleReportPlugin.length_program_le (ignoreRowResultDiffs : Bool) (c : QueryExecution) :
    (program ignoreRowResultDiffs c).length ≤ 11 := by
  rw [program, queryExecution]
  split <;> split <;> split <;> simp

theorem exists_call {options : QueryLogOptions} {client : Client}
    (hclient : ∀ query expected, ∃ r, client query expected r) (e : AnyEntry) :
    ∃ c, Call options client e c := by
  obtain ⟨r, hr⟩ := hclient (e.query options) e.expectedResult
  exact ⟨_, r, 0, 0, hr, rfl⟩

theorem nullClient_total (query : Bytes) (expected : TimedResult) :
    ∃ r, nullClient query expected r := ⟨_, rfl⟩

section Runs

variable {mktime : Tm → Int} {options : QueryLogOptions} {plugin : InputPlugin}
  {accurateMode : Bool} {data : Bytes} {client : Client} {ignoreRowResultDiffs : Bool}

namespace ThreadPerConnection

/-- The dispatcher whose workers make calls behind the entries of the log. -/
def callReporters {C S U : Type} (depth : ℕ) (call : AnyEntry → C → Prop) (updates : C → List U)
    (perform : U → S → S) : Reporters (State AnyEntries AnyEntry) AnyEntry C S U where
  step := Step depth
  workers := State.workers
  call := call
  updates := updates
  perform := perform

/-- The dispatcher whose workers tell the simple report what the client has answered. -/
abbrev reporters (depth : ℕ) (options : QueryLogOptions) (client : Client)
    (ignoreRowResultDiffs : Bool) :
    Reporters (State AnyEntries AnyEntry) AnyEntry QueryExecution Reporting Action :=
  callReporters depth (Call options client) (program ignoreRowResultDiffs) Action.perform

section Calls

variable {C S U : Type} {depth : ℕ} {call : AnyEntry → C → Prop} {updates : C → List U}
  {perform : U → S → S} {initial : S} {s : Reporters.State (State AnyEntries AnyEntry) S U}

/-- When the dispatcher has returned, all calls have returned. -/
theorem reported_of_returned {all : List AnyEntry} (hrun : Inv all s.dispatcher)
    (h : Reporters.Inv (callReporters depth call updates perform) initial s)
    (hpc : s.dispatcher.pc = .returned) : ∃ threads : List (List C),
      List.Forall₂ call (executed (handledBy s.dispatcher.workers)) threads.flatten ∧
      Updates.Runs perform ⟨initial, threads.map (·.flatMap updates)⟩ s.reports ∧
      s.reports.Finished := h.reported (hrun.at_pc hpc).2

/-- When the dispatcher has returned, all entries of the log have been handled. -/
theorem handledBy_perm {d : State AnyEntries AnyEntry}
    (hrun : Inv (setShutdownOnLastQueryOfConn
      (parsedEntries mktime options plugin accurateMode data)).toPop d)
    (hpc : d.pc = .returned) : ((handledBy d.workers).map Handled.entry).Perm
      (setShutdownOnLastQueryOfConn
        (parsedEntries mktime options plugin accurateMode data)).toPop := by
  have hready := plugin.getEntries_dispatchable mktime options accurateMode data
  rw [handledBy, List.map_flatMap]
  exact hrun.handled_perm hready.lastMarked hpc

/-- With at most 10001 connections every run comes to an end. -/
theorem callReporters_terminatesIn (hdepth : 0 < depth) (hcall : ∀ e, ∃ x, call e x) {k : ℕ}
    (hupdates : ∀ x, (updates x).length ≤ k) {q : AnyEntries}
    (hq : parsedEntries mktime options plugin accurateMode data = q)
    (hfew : (connections q.toPop).card ≤ 10001) :
    TerminatesIn (callReporters depth call updates perform).Step
      ((k + 1) * (6 * q.toPop.length + (connections q.toPop).card + 2))
      ⟨begin mktime options plugin accurateMode data, initial, []⟩ fun s =>
        Reporters.Inv (callReporters depth call updates perform) initial s ∧
          NeverWaits (setShutdownOnLastQueryOfConn q).toPop s.dispatcher ∧
          s.dispatcher.pc = .returned := by
  subst hq
  set q := parsedEntries mktime options plugin accurateMode data with hq
  have hready : q.Dispatchable := plugin.getEntries_dispatchable mktime options accurateMode data
  have hstart : Inv (setShutdownOnLastQueryOfConn q).toPop ((State.init q).dispatch q) :=
    Inv.dispatch (AnyEntries.drains_toPop _) rfl rfl
  have hbound : stepsLeft (setShutdownOnLastQueryOfConn q).toPop ((State.init q).dispatch q) ≤
      6 * q.toPop.length + (connections q.toPop).card + 2 := by
    rw [← hready.connections_eq, ← hready.length_eq]
    exact stepsLeft_le rfl rfl
  exact Reporters.terminatesIn (m := callReporters depth call updates perform)
    (lowers hready.lastMarked (hready.connections_eq ▸ hfew)) hupdates hcall
    (fun _ _ _ hstep => Step.heapStep hstep) (hstart.neverWaits rfl rfl) rfl hbound
    fun _ hi hrest => hi.inv.returned_of_rest hready.lastMarked hdepth hi.wanted hrest

end Calls

variable {depth : ℕ} {s : Reporters.State (State AnyEntries AnyEntry) Reporting Action}

/-- When the dispatcher has returned, the workers have reported the log. -/
theorem reportsLog_of_returned
    (hrun : Inv (setShutdownOnLastQueryOfConn
      (parsedEntries mktime options plugin accurateMode data)).toPop s.dispatcher)
    (h : Reporters.Inv (reporters depth options client ignoreRowResultDiffs) {} s)
    (hpc : s.dispatcher.pc = .returned) : s.reports.Finished ∧
      ReportsLog options client ignoreRowResultDiffs
        (parsedEntries mktime options plugin accurateMode data).toPop s.reports.shared.report := by
  have hready := plugin.getEntries_dispatchable mktime options accurateMode data
  obtain ⟨threads, hcalls, hruns, hfinished⟩ := reported_of_returned hrun h hpc
  exact ⟨hfinished, reportsLog_of_calls hready (Or.inr rfl) hrun.inOrder.handle
    (handledBy_perm hrun hpc) hcalls (totals_of_finished hruns hfinished)⟩

/-- With at most 10001 connections every run of the reporters comes to an end. -/
theorem reporters_terminatesIn (hdepth : 0 < depth)
    (hclient : ∀ query expected, ∃ r, client query expected r) {q : AnyEntries}
    (hq : parsedEntries mktime options plugin accurateMode data = q)
    (hfew : (connections q.toPop).card ≤ 10001) :
    TerminatesIn (reporters depth options client ignoreRowResultDiffs).Step
      (12 * (6 * q.toPop.length + (connections q.toPop).card + 2))
      ⟨begin mktime options plugin accurateMode data, {}, []⟩ fun s =>
        Reporters.Inv (reporters depth options client ignoreRowResultDiffs) {} s ∧
          NeverWaits (setShutdownOnLastQueryOfConn q).toPop s.dispatcher ∧
          s.dispatcher.pc = .returned :=
  callReporters_terminatesIn hdepth (exists_call hclient)
    (length_program_le ignoreRowResultDiffs) hq hfew

/-- The two statements of the sample, answered by the null client, in a run that ends. -/
theorem sampleReport_run : ∃ s, ReflTransGen (reporters 1 sampleOptions nullClient false).Step
    ⟨begin (fun _ => 0) sampleOptions .generalLog false sampleGeneralLog, {}, []⟩ s ∧
      s.dispatcher.pc = .returned := by
  have hends := @reporters_terminatesIn _ _ _ _ _ _ false 1 Nat.one_pos nullClient_total _
    parsedEntries_sample (by decide)
  obtain ⟨s, hs, -, -, hpc⟩ := hends.exists_final
  exact ⟨s, hs, hpc⟩

/-- Whatever the interleaving of the dispatcher, the workers and their reports, the report at
the end is that of the log. -/
theorem threadPerConnection_reports_log
    (h : ReflTransGen (reporters depth options client ignoreRowResultDiffs).Step
      ⟨begin mktime options plugin accurateMode data, {}, []⟩ s)
    (hpc : s.dispatcher.pc = .returned) : s.reports.Finished ∧
      ReportsLog options client ignoreRowResultDiffs
        (parsedEntries mktime options plugin accurateMode data).toPop s.reports.shared.report := by
  have hreports : Reporters.Inv (reporters depth options client ignoreRowResultDiffs) {} s :=
    Reporters.inv_of_reaches rfl h
  exact reportsLog_of_returned (inv_of_begin (Reporters.reaches_dispatcher h)) hreports hpc

theorem threadPerConnection_reports_log_sample :
    ∃ s, ReflTransGen (reporters 1 sampleOptions nullClient false).Step
      ⟨begin (fun _ => 0) sampleOptions .generalLog false sampleGeneralLog, {}, []⟩ s ∧
        s.reports.Finished ∧ ReportsLog sampleOptions nullClient false
          (parsedEntries (fun _ => 0) sampleOptions .generalLog false sampleGeneralLog).toPop
          s.reports.shared.report := by
  obtain ⟨s, hs, hpc⟩ := sampleReport_run
  exact ⟨s, hs, threadPerConnection_reports_log hs hpc⟩

/-- With at most 10001 connections every run comes to an end, with the report of the log. -/
theorem threadPerConnection_terminates_with_report (hdepth : 0 < depth)
    (hclient : ∀ query expected, ∃ r, client query expected r) {q : AnyEntries}
    (hq : parsedEntries mktime options plugin accurateMode data = q)
    (hfew : (connections q.toPop).card ≤ 10001) :
    TerminatesIn (reporters depth options client ignoreRowResultDiffs).Step
      (12 * (6 * q.toPop.length + (connections q.toPop).card + 2))
      ⟨begin mktime options plugin accurateMode data, {}, []⟩ fun s =>
        s.dispatcher.pc = .returned ∧ s.reports.Finished ∧
          ReportsLog options client ignoreRowResultDiffs q.toPop s.reports.shared.report := by
  have hends := @reporters_terminatesIn mktime options plugin accurateMode data client
    ignoreRowResultDiffs depth hdepth hclient q hq hfew
  subst hq
  refine ⟨hends.bounded, fun s hs hrest => ?_⟩
  obtain ⟨hreports, hrun, hpc⟩ := hends.final s hs hrest
  exact ⟨hpc, reportsLog_of_returned hrun.inv hreports hpc⟩

/-- The sample is reported in at most 180 steps. -/
theorem threadPerConnection_terminates_with_report_sample :
    TerminatesIn (reporters 1 sampleOptions nullClient false).Step 180
      ⟨begin (fun _ => 0) sampleOptions .generalLog false sampleGeneralLog, {}, []⟩ fun s =>
        s.dispatcher.pc = .returned ∧ s.reports.Finished ∧ ReportsLog sampleOptions nullClient
          false sampleGeneralEntries.toPop s.reports.shared.report :=
  threadPerConnection_terminates_with_report (by decide) nullClient_total parsedEntries_sample
    (by decide)

end ThreadPerConnection

namespace ThreadPool

/-- A `FinishEntry` does nothing when it is executed. -/
def QueueCall {C : Type} (call : AnyEntry → C → Prop) : QueueEntry AnyEntry → Option C → Prop
  | .query e, some c => call e c
  | .finish, none => True
  | _, _ => False

/-- The dispatcher whose workers make calls behind the entries of the log. -/
def queueReporters {C S U : Type} (c : Config) (call : AnyEntry → C → Prop)
    (updates : C → List U) (perform : U → S → S) :
    Reporters (State AnyEntries AnyEntry) (QueueEntry AnyEntry) (Option C) S U where
  step := Step c
  workers := State.heap
  call := QueueCall call
  updates c := c.toList.flatMap updates
  perform := perform

/-- The dispatcher whose workers tell the simple report what the client has answered. -/
abbrev reporters (c : Config) (options : QueryLogOptions) (client : Client)
    (ignoreRowResultDiffs : Bool) : Reporters (State AnyEntries AnyEntry) (QueueEntry AnyEntry)
      (Option QueryExecution) Reporting Action :=
  queueReporters c (Call options client) (program ignoreRowResultDiffs) Action.perform

/-- The calls behind the entries of the log. -/
theorem forall₂_queries {C : Type} {call : AnyEntry → C → Prop}
    {handled : List (Handled (QueueEntry AnyEntry))} {calls : List (Option C)}
    (h : List.Forall₂ (QueueCall call) (executed handled) calls) :
    List.Forall₂ call (executed (handled.filterMap query?)) calls.reduceOption := by
  have hexecuted : executed (handled.filterMap query?) =
      (executed handled).filterMap QueueEntry.query? := by
    rw [executed, executed, List.filterMap_filterMap, List.filterMap_filterMap]
    apply List.filterMap_congr
    intro x _
    rcases x with (_ | _) | (_ | _) <;> rfl
  rw [hexecuted]
  generalize executed handled = entries at h
  induction h with
  | nil => exact .nil
  | @cons x call entries calls hcall _ ih =>
      rcases x with e | _ <;> rcases call with _ | c
      · exact hcall.elim
      · exact .cons hcall ih
      · exact ih
      · exact hcall.elim

theorem flatMap_toList {α : Type} (l : List (Option α)) :
    l.flatMap Option.toList = l.reduceOption := by
  induction l with
  | nil => rfl
  | cons a l ih =>
      rw [List.flatMap_cons, ih]
      cases a <;> rfl

/-- The programs of the workers are those of the calls behind the entries of the log. -/
theorem map_flatMap_updates {C U : Type} (updates : C → List U)
    (threads : List (List (Option C))) :
    threads.map (·.flatMap fun c => c.toList.flatMap updates) =
      (threads.map List.reduceOption).map (·.flatMap updates) := by
  rw [List.map_map]
  apply List.map_congr_left
  intro calls _
  rw [Function.comp_apply, ← List.flatMap_assoc, flatMap_toList]

section Queues

variable {C S U : Type} {c : Config} {call : AnyEntry → C → Prop} {updates : C → List U}
  {perform : U → S → S} {initial : S} {s : Reporters.State (State AnyEntries AnyEntry) S U}

/-- When the dispatcher has returned, all calls have returned. -/
theorem reported_of_returned
    (hrun : Inv c (parsedEntries mktime options plugin accurateMode data).toPop s.dispatcher)
    (h : Reporters.Inv (queueReporters c call updates perform) initial s)
    (hpc : s.dispatcher.pc = .returned) : ∃ threads : List (List C),
      List.Forall₂ call (executed (handledQueries s.dispatcher.heap)) threads.flatten ∧
      Updates.Runs perform ⟨initial, threads.map (·.flatMap updates)⟩ s.reports ∧
      s.reports.Finished := by
  have hready := plugin.getEntries_dispatchable mktime options accurateMode data
  have hheap : s.dispatcher.heap = s.dispatcher.retired := by
    rw [State.heap, (hrun.at_pc hpc).1, List.nil_append]
  have hreturned : ∀ w ∈ s.dispatcher.heap, w.pc = .returned := by
    rw [hheap]
    intro w hw
    obtain ⟨j, hget⟩ := List.mem_iff_getElem?.mp hw
    exact ((hrun.complete hready.unmarked hpc).2.2 j w hget).1
  obtain ⟨threads, hcalls, hruns, hfinished⟩ := h.reported hreturned
  have hthreads : threads.flatten.reduceOption = (threads.map List.reduceOption).flatten :=
    List.filterMap_flatten
  have hqueries := forall₂_queries hcalls
  rw [hthreads] at hqueries
  rw [show threads.map (·.flatMap (queueReporters c call updates perform).updates) = _ from
    map_flatMap_updates updates threads] at hruns
  exact ⟨threads.map List.reduceOption, hqueries, hruns, hfinished⟩

/-- When the dispatcher has returned, all entries of the log have been handled. -/
theorem handledQueries_perm (hpos : 0 < c.threadsCount) {d : State AnyEntries AnyEntry}
    (hrun : Inv c (parsedEntries mktime options plugin accurateMode data).toPop d)
    (hpc : d.pc = .returned) : ((handledQueries d.heap).map Handled.entry).Perm
      (parsedEntries mktime options plugin accurateMode data).toPop := by
  have hready := plugin.getEntries_dispatchable mktime options accurateMode data
  rw [map_entry_handledQueries, State.heap, (hrun.at_pc hpc).1, List.nil_append]
  exact hrun.handled_perm (fun _ => hpos) hready.unmarked hpc

/-- Every run comes to an end. -/
theorem queueReporters_terminatesIn (hpos : 0 < c.threadsCount) (hdepth : 0 < c.queueDepth)
    (hcall : ∀ e, ∃ x, call e x) {k : ℕ} (hupdates : ∀ x, (updates x).length ≤ k) {q : AnyEntries}
    (hq : parsedEntries mktime options plugin accurateMode data = q) :
    TerminatesIn (queueReporters c call updates perform).Step
      ((k + 1) * (5 * q.toPop.length + 6 * c.threadsCount + 4))
      ⟨begin mktime options plugin accurateMode data, initial, []⟩ fun s =>
        Reporters.Inv (queueReporters c call updates perform) initial s ∧
          (Inv c q.toPop s.dispatcher ∧ s.dispatcher.Cleared) ∧ s.dispatcher.pc = .returned := by
  subst hq
  set q := parsedEntries mktime options plugin accurateMode data with hq
  have hready : q.Dispatchable := plugin.getEntries_dispatchable mktime options accurateMode data
  have hbegin : Inv c q.toPop (begin mktime options plugin accurateMode data) ∧
      (begin mktime options plugin accurateMode data).Cleared :=
    ⟨Inv.run (AnyEntries.drains_toPop _) rfl, State.run_cleared _ _⟩
  have hlowers : Lowers (Step c) (fun d : State AnyEntries AnyEntry => Inv c q.toPop d ∧ d.Cleared)
      (stepsLeft c q.toPop) :=
    ⟨fun _ _ hi hstep => ⟨hi.1.step (fun _ => hpos) hstep, hstep.cleared hi.2⟩,
      fun _ _ hi hstep => hi.1.stepsLeft_lt (fun _ => hpos) hstep⟩
  have hcalls : ∀ x, ∃ y, QueueCall call x y := by
    rintro (e | _)
    · obtain ⟨y, hy⟩ := hcall e
      exact ⟨some y, hy⟩
    · exact ⟨none, trivial⟩
  have hlength : ∀ x : Option C, (x.toList.flatMap updates).length ≤ k := by
    rintro (_ | x)
    · exact Nat.zero_le _
    · simpa using hupdates x
  have hheap : ∀ d d' : State AnyEntries AnyEntry, Inv c q.toPop d ∧ d.Cleared → Step c d d' →
      HeapStep d.heap d'.heap := fun _ _ hi hstep => hstep.heapStep hi.2
  have hrest : ∀ d : State AnyEntries AnyEntry, Inv c q.toPop d ∧ d.Cleared →
      (∀ d', ¬Step c d d') → d.pc = .returned := fun _ hi hstuck =>
    hi.1.returned_of_rest (fun _ => hpos) hdepth hready.unmarked hstuck
  exact Reporters.terminatesIn (m := queueReporters c call updates perform) hlowers hlength hcalls
    hheap hbegin rfl (hbegin.1.stepsLeft_le rfl) hrest

end Queues

variable {c : Config} {s : Reporters.State (State AnyEntries AnyEntry) Reporting Action}

/-- When the dispatcher has returned, the workers have reported the log. -/
theorem reportsLog_of_returned (hpos : 0 < c.threadsCount)
    (hrun : Inv c (parsedEntries mktime options plugin accurateMode data).toPop s.dispatcher ∧
      s.dispatcher.Cleared)
    (h : Reporters.Inv (reporters c options client ignoreRowResultDiffs) {} s)
    (hpc : s.dispatcher.pc = .returned) : s.reports.Finished ∧
      ReportsLog options client ignoreRowResultDiffs
        (parsedEntries mktime options plugin accurateMode data).toPop s.reports.shared.report := by
  have hready := plugin.getEntries_dispatchable mktime options accurateMode data
  obtain ⟨threads, hcalls, hruns, hfinished⟩ := reported_of_returned hrun.1 h hpc
  exact ⟨hfinished, reportsLog_of_calls hready (Or.inl rfl)
    (hrun.1.inOrder hready.unmarked hrun.2).handle (handledQueries_perm hpos hrun.1 hpc) hcalls
    (totals_of_finished hruns hfinished)⟩

/-- Whatever the interleaving of the dispatcher, the workers and their reports, the run comes to
an end, with the report of the log. -/
theorem threadPool_terminates_with_report (hpos : 0 < c.threadsCount) (hdepth : 0 < c.queueDepth)
    (hclient : ∀ query expected, ∃ r, client query expected r) {q : AnyEntries}
    (hq : parsedEntries mktime options plugin accurateMode data = q) :
    TerminatesIn (reporters c options client ignoreRowResultDiffs).Step
      (12 * (5 * q.toPop.length + 6 * c.threadsCount + 4))
      ⟨begin mktime options plugin accurateMode data, {}, []⟩ fun s =>
        s.dispatcher.pc = .returned ∧ s.reports.Finished ∧
          ReportsLog options client ignoreRowResultDiffs q.toPop s.reports.shared.report := by
  have hends := @queueReporters_terminatesIn mktime options plugin accurateMode data _ _ _ c
    (Call options client) (program ignoreRowResultDiffs) Action.perform {} hpos hdepth
    (exists_call hclient) _ (length_program_le ignoreRowResultDiffs) q hq
  subst hq
  refine ⟨hends.bounded, fun s hs hstuck => ?_⟩
  obtain ⟨hreports, hrun, hpc⟩ := hends.final s hs hstuck
  exact ⟨hpc, reportsLog_of_returned hpos hrun hreports hpc⟩

theorem threadPool_terminates_with_report_sample :
    TerminatesIn (reporters ⟨1, 1, fun _ => 0⟩ sampleOptions nullClient false).Step 240
      ⟨begin (fun _ => 0) sampleOptions .generalLog false sampleGeneralLog, {}, []⟩ fun s =>
        s.dispatcher.pc = .returned ∧ s.reports.Finished ∧ ReportsLog sampleOptions nullClient
          false sampleGeneralEntries.toPop s.reports.shared.report :=
  threadPool_terminates_with_report (by decide) (by decide) nullClient_total parsedEntries_sample

end ThreadPool

/-- With the null client both dispatchers leave the same report of the log: every statement
counted on its connection, no error and no difference in the rows. -/
theorem nullClient_reports (mktime : Tm → Int) (options : QueryLogOptions) (plugin : InputPlugin)
    (accurateMode : Bool) (data : Bytes) (ignoreRowResultDiffs : Bool) :
    (∀ depth s, ReflTransGen
        (ThreadPerConnection.reporters depth options nullClient ignoreRowResultDiffs).Step
        ⟨ThreadPerConnection.begin mktime options plugin accurateMode data, {}, []⟩ s →
      s.dispatcher.pc = .returned →
      NullReport (parsedEntries mktime options plugin accurateMode data).toPop
        s.reports.shared.report) ∧
    (∀ c s, 0 < c.threadsCount →
      ReflTransGen (ThreadPool.reporters c options nullClient ignoreRowResultDiffs).Step
        ⟨ThreadPool.begin mktime options plugin accurateMode data, {}, []⟩ s →
      s.dispatcher.pc = .returned →
      NullReport (parsedEntries mktime options plugin accurateMode data).toPop
        s.reports.shared.report) := by
  constructor
  · intro depth s h hpc
    have hreports := Reporters.inv_of_reaches rfl h
    have hrun := ThreadPerConnection.inv_of_begin (Reporters.reaches_dispatcher h)
    exact (ThreadPerConnection.reportsLog_of_returned hrun hreports hpc).2.null
  · intro c s hpos h hpc
    have hreports := Reporters.inv_of_reaches rfl h
    have hrun := ThreadPool.inv_of_begin hpos (Reporters.reaches_dispatcher h)
    exact (ThreadPool.reportsLog_of_returned hpos hrun hreports hpc).2.null

/-- Two statements on connection 7 are counted there. -/
theorem nullClient_reports_sample : ∃ s : Reporters.State
      (ThreadPerConnection.State AnyEntries AnyEntry) Reporting Action,
    s.dispatcher.pc = .returned ∧ s.reports.shared.report.nrQueriesExecuted = 2 ∧
      s.reports.shared.report.connectionQueryCounts.lookup 7 = some 2 := by
  obtain ⟨s, hs, hpc⟩ := ThreadPerConnection.sampleReport_run
  have hreport := (nullClient_reports (fun _ => 0) sampleOptions .generalLog false
    sampleGeneralLog false).1 1 s hs hpc
  rw [parsedEntries_sample] at hreport
  exact ⟨s, hpc, hreport.executed, hreport.connection 7⟩

end Runs

end QueryPlayback
