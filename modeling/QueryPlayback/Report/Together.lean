import QueryPlayback.Playback.Startup
import QueryPlayback.Report.Detailed
import QueryPlayback.Report.ErrorReport
import QueryPlayback.Report.Replayed

/-!
# All report plugins together

Behind every entry that is executed a worker calls the active report plugins in
the order of their names. Each plugin has members of its own, so each of its
reports is what it would be without the others.

## Implementation notes

`query_execution` of the query log's report does nothing.
-/

namespace QueryPlayback

open QueryEntry QueryEntries Updates Bounded Relation Startup

/-- `report_plugins` of a registry with all plugins: the map is ordered by the names. -/
def reportPlugins : List Plugin := Plugin.all.filter fun p => p.kind = .report

/-- The members of the report plugins. -/
structure AllReports where
  error : ErrorReportPlugin := {}
  full : FullReportPlugin := {}
  simple : SimpleReportPlugin.Reporting := {}

/-- An update of the members of one of them. -/
inductive ReportUpdate where
  | error (u : ErrorReportPlugin.Update)
  | full (u : FullReportPlugin.Update)
  | simple (a : SimpleReportPlugin.Action)

namespace ReportUpdate

def perform : ReportUpdate → AllReports → AllReports
  | error u, r => { r with error := u.apply r.error }
  | full u, r => { r with full := u.apply r.full }
  | simple a, r => { r with simple := a.perform r.simple }

def error? : ReportUpdate → Option ErrorReportPlugin.Update
  | error u => some u
  | _ => none

def full? : ReportUpdate → Option FullReportPlugin.Update
  | full u => some u
  | _ => none

def simple? : ReportUpdate → Option SimpleReportPlugin.Action
  | simple a => some a
  | _ => none

end ReportUpdate

section Calls

variable (active : Plugin → Bool) (ignoreRowResultDiffs : Bool)

/-- `query_execution` of a report plugin. -/
def queryExecution (c : ReportCall) : Plugin → List ReportUpdate
  | .errorReport => (ErrorReportPlugin.updates c).map .error
  | .fullReport => (FullReportPlugin.updates c.statement).map .full
  | .simpleReport => (SimpleReportPlugin.program ignoreRowResultDiffs c.report).map .simple
  | _ => []

/-- The loop over the report plugins at the end of `execute`. -/
def reportUpdates (c : ReportCall) : List ReportUpdate :=
  (reportPlugins.filter active).flatMap (queryExecution ignoreRowResultDiffs c)

variable {active ignoreRowResultDiffs}

theorem reportPlugins_eq :
    reportPlugins = [.errorReport, .fullReport, .queryLogReport, .simpleReport] := by decide

/-- The plugins that the start-up leaves active are called. -/
theorem settings_reports (r : Registry) (sel : Selection) (vm : VariablesMap) (s : PluginSettings) :
    (settings r sel vm s).reports =
      reportPlugins.filter fun p => r.registered p && sel.active p := by
  rw [settings, reportPlugins, Registry.allPlugins, List.filter_filter, List.filter_filter]
  exact List.filter_congr fun p _ => by
    cases r.registered p <;> cases sel.active p <;> simp

/-- The updates of a plugin are those of its own calls, if it is active. -/
theorem filterMap_reportUpdates (c : ReportCall) :
    (reportUpdates active ignoreRowResultDiffs c).filterMap ReportUpdate.error? =
        (if active .errorReport then ErrorReportPlugin.updates c else []) ∧
      (reportUpdates active ignoreRowResultDiffs c).filterMap ReportUpdate.full? =
        (if active .fullReport then FullReportPlugin.updates c.statement else []) ∧
      (reportUpdates active ignoreRowResultDiffs c).filterMap ReportUpdate.simple? =
        (if active .simpleReport then SimpleReportPlugin.program ignoreRowResultDiffs c.report
          else []) := by
  simp only [reportUpdates, reportPlugins_eq, List.filterMap_flatMap, List.filter_cons,
    List.filter_nil]
  refine ⟨?_, ?_, ?_⟩ <;> split_ifs <;>
    simp [queryExecution, List.filterMap_map, Function.comp_def, ReportUpdate.error?,
      ReportUpdate.full?, ReportUpdate.simple?]

/-- All plugins together take at most 19 updates for a call. -/
theorem length_reportUpdates_le (c : ReportCall) :
    (reportUpdates active ignoreRowResultDiffs c).length ≤ 19 := by
  have herror : (ErrorReportPlugin.updates c).length ≤ 3 := by
    rw [ErrorReportPlugin.updates]
    split_ifs <;> simp
  have hfull : (FullReportPlugin.updates c.statement).length ≤ 5 := by
    rw [FullReportPlugin.updates]
    cases category (toUpperCopy c.statement.query) <;> split_ifs <;> simp
  have hsimple := SimpleReportPlugin.length_program_le ignoreRowResultDiffs c.report
  simp only [reportUpdates, reportPlugins_eq, List.filter_cons, List.filter_nil]
  split_ifs <;> simp [queryExecution] <;> omega

end Calls

/-- What the plugins hold when the calls of all threads have returned. One that is not active holds
nothing. -/
structure AllReports.Reported (active : Plugin → Bool) (ignoreRowResultDiffs : Bool)
    (threads : List (List ReportCall)) (r : AllReports) : Prop where
  error : if active .errorReport then ErrorReportPlugin.Reported threads r.error else r.error = {}
  full : r.full = if active .fullReport then
    FullReportPlugin.after (threads.flatten.map ReportCall.statement) else {}
  simple : if active .simpleReport then SimpleReportPlugin.Totals ignoreRowResultDiffs
    (threads.flatten.map ReportCall.report) r.simple.report else r.simple.report = {}

section Runs

variable {active : Plugin → Bool} {ignoreRowResultDiffs : Bool} {threads : List (List ReportCall)}
  {sys : System AllReports ReportUpdate}

theorem finished_filterMap {U U' : Type} {g : U → Option U'} {programs : List (List U)}
    (h : ∀ l ∈ programs, l = []) : ∀ l ∈ programs.map (List.filterMap g), l = [] := by
  intro l hl
  obtain ⟨l', hl', rfl⟩ := List.mem_map.mp hl
  rw [h l' hl']
  rfl

/-- A plugin that makes no updates stays as it is. -/
theorem eq_of_no_updates {S U : Type} {perform : U → S → S} {s : S} {sys : System S U}
    (h : Runs perform ⟨s, threads.map (·.flatMap fun _ => [])⟩ sys) : sys.shared = s := by
  rw [h.eq_of_finished]
  intro l hl
  obtain ⟨calls, -, rfl⟩ := List.mem_map.mp hl
  simp

/-- Every plugin reports as if it were alone. -/
theorem AllReports.reported_of_finished
    (h : Runs ReportUpdate.perform
      ⟨{}, threads.map (·.flatMap (reportUpdates active ignoreRowResultDiffs))⟩ sys)
    (hfinished : sys.Finished) : sys.shared.Reported active ignoreRowResultDiffs threads where
  error := by
    have hruns := h.project ErrorReportPlugin.Update.apply AllReports.error ReportUpdate.error?
      fun r u => by cases u <;> rfl
    rw [filterMap_programs fun c => (filterMap_reportUpdates c).1] at hruns
    split_ifs with hactive
    · simp only [hactive, if_true] at hruns
      exact ErrorReportPlugin.reported_of_finished hruns (finished_filterMap hfinished)
    · simp only [hactive, Bool.false_eq_true, if_false] at hruns
      exact eq_of_no_updates hruns
  full := by
    have hruns := h.project FullReportPlugin.Update.apply AllReports.full ReportUpdate.full?
      fun r u => by cases u <;> rfl
    rw [filterMap_programs fun c => (filterMap_reportUpdates c).2.1] at hruns
    split_ifs with hactive
    · simp only [hactive, if_true] at hruns
      have hthreads : (threads.map (·.flatMap fun c => FullReportPlugin.updates c.statement)) =
          (threads.map (·.map ReportCall.statement)).map (·.flatMap FullReportPlugin.updates) := by
        rw [List.map_map]
        exact List.map_congr_left fun calls _ => (List.flatMap_map _ _ _).symm
      rw [hthreads] at hruns
      rw [List.map_flatten]
      exact FullReportPlugin.eq_after_of_finished hruns (finished_filterMap hfinished)
    · simp only [hactive, Bool.false_eq_true, if_false] at hruns
      exact eq_of_no_updates hruns
  simple := by
    have hruns := h.project SimpleReportPlugin.Action.perform AllReports.simple ReportUpdate.simple?
      fun r u => by cases u <;> rfl
    rw [filterMap_programs fun c => (filterMap_reportUpdates c).2.2] at hruns
    split_ifs with hactive
    · simp only [hactive, if_true] at hruns
      have hthreads : (threads.map (·.flatMap fun c =>
          SimpleReportPlugin.program ignoreRowResultDiffs c.report)) =
            (threads.map (·.map ReportCall.report)).map
              (·.flatMap (SimpleReportPlugin.program ignoreRowResultDiffs)) := by
        rw [List.map_map]
        exact List.map_congr_left fun calls _ => (List.flatMap_map _ _ _).symm
      rw [hthreads] at hruns
      rw [List.map_flatten]
      exact SimpleReportPlugin.totals_of_finished hruns (finished_filterMap hfinished)
    · simp only [hactive, Bool.false_eq_true, if_false] at hruns
      have hsame := eq_of_no_updates hruns
      rw [show sys.shared.simple = {} from hsame]

end Runs

section Told

variable (options : QueryLogOptions) (client : Client)

/-- What the plugins are told behind the execution of an entry. -/
def Told (e : AnyEntry) (c : ReportCall) : Prop :=
  ∃ r startTime endTime, client (e.query options) e.expectedResult r ∧
    c = ⟨(e.execute options r startTime endTime).query,
      (e.execute options r startTime endTime).report⟩

theorem told_iff (e : AnyEntry) (c : ReportCall) :
    Told options client e c ↔ c.query = e.query options ∧ Call options client e c.report := by
  have hquery : ∀ r startTime endTime,
      (e.execute options r startTime endTime).query = e.query options := by
    intro r startTime endTime
    cases e <;> rfl
  constructor
  · rintro ⟨r, startTime, endTime, hr, rfl⟩
    exact ⟨hquery r startTime endTime, r, startTime, endTime, hr, rfl⟩
  · obtain ⟨query, report⟩ := c
    rintro ⟨rfl, r, startTime, endTime, hr, rfl⟩
    exact ⟨r, startTime, endTime, hr, by rw [hquery]⟩

/-- The same is told behind entries of one connection with the same content. -/
theorem Told.congr {e e' : AnyEntry} {c : ReportCall} (hid : getThreadId e = getThreadId e')
    (hcontent : e.content = e'.content) (h : Told options client e c) :
    Told options client e' c := by
  rw [told_iff] at h ⊢
  refine ⟨?_, h.2.congr options client hid hcontent⟩
  rw [h.1, ← e'.query_content, ← hcontent, e.query_content]

variable {options client}

/-- What is told behind the entries that a dispatcher has popped is told behind those of the log,
whether they were flagged or not. -/
theorem forall₂_told_of_map_eq {entries entries' : List AnyEntry} {calls : List ReportCall}
    (hsame : entries.map (fun e => (getThreadId e, isQuit e, e.content)) =
      entries'.map fun e => (getThreadId e, isQuit e, e.content))
    (h : List.Forall₂ (Told options client) (entries.filter fun e => !isQuit e) calls) :
    List.Forall₂ (Told options client) (entries'.filter fun e => !isQuit e) calls := by
  have hfilter : ∀ l : List AnyEntry,
      (l.filter fun e => !isQuit e).map (fun e => (getThreadId e, isQuit e, e.content)) =
        (l.map fun e => (getThreadId e, isQuit e, e.content)).filter fun p => !p.2.1 := by
    intro l
    rw [List.filter_map]
    rfl
  refine forall₂_of_map_eq (f := fun e => (getThreadId e, isQuit e, e.content)) ?_ ?_ h
  · intro e e' c hsame hc
    simp only [Prod.mk.injEq] at hsame
    exact hc.congr options client hsame.1 hsame.2.2
  · rw [hfilter, hfilter, hsame]

/-- What the plugins are told of a log: on every connection about its statements in their order. -/
def TellsLog (options : QueryLogOptions) (client : Client) (entries : List AnyEntry)
    (calls : List ReportCall) : Prop :=
  ∀ id, List.Forall₂ (Told options client) ((ofThread id entries).filter fun e => !isQuit e)
    (calls.filter (·.report.threadId = id))

theorem Told.threadId {e : AnyEntry} {c : ReportCall} (h : Told options client e c) :
    getThreadId e = c.report.threadId := by
  obtain ⟨r, startTime, endTime, -, rfl⟩ := h
  rw [e.report_execute]

/-- In some order there is one call for each statement of the log. -/
theorem TellsLog.exists_perm {entries : List AnyEntry} {calls : List ReportCall}
    (h : TellsLog options client entries calls) : ∃ calls', calls'.Perm calls ∧
      List.Forall₂ (Told options client) (entries.filter fun e => !isQuit e) calls' := by
  have hkeys : ∀ id, List.Forall₂ (Told options client)
      ((entries.filter fun e => !isQuit e).filter (getThreadId · = id))
      (calls.filter (·.report.threadId = id)) := by
    intro id
    rw [List.filter_filter, ← List.filter_filter, List.filter_comm]
    exact h id
  exact Replay.exists_perm_of_keys hkeys

/-- The simple report of calls that tell a log is one of the log. -/
theorem TellsLog.reportsLog {options : QueryLogOptions} {calls : List ReportCall}
    (h : TellsLog options client entries calls) {ignoreRowResultDiffs : Bool}
    {r : SimpleReportPlugin}
    (htotals : SimpleReportPlugin.Totals ignoreRowResultDiffs (calls.map ReportCall.report) r) :
    ReportsLog options client ignoreRowResultDiffs entries r := by
  obtain ⟨calls', hperm, htold⟩ := h.exists_perm
  refine ⟨calls'.map ReportCall.report, ?_, htotals.perm (hperm.map _).symm⟩
  exact List.forall₂_map_right_iff.mpr (htold.imp fun e c h => ((told_iff _ _ e c).mp h).2)

/-- The calls behind all entries tell the log. -/
theorem tellsLog_of_calls {q : AnyEntries} (hq : q.Dispatchable) {all : List AnyEntry}
    (hall : all = q.toPop ∨ all = (setShutdownOnLastQueryOfConn q).toPop)
    {handled : List (Handled AnyEntry)} (horder : InOrder all handled)
    (hperm : (handled.map Handled.entry).Perm all) {calls : List ReportCall}
    (hcalls : List.Forall₂ (Told options client) (executed handled) calls) :
    TellsLog options client q.toPop calls := by
  intro id
  have hsame : (ofThread id (handled.map Handled.entry)).map
        (fun e => (getThreadId e, isQuit e, e.content)) =
      (ofThread id q.toPop).map fun e => (getThreadId e, isQuit e, e.content) := by
    have hofThread : ∀ l : List AnyEntry,
        (ofThread id l).map (fun e => (getThreadId e, isQuit e, e.content)) =
          (l.map fun e => (getThreadId e, isQuit e, e.content)).filter (·.1 = id) := by
      intro l
      rw [List.filter_map]
      rfl
    rw [(horder.begins id).eq_of_length (hperm.filter _).length_eq, hofThread, hofThread]
    rcases hall with rfl | rfl
    · rfl
    · rw [hq.same]
  refine forall₂_told_of_map_eq hsame ?_
  have htold := Replay.forall₂_filter_key (fun _ _ h => Told.threadId h) hcalls id
  rwa [executed_eq_filter horder.handle, List.filter_filter, ← List.filter_filter,
    List.filter_comm] at htold

end Told

section Dispatched

variable {mktime : Tm → Int} {options : QueryLogOptions} {plugin : InputPlugin}
  {accurateMode : Bool} {data : Bytes} {client : Client} {active : Plugin → Bool}
  {ignoreRowResultDiffs : Bool}

/-- All calls of the report plugins have returned, and the active plugins hold the reports of
calls that tell the log. -/
def ReportsTogether (options : QueryLogOptions) (client : Client) (active : Plugin → Bool)
    (ignoreRowResultDiffs : Bool) (entries : List AnyEntry)
    (reports : System AllReports ReportUpdate) : Prop :=
  reports.Finished ∧ ∃ threads, TellsLog options client entries threads.flatten ∧
    reports.shared.Reported active ignoreRowResultDiffs threads

theorem exists_told (hclient : ∀ query expected, ∃ r, client query expected r) (e : AnyEntry) :
    ∃ c, Told options client e c := by
  obtain ⟨r, hr⟩ := hclient (e.query options) e.expectedResult
  exact ⟨_, r, 0, 0, hr, rfl⟩

namespace ThreadPerConnection

/-- The dispatcher whose workers tell all report plugins what the client has answered. -/
abbrev allReporters (depth : ℕ) (options : QueryLogOptions) (client : Client)
    (active : Plugin → Bool) (ignoreRowResultDiffs : Bool) :
    Reporters (State AnyEntries AnyEntry) AnyEntry ReportCall AllReports ReportUpdate :=
  callReporters depth (Told options client) (reportUpdates active ignoreRowResultDiffs)
    ReportUpdate.perform

variable {depth : ℕ} {s : Reporters.State (State AnyEntries AnyEntry) AllReports ReportUpdate}

/-- When the dispatcher has returned, the workers have told the log. -/
theorem reportsTogether_of_returned
    (hrun : Inv (setShutdownOnLastQueryOfConn
      (parsedEntries mktime options plugin accurateMode data)).toPop s.dispatcher)
    (h : Reporters.Inv (allReporters depth options client active ignoreRowResultDiffs) {} s)
    (hpc : s.dispatcher.pc = .returned) : ReportsTogether options client active
      ignoreRowResultDiffs (parsedEntries mktime options plugin accurateMode data).toPop
      s.reports := by
  have hready := plugin.getEntries_dispatchable mktime options accurateMode data
  obtain ⟨threads, hcalls, hruns, hfinished⟩ := reported_of_returned hrun h hpc
  exact ⟨hfinished, threads, tellsLog_of_calls hready (Or.inr rfl) hrun.inOrder
    (handledBy_perm hrun hpc) hcalls, AllReports.reported_of_finished hruns hfinished⟩

/-- With at most 10001 connections every run comes to an end. -/
theorem allReporters_terminatesIn (hdepth : 0 < depth)
    (hclient : ∀ query expected, ∃ r, client query expected r) {q : AnyEntries}
    (hq : parsedEntries mktime options plugin accurateMode data = q)
    (hfew : (connections q.toPop).card ≤ 10001) :
    TerminatesIn (allReporters depth options client active ignoreRowResultDiffs).Step
      (20 * (6 * q.toPop.length + (connections q.toPop).card + 2))
      ⟨begin mktime options plugin accurateMode data, {}, []⟩ fun s =>
        ReportsTogether options client active ignoreRowResultDiffs q.toPop s.reports ∧
          s.dispatcher.pc = .returned := by
  have hends := @callReporters_terminatesIn mktime options plugin accurateMode data _ _ _ depth
    (Told options client) (reportUpdates active ignoreRowResultDiffs) ReportUpdate.perform {} hdepth
    (exists_told hclient) _ length_reportUpdates_le q hq hfew
  subst hq
  refine ⟨hends.bounded, fun s hs hrest => ?_⟩
  obtain ⟨hreports, hrun, hpc⟩ := hends.final s hs hrest
  exact ⟨reportsTogether_of_returned hrun.inv hreports hpc, hpc⟩

end ThreadPerConnection

namespace ThreadPool

/-- The dispatcher whose workers tell all report plugins what the client has answered. -/
abbrev allReporters (c : Config) (options : QueryLogOptions) (client : Client)
    (active : Plugin → Bool) (ignoreRowResultDiffs : Bool) :
    Reporters (State AnyEntries AnyEntry) (QueueEntry AnyEntry) (Option ReportCall) AllReports
      ReportUpdate :=
  queueReporters c (Told options client) (reportUpdates active ignoreRowResultDiffs)
    ReportUpdate.perform

variable {c : Config} {s : Reporters.State (State AnyEntries AnyEntry) AllReports ReportUpdate}

/-- When the dispatcher has returned, the workers have told the log. -/
theorem reportsTogether_of_returned (hpos : 0 < c.threadsCount)
    (hrun : Inv c (parsedEntries mktime options plugin accurateMode data).toPop s.dispatcher ∧
      s.dispatcher.Cleared)
    (h : Reporters.Inv (allReporters c options client active ignoreRowResultDiffs) {} s)
    (hpc : s.dispatcher.pc = .returned) : ReportsTogether options client active
      ignoreRowResultDiffs (parsedEntries mktime options plugin accurateMode data).toPop
      s.reports := by
  have hready := plugin.getEntries_dispatchable mktime options accurateMode data
  obtain ⟨threads, hcalls, hruns, hfinished⟩ := reported_of_returned hrun.1 h hpc
  exact ⟨hfinished, threads, tellsLog_of_calls hready (Or.inl rfl)
    (hrun.1.inOrder hready.unmarked hrun.2) (handledQueries_perm hpos hrun.1 hpc) hcalls,
    AllReports.reported_of_finished hruns hfinished⟩

/-- Every run comes to an end. -/
theorem allReporters_terminatesIn (hpos : 0 < c.threadsCount) (hdepth : 0 < c.queueDepth)
    (hclient : ∀ query expected, ∃ r, client query expected r) {q : AnyEntries}
    (hq : parsedEntries mktime options plugin accurateMode data = q) :
    TerminatesIn (allReporters c options client active ignoreRowResultDiffs).Step
      (20 * (5 * q.toPop.length + 6 * c.threadsCount + 4))
      ⟨begin mktime options plugin accurateMode data, {}, []⟩ fun s =>
        ReportsTogether options client active ignoreRowResultDiffs q.toPop s.reports ∧
          s.dispatcher.pc = .returned := by
  have hends := @queueReporters_terminatesIn mktime options plugin accurateMode data _ _ _ c
    (Told options client) (reportUpdates active ignoreRowResultDiffs) ReportUpdate.perform {} hpos
    hdepth (exists_told hclient) _ length_reportUpdates_le q hq
  subst hq
  refine ⟨hends.bounded, fun s hs hstuck => ?_⟩
  obtain ⟨hreports, hrun, hpc⟩ := hends.final s hs hstuck
  exact ⟨reportsTogether_of_returned hpos hrun hreports hpc, hpc⟩

end ThreadPool

/-- Whatever the dispatcher, the interleaving and the answers, when the dispatcher has returned
the active plugins hold the reports of one call for each statement of the log, and the calls of
every connection are in the order of the log. -/
theorem dispatchers_report_together (mktime : Tm → Int) (options : QueryLogOptions)
    (plugin : InputPlugin) (accurateMode : Bool) (data : Bytes) (client : Client)
    (active : Plugin → Bool) (ignoreRowResultDiffs : Bool) :
    (∀ depth s, ReflTransGen
        (ThreadPerConnection.allReporters depth options client active ignoreRowResultDiffs).Step
        ⟨ThreadPerConnection.begin mktime options plugin accurateMode data, {}, []⟩ s →
      s.dispatcher.pc = .returned → ReportsTogether options client active ignoreRowResultDiffs
        (parsedEntries mktime options plugin accurateMode data).toPop s.reports) ∧
    (∀ c s, 0 < c.threadsCount → ReflTransGen
        (ThreadPool.allReporters c options client active ignoreRowResultDiffs).Step
        ⟨ThreadPool.begin mktime options plugin accurateMode data, {}, []⟩ s →
      s.dispatcher.pc = .returned → ReportsTogether options client active ignoreRowResultDiffs
        (parsedEntries mktime options plugin accurateMode data).toPop s.reports) := by
  constructor
  · intro depth s h hpc
    have hrun := ThreadPerConnection.inv_of_begin (Reporters.reaches_dispatcher h)
    exact ThreadPerConnection.reportsTogether_of_returned hrun (Reporters.inv_of_reaches rfl h) hpc
  · intro c s hpos h hpc
    have hrun := ThreadPool.inv_of_begin hpos (Reporters.reaches_dispatcher h)
    exact ThreadPool.reportsTogether_of_returned hpos hrun (Reporters.inv_of_reaches rfl h) hpc

/-- The sample with all plugins active, answered by the null client. -/
theorem dispatchers_report_together_sample : ∃ s : Reporters.State
      (ThreadPool.State AnyEntries AnyEntry) AllReports ReportUpdate,
    s.dispatcher.pc = .returned ∧ ReportsTogether sampleOptions nullClient (fun _ => true) false
      sampleGeneralEntries.toPop s.reports := by
  have hends : TerminatesIn (ThreadPool.allReporters ⟨1, 1, fun _ => 0⟩ sampleOptions nullClient
      (fun _ => true) false).Step _ _ _ :=
    ThreadPool.allReporters_terminatesIn Nat.one_pos Nat.one_pos nullClient_total
      parsedEntries_sample
  obtain ⟨s, hs, -, hpc⟩ := hends.exists_final
  have htogether := (dispatchers_report_together (fun _ => 0) sampleOptions .generalLog false
    sampleGeneralLog nullClient (fun _ => true) false).2 ⟨1, 1, fun _ => 0⟩ s Nat.one_pos hs hpc
  rw [parsedEntries_sample] at htogether
  exact ⟨s, hpc, htogether⟩

end Dispatched

end QueryPlayback
