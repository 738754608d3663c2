import QueryPlayback.Playback.PoolSettings
import QueryPlayback.Playback.RunAll
import QueryPlayback.Report.Printed
import QueryPlayback.Report.Together

/-!
# The whole program

The start-up turns the command line into settings, the selected input plugin
reads and parses its log, the selected dispatcher replays it with the report
plugins behind its workers, and at the end the active plugins print what they
hold, in the order of their names.

## Implementation notes

The answers of the database client are arbitrary, and so are the largest delay
of the accurate mode and the order of the simple report's hash map. A report is
printed as its numbers, without the texts around them.
-/

namespace QueryPlayback.Startup

open QueryEntry QueryEntries Updates Bounded Relation

/-- The selected input plugin; there are two. -/
def Settings.inputPlugin (st : Settings) : InputPlugin :=
  if st.input = .generalLog then .generalLog else .queryLog

/-- Whether it reads standard input. -/
def Settings.stdIn (st : Settings) : Bool :=
  match st.inputPlugin with
  | .generalLog => st.plugins.generalLog.stdIn
  | .queryLog => st.plugins.queryLog.stdIn

/-- The flags of the report plugins. -/
def Settings.active (st : Settings) (p : Plugin) : Bool := st.reports.contains p

/-- What a call of `print_report` prints. -/
inductive PrintedReport where
  | errorReport (text : Bytes)
  | fullReport (lines : List StatementCount)
  | queryLogReport (milliseconds : Int64)
  | simpleReport (text : SimpleReportText)

section Print

variable (st : Settings) (accurateMode : Bool) (maxBehindNs : Int64)

/-- `print_report` of a report plugin, behind a run with the given flag and largest delay. -/
def printReport (elements : List (UInt64 × UInt64)) (r : AllReports) :
    Plugin → Option PrintedReport
  | .errorReport => some (.errorReport ErrorReportPlugin.printReport)
  | .fullReport => some (.fullReport r.full.printReport)
  | .queryLogReport =>
      if accurateMode then some (.queryLogReport (maxBehindNs / 1000000)) else none
  | .simpleReport => some (.simpleReport
      (r.simple.report.printReport st.showConnectionQueryCount elements))
  | _ => none

/-- The loop over the report plugins at the end of `percona_playback_run`. -/
def printReports (elements : List (UInt64 × UInt64)) (r : AllReports) :
    List (Plugin × PrintedReport) :=
  st.reports.filterMap fun p => (printReport st accurateMode maxBehindNs elements r p).map (p, ·)

/-- What a report plugin has to print of a log behind calls that tell it. -/
def Expected (entries : List AnyEntry) (calls : List ReportCall) : Plugin → PrintedReport → Prop
  | .errorReport, .errorReport text => text = bytes "Error Report finished\n\n\n"
  | .fullReport, .fullReport lines =>
      lines = (FullReportPlugin.after (calls.map ReportCall.statement)).printReport
  | .queryLogReport, .queryLogReport milliseconds =>
      accurateMode = true ∧ milliseconds = maxBehindNs / 1000000
  | .simpleReport, .simpleReport text =>
      SimpleReportPlugin.Printed st.showConnectionQueryCount (calls.map ReportCall.report) text ∧
        text.perThread =
          if st.showConnectionQueryCount then some (perThreadResults entries) else none
  | _, _ => False

end Print

/-- What the program prints of a log. The paragraphs of the slower queries come while it is
replayed, those of each thread in their order. At the end each active plugin prints what it
has to, that of the slow log in accurate mode only. -/
structure Prints (st : Settings) (client : Client) (accurateMode : Bool)
    (entries : List AnyEntry) (reports : System AllReports ReportUpdate) : Prop where
  finished : reports.Finished
  calls : ∃ threads, TellsLog st.queryLogOptions client entries threads.flatten ∧
    (if st.active .errorReport then ErrorReportPlugin.Reported threads reports.shared.error
      else reports.shared.error = {}) ∧
    ∀ maxBehindNs elements,
      SimpleReportPlugin.Iterates reports.shared.simple.report.connectionQueryCounts elements →
      ∀ printed, printReports st accurateMode maxBehindNs elements reports.shared = printed →
        printed.map Prod.fst = st.reports.filter (fun p => p ≠ .queryLogReport || accurateMode) ∧
        ∀ x ∈ printed, Expected st accurateMode maxBehindNs entries threads.flatten x.1 x.2

section Reports

variable {st : Settings} {client : Client} {entries : List AnyEntry}

/-- A plugin that prints something prints what it has to. -/
theorem expected_of_printReport {threads : List (List ReportCall)} {r : AllReports}
    (htells : TellsLog st.queryLogOptions client entries threads.flatten)
    (hreported : r.Reported st.active st.ignoreRowResultDiffs threads) {accurateMode : Bool}
    {maxBehindNs : Int64} {elements : List (UInt64 × UInt64)}
    (helements : SimpleReportPlugin.Iterates r.simple.report.connectionQueryCounts elements)
    {p : Plugin} (hactive : st.active p = true) {x : PrintedReport}
    (hx : printReport st accurateMode maxBehindNs elements r p = some x) :
    Expected st accurateMode maxBehindNs entries threads.flatten p x := by
  cases p with
  | errorReport =>
      obtain rfl := Option.some.inj hx
      rfl
  | fullReport =>
      have hfull := hreported.full
      rw [if_pos hactive] at hfull
      obtain rfl := Option.some.inj hx
      change r.full.printReport = _
      rw [hfull]
  | queryLogReport =>
      rw [printReport] at hx
      split_ifs at hx with haccurate
      obtain rfl := Option.some.inj hx
      exact ⟨haccurate, rfl⟩
  | simpleReport =>
      have hsimple := hreported.simple
      rw [if_pos hactive] at hsimple
      obtain rfl := Option.some.inj hx
      have hlog := htells.reportsLog hsimple
      exact ⟨hsimple.printed _ helements, (hlog.printsLog _ helements).perThread⟩
  | _ => cases hx

/-- Reports of the log are printed as they should be. -/
theorem prints_of_reportsTogether (accurateMode : Bool)
    (hkinds : ∀ p ∈ st.reports, p.kind = .report)
    {reports : System AllReports ReportUpdate}
    (h : ReportsTogether st.queryLogOptions client st.active st.ignoreRowResultDiffs entries
      reports) : Prints st client accurateMode entries reports := by
  obtain ⟨hfinished, threads, htells, hreported⟩ := h
  refine ⟨hfinished, threads, htells, hreported.error, ?_⟩
  rintro maxBehindNs elements helements _ rfl
  constructor
  · rw [printReports, List.map_filterMap, ← List.filterMap_eq_filter]
    refine List.filterMap_congr fun p hp => ?_
    have hkind := hkinds p hp
    cases p <;> first | rfl | (cases accurateMode <;> rfl) | cases hkind
  · intro x hx
    obtain ⟨p, hp, hprinted⟩ := List.mem_filterMap.mp hx
    obtain ⟨y, hy, rfl⟩ := Option.map_eq_some_iff.mp hprinted
    exact expected_of_printReport htells hreported helements
      (List.contains_iff_mem.mpr hp) hy

end Reports

section Accepted

variable {r : Registry} {host : Host} {cl : CommandLine r} {st : Settings}

theorem selectPlugin_kind {kind : Kind} {given : Option String} {defaults : List Plugin}
    {invalid missing : String} {p : Plugin} (hdefaults : ∀ q ∈ defaults, q.kind = kind)
    (h : selectPlugin r kind given defaults invalid missing = .ok p) : p.kind = kind := by
  cases given with
  | some name =>
      rw [selectPlugin] at h
      cases hfind : r.find kind name with
      | none =>
          rw [hfind] at h
          cases h
      | some q =>
          rw [hfind] at h
          injection h with h
          have hq := List.find?_some hfind
          rw [decide_eq_true_eq] at hq
          exact h ▸ hq.1
  | none =>
      rw [selectPlugin] at h
      cases hfind : defaults.find? r.registered with
      | none =>
          rw [hfind] at h
          cases h
      | some q =>
          rw [hfind] at h
          injection h with h
          exact h ▸ hdefaults q (List.mem_of_find?_eq_some hfind)

/-- One of the two dispatchers has been selected. -/
theorem dispatcher_of_accepted (haccepted : perconaPlaybackArgv r host cl = .ok st) :
    st.dispatcher = .threadPerConnection ∨ st.dispatcher = .threadPool := by
  obtain ⟨sel, plugins, hsel, rfl⟩ := perconaPlaybackArgv_ok haccepted
  obtain ⟨db, -, h⟩ := bind_eq_ok hsel
  obtain ⟨input, -, h⟩ := bind_eq_ok h
  obtain ⟨dispatcher, hdispatcher, h⟩ := bind_eq_ok h
  obtain ⟨disabled, -, h⟩ := bind_eq_ok h
  injection h with h
  subst h
  have hkind := selectPlugin_kind (by decide) hdispatcher
  change dispatcher = .threadPerConnection ∨ dispatcher = .threadPool
  cases dispatcher <;> first | exact Or.inl rfl | exact Or.inr rfl | cases hkind

theorem queueDepth_of_accepted (haccepted : perconaPlaybackArgv r host cl = .ok st) :
    st.queueDepth = (cl.given .queueDepth).getD (1 : UInt32) := by
  obtain ⟨sel, plugins, -, rfl⟩ := perconaPlaybackArgv_ok haccepted
  have hdeclared : r.declares .queueDepth = true := rfl
  change ((cl.store host.hardwareConcurrency).value? .queueDepth).getD (1 : UInt32) = _
  rw [value?_store hdeclared]
  cases cl.given .queueDepth <;> rfl

theorem reports_of_accepted (haccepted : perconaPlaybackArgv r host cl = .ok st) :
    ∀ p ∈ st.reports, p.kind = .report := by
  obtain ⟨sel, plugins, -, rfl⟩ := perconaPlaybackArgv_ok haccepted
  intro p hp
  have hactive := (List.mem_filter.mp hp).2
  rw [Bool.and_eq_true, decide_eq_true_eq] at hactive
  exact hactive.1

theorem toNat_pos {n : UInt32} (h : n ≠ 0) : 0 < n.toNat := by
  rw [Nat.pos_iff_ne_zero, Ne, ← UInt32.toNat_zero, UInt32.toNat_inj]
  exact h

end Accepted

section Runs

/-- What has been parsed has been read before. -/
theorem parsed_of_run {mktime : Tm → Int} {options : QueryLogOptions} {log : Bytes}
    {plugin : InputPlugin} {stdIn : Bool} {o : Outcomes log} {w : World} {result : RunResult}
    {q : AnyEntries} (h : (plugin.run mktime options stdIn o w result).1.parsed = some q) :
    ∃ data, (plugin.run mktime options stdIn o w result).1.read = some data ∧
      parsedEntries mktime options plugin w.accurateMode data = q := by
  have hthread : ∀ {data w'}, w'.accurateMode = w.accurateMode →
      (logReaderThread mktime options plugin w' data result).1.parsed = some q →
      parsedEntries mktime options plugin w.accurateMode data = q :=
    fun hw h => hw ▸ Option.some.inj h
  cases plugin with
  | queryLog =>
      unfold InputPlugin.run QueryLogPlugin.run at h ⊢
      by_cases hstdin : stdIn = true
      · simp only [hstdin, if_true] at h ⊢
        exact ⟨_, rfl, hthread rfl h⟩
      · by_cases hopened : o.opened = true
        · cases hsize : o.size with
          | none => simp [hstdin, hopened, hsize] at h
          | some size =>
              by_cases hmapped : o.mapped = true
              · simp only [hstdin, hopened, hsize, hmapped, Bool.not_true, Bool.false_eq_true,
                  if_false] at h ⊢
                exact ⟨_, rfl, hthread rfl h⟩
              · simp [hstdin, hopened, hsize, hmapped] at h
        · simp [hstdin, hopened] at h
  | generalLog =>
      unfold InputPlugin.run GeneralLogPlugin.run at h ⊢
      by_cases hstdin : stdIn = true
      · simp only [hstdin, if_true] at h ⊢
        exact ⟨_, rfl, hthread rfl h⟩
      · by_cases hopened : o.opened = true
        · simp only [hstdin, hopened, Bool.not_true, Bool.false_eq_true, if_false] at h ⊢
          exact ⟨_, rfl, hthread rfl h⟩
        · simp [hstdin, hopened] at h

/-- Whatever the interleaving, the selected dispatcher, its workers and the report plugins come to
an end over the entries, in a number of steps that these bound, and leave good reports. -/
def Settings.Ends (st : Settings) (checksum : UInt64 → UInt32) (client : Client) (q : AnyEntries)
    (Good : System AllReports ReportUpdate → Prop) : Prop :=
  match st.dispatcher with
  | .threadPerConnection =>
      TerminatesIn (ThreadPerConnection.allReporters st.queueDepth.toNat st.queryLogOptions client
          st.active st.ignoreRowResultDiffs).Step
        (20 * (6 * q.toPop.length + (ThreadPerConnection.connections q.toPop).card + 2))
        ⟨(ThreadPerConnection.State.init q).dispatch q, {}, []⟩
        fun s => Good s.reports ∧ s.dispatcher.pc = .returned
  | .threadPool =>
      TerminatesIn (ThreadPool.allReporters (st.poolConfig checksum) st.queryLogOptions client
          st.active st.ignoreRowResultDiffs).Step
        (20 * (5 * q.toPop.length + 6 * st.threadsCount.toNat + 4))
        ⟨(ThreadPool.State.init q).run q, {}, []⟩
        fun s => Good s.reports ∧ s.dispatcher.pc = .returned
  | _ => False

variable {r : Registry} {host : Host} {cl : CommandLine r} {st : Settings}

/-- With settings of an accepted command line, with room in the queues, whatever the input plugin
has parsed is replayed to its end and printed as it should be. The pool must have a thread, and
the dispatcher with a thread for each connection must not have too many of them. -/
theorem program_prints_log (haccepted : perconaPlaybackArgv r host cl = .ok st)
    (hthreads : st.dispatcher = .threadPool →
      (cl.given .threadPoolThreadsCount).getD host.hardwareConcurrency ≠ (0 : UInt32))
    (hdepth : cl.given .queueDepth ≠ some (0 : UInt32)) (checksum : UInt64 → UInt32)
    {client : Client} (hclient : ∀ query expected, ∃ r, client query expected r)
    {mktime : Tm → Int} {log : Bytes} {outcomes : ℕ → Outcomes log} {ran : Ran} {w : World}
    (hrun : perconaPlaybackRun mktime st.queryLogOptions st.inputPlugin st.stdIn outcomes 0
      ⟨log, st.queryLogOptions.accurateMode⟩ = (ran, w)) {q : AnyEntries}
    (hparsed : ran.parsed = some q)
    (hfew : st.dispatcher = .threadPerConnection →
      (ThreadPerConnection.connections q.toPop).card ≤ 10001) :
    st.Ends checksum client q (Prints st client w.accurateMode q.toPop) := by
  have hpos : 0 < st.queueDepth.toNat := by
    refine toNat_pos ?_
    rw [queueDepth_of_accepted haccepted]
    cases hgiven : cl.given .queueDepth with
    | none => exact (by decide : (1 : UInt32) ≠ 0)
    | some d => exact fun hzero => hdepth (hgiven.trans (congrArg some hzero))
  obtain ⟨data, -, hq⟩ : ∃ data, ran.read = some data ∧ parsedEntries mktime st.queryLogOptions
      st.inputPlugin st.queryLogOptions.accurateMode data = q := by
    rw [show ran = _ from (congrArg Prod.fst hrun).symm] at hparsed ⊢
    exact parsed_of_run hparsed
  have hprints : ∀ reports, ReportsTogether st.queryLogOptions client st.active
      st.ignoreRowResultDiffs q.toPop reports → Prints st client w.accurateMode q.toPop reports :=
    fun _ h => prints_of_reportsTogether w.accurateMode (reports_of_accepted haccepted) h
  rcases dispatcher_of_accepted haccepted with hdispatcher | hdispatcher
  · have hends := @ThreadPerConnection.allReporters_terminatesIn mktime st.queryLogOptions
      st.inputPlugin st.queryLogOptions.accurateMode data client st.active
      st.ignoreRowResultDiffs st.queueDepth.toNat hpos hclient q hq (hfew hdispatcher)
    rw [Settings.Ends, hdispatcher]
    subst hq
    exact hends.imp fun s hs => ⟨hprints _ hs.1, hs.2⟩
  · have hthreads : 0 < (st.poolConfig checksum).threadsCount := by
      refine toNat_pos ?_
      rw [(settings_of_accepted haccepted hdispatcher).1]
      exact hthreads hdispatcher
    have hends := @ThreadPool.allReporters_terminatesIn mktime st.queryLogOptions
      st.inputPlugin st.queryLogOptions.accurateMode data client st.active
      st.ignoreRowResultDiffs (st.poolConfig checksum) hthreads hpos hclient q hq
    rw [Settings.Ends, hdispatcher]
    subst hq
    exact hends.imp fun s hs => ⟨hprints _ hs.1, hs.2⟩

/-- `--input-plugin=general-log --general-log-file=general.log --db-plugin=null
--dispatcher-plugin=thread-pool --thread-pool-threads-count=2`. -/
def generalLogCommand : CommandLine .full where
  argc := 6
  given
    | .inputPlugin => some "general-log"
    | .generalLogFile => some (bytes "general.log")
    | .dbPlugin => some "null"
    | .dispatcherPlugin => some "thread-pool"
    | .threadPoolThreadsCount => some (2 : UInt32)
    | _ => none
  declared o _ := full_declares o
  nothing := nofun
  generalLogFlags := nofun
  queryLogFlags := ⟨nofun, nofun, nofun, nofun, nofun⟩
  simpleReportFlags := ⟨nofun, nofun⟩

/-- The file can be opened and read. -/
def generalLogOutcomes : Outcomes sampleGeneralLog where
  opened := true
  size := none
  size_le := nofun
  mapped := false
  failsAfter := none

/-- The sample is replayed by two threads and printed. -/
theorem program_prints_log_sample : ∃ st,
    perconaPlaybackArgv .full sampleHost generalLogCommand = .ok st ∧
      st.Ends (fun _ => 0) nullClient sampleGeneralEntries
        (Prints st nullClient false sampleGeneralEntries.toPop) := by
  refine ⟨_, rfl, ?_⟩
  have hparsed : (InputPlugin.run (fun _ => 0) sampleOptions false generalLogOutcomes
      ⟨sampleGeneralLog, false⟩ {} .generalLog).1.parsed = some sampleGeneralEntries :=
    congrArg some parsedEntries_sample
  exact @program_prints_log .full sampleHost generalLogCommand _ rfl
    (fun _ => (by decide : (2 : UInt32) ≠ 0)) nofun (fun _ => 0) nullClient nullClient_total
    (fun _ => 0) sampleGeneralLog (fun _ => generalLogOutcomes) _ _ rfl _ hparsed nofun

end Runs

end QueryPlayback.Startup
