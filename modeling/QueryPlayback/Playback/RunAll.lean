import QueryPlayback.Playback.Input

/-!
# Running the playback

`percona_playback_run_all` runs the playback as often as the loop count says and
stops with an error when the result of a run has one. No plugin ever sets it,
so a log that has not been read is not reported.
-/

namespace QueryPlayback

open QueryEntry QueryEntries

section Runs

variable (mktime : Tm → Int) (options : QueryLogOptions) {log : Bytes} (plugin : InputPlugin)
  (stdIn : Bool) (outcomes : ℕ → Outcomes log)

/-- `percona_playback_run`: the plugin gets a new result without an error. -/
def perconaPlaybackRun (run : ℕ) (w : World) : Ran × World :=
  plugin.run mktime options stdIn (outcomes run) w {}

/-- The loop of `percona_playback_run_all` from a run on: what it returns, and its runs. -/
def runsFrom : (left run : ℕ) → World → Int × List Ran
  | 0, _, _ => (0, [])
  | left + 1, run, w =>
      let (ran, w) := perconaPlaybackRun mktime options plugin stdIn outcomes run w
      if ran.result.err ≠ 0 then (-1, [ran])
      else
        let (code, rans) := runsFrom left (run + 1) w
        (code, ran :: rans)

/-- `percona_playback_run_all` with the log in its file or on standard input. -/
def perconaPlaybackRunAll (loop : ℕ) : Int × List Ran :=
  runsFrom mktime options plugin stdIn outcomes loop 0 ⟨log, options.accurateMode⟩

end Runs

/-- The run has read the whole log and dispatched every entry parsed from it. -/
def Ran.Complete (log : Bytes) (ran : Ran) : Prop :=
  ran.read = some log ∧
    ∃ q, ran.parsed = some q ∧ Drains (setShutdownOnLastQueryOfConn q) ran.dispatched

/-- Zero is returned only if every run was complete, and a run that was not has an error. -/
def ReportsFailures (log : Bytes) (loop : ℕ) (all : Int × List Ran) : Prop :=
  (all.1 = 0 → all.2.length = loop ∧ ∀ ran ∈ all.2, ran.Complete log) ∧
    ∀ ran ∈ all.2, ¬ran.Complete log → ran.result.err ≠ 0

section Conditions

variable {log : Bytes}

/-- Reading does not fail before the end of the log. -/
def Outcomes.ReadsAll (o : Outcomes log) : Prop := ∀ n, o.failsAfter = some n → log.length ≤ n

/-- What the operating system must grant to a run. Standard input can be read once. -/
def InputPlugin.Granted (stdIn : Bool) (o : Outcomes log) (run : ℕ) : InputPlugin → Prop
  | plugin =>
      if stdIn then if run = 0 then o.ReadsAll else log = []
      else
        match plugin with
        | queryLog => o.opened = true ∧ o.size = some log.length ∧ o.mapped = true
        | generalLog => o.opened = true ∧ o.ReadsAll

end Conditions

section Plugins

variable {mktime : Tm → Int} {options : QueryLogOptions} {log : Bytes} {plugin : InputPlugin}
  {stdIn : Bool} {o : Outcomes log} {w : World} {result : RunResult}

@[simp] theorem logReaderThread_stdin (data : Bytes) :
    (logReaderThread mktime options plugin w data result).2.stdin = w.stdin := rfl

/-- Whatever has been read is parsed and dispatched. -/
theorem logReaderThread_complete_iff (data : Bytes) :
    (logReaderThread mktime options plugin w data result).1.Complete log ↔ data = log := by
  constructor
  · intro h
    exact Option.some.inj h.1
  · rintro rfl
    exact ⟨rfl, _, rfl, AnyEntries.drains_toPop _⟩

/-- A run that returns early is not complete. -/
theorem not_complete_early : ¬({ result := result } : Ran).Complete log := by
  rintro ⟨hread, -⟩
  cases hread

/-- No plugin sets the error. -/
theorem run_err : (plugin.run mktime options stdIn o w result).1.result.err = result.err := by
  cases plugin with
  | queryLog =>
      unfold InputPlugin.run QueryLogPlugin.run
      dsimp only
      split
      · rfl
      · split
        · rfl
        · split
          · rfl
          · split <;> rfl
  | generalLog =>
      unfold InputPlugin.run GeneralLogPlugin.run
      dsimp only
      split
      · rfl
      · split <;> rfl

theorem take_available_eq_iff {rest : Bytes} {failsAfter : Option ℕ} :
    rest.take (Stream.mk rest failsAfter).available = rest ↔
      ∀ n, failsAfter = some n → rest.length ≤ n := by
  rw [List.take_eq_self_iff]
  cases failsAfter with
  | none => simp [Stream.available]
  | some n => simp [Stream.available]

/-- The block loop of a run on standard input reads it up to its end or its error. -/
theorem readAll_eq (rest : Bytes) (failsAfter : Option ℕ) :
    let s : Stream := ⟨rest, failsAfter⟩
    let all := s.readBlocks Stream.blockSize (rest.length + 1) []
    all.1 = rest.take s.available ∧ all.2.rest = rest.drop s.available := by
  intro s
  have hpos : 0 < Stream.blockSize := by decide
  have hfuel : s.available < rest.length + 1 := Nat.lt_succ_of_le s.available_le
  exact Stream.readBlocks_eq hpos [] hfuel

/-- A run on a file is complete exactly if the operating system grants what it needs. -/
theorem run_file_complete_iff (run : ℕ) :
    (plugin.run mktime options false o w result).1.Complete log ↔ plugin.Granted false o run := by
  cases plugin with
  | queryLog =>
      unfold InputPlugin.run QueryLogPlugin.run InputPlugin.Granted
      simp only [Bool.false_eq_true, if_false]
      by_cases hopened : o.opened = true
      · cases hsize : o.size with
        | none => simp [hopened, not_complete_early]
        | some size =>
            have hle := o.size_le size hsize
            by_cases hmapped : o.mapped = true
            · simp only [hopened, hmapped, Bool.not_true, Bool.false_eq_true, if_false,
                logReaderThread_complete_iff, List.take_eq_self_iff, Option.some.injEq, true_and,
                and_true]
              omega
            · simp [hopened, hmapped, not_complete_early]
      · simp [hopened, not_complete_early]
  | generalLog =>
      unfold InputPlugin.run GeneralLogPlugin.run InputPlugin.Granted
      simp only [Bool.false_eq_true, if_false]
      by_cases hopened : o.opened = true
      · simp only [hopened, Bool.not_true, Bool.false_eq_true, if_false,
          logReaderThread_complete_iff, Stream.getlines, take_available_eq_iff, true_and]
        rfl
      · simp [hopened, not_complete_early]

/-- A run on standard input is complete exactly if what is left of it is the log and can be
read to its end. -/
theorem run_stdin_complete_iff :
    (plugin.run mktime options true o w result).1.Complete log ↔
      w.stdin.take (Stream.mk w.stdin o.failsAfter).available = log := by
  cases plugin with
  | queryLog =>
      have hblocks := readAll_eq w.stdin o.failsAfter
      unfold InputPlugin.run QueryLogPlugin.run
      simp only [if_true, logReaderThread_complete_iff, hblocks.1]
  | generalLog =>
      unfold InputPlugin.run GeneralLogPlugin.run
      simp only [if_true, logReaderThread_complete_iff, Stream.getlines]

/-- Behind a complete run nothing is left on standard input. -/
theorem run_stdin_rest (h : w.stdin.take (Stream.mk w.stdin o.failsAfter).available = w.stdin) :
    (plugin.run mktime options true o w result).2.stdin = [] := by
  cases plugin with
  | queryLog =>
      have hblocks := readAll_eq w.stdin o.failsAfter
      unfold InputPlugin.run QueryLogPlugin.run
      simp only [if_true, logReaderThread_stdin, hblocks.2]
      exact List.drop_eq_nil_of_le ((List.take_eq_self_iff _).mp h)
  | generalLog => rfl

end Plugins

section All

variable {mktime : Tm → Int} {options : QueryLogOptions} {log : Bytes} {plugin : InputPlugin}
  {stdIn : Bool} {outcomes : ℕ → Outcomes log}

/-- A run never ends the loop. -/
theorem runsFrom_succ (left run : ℕ) (w : World) :
    runsFrom mktime options plugin stdIn outcomes (left + 1) run w =
      let p := perconaPlaybackRun mktime options plugin stdIn outcomes run w
      let all := runsFrom mktime options plugin stdIn outcomes left (run + 1) p.2
      (all.1, p.1 :: all.2) := by
  have herr : (perconaPlaybackRun mktime options plugin stdIn outcomes run w).1.result.err = 0 :=
    run_err
  rw [runsFrom]
  simp only [herr, ne_eq, not_true_eq_false, if_false]

/-- Whatever happens in the runs, all of them take place, none has an error and the loop
returns zero. -/
theorem runsFrom_silent (left run : ℕ) (w : World) :
    let all := runsFrom mktime options plugin stdIn outcomes left run w
    all.1 = 0 ∧ all.2.length = left ∧ ∀ ran ∈ all.2, ran.result.err = 0 := by
  induction left generalizing run w with
  | zero => exact ⟨rfl, rfl, by simp [runsFrom]⟩
  | succ left ih =>
      obtain ⟨hcode, hlength, herr⟩ :=
        ih (run + 1) (perconaPlaybackRun mktime options plugin stdIn outcomes run w).2
      simp only [runsFrom_succ]
      refine ⟨hcode, by rw [List.length_cons, hlength], ?_⟩
      intro ran hran
      rcases List.mem_cons.mp hran with rfl | hran
      · exact run_err
      · exact herr ran hran

/-- As nothing is reported, only complete runs meet the specification. -/
theorem reportsFailures_iff_complete (loop : ℕ) :
    let all := perconaPlaybackRunAll mktime options plugin stdIn outcomes loop
    ReportsFailures log loop all ↔ ∀ ran ∈ all.2, ran.Complete log := by
  obtain ⟨hcode, hlength, -⟩ := @runsFrom_silent mktime options log plugin stdIn outcomes loop 0
    ⟨log, options.accurateMode⟩
  constructor
  · intro h
    exact (h.1 hcode).2
  · intro h
    exact ⟨fun _ => ⟨hlength, h⟩, fun ran hran hnot => absurd (h ran hran) hnot⟩

/-- The runs on a file do not depend on each other. -/
theorem runsFrom_file_iff (left run : ℕ) (w : World) :
    (∀ ran ∈ (runsFrom mktime options plugin false outcomes left run w).2, ran.Complete log) ↔
      ∀ k, run ≤ k → k < run + left → plugin.Granted false (outcomes k) k := by
  induction left generalizing run w with
  | zero =>
      simp only [runsFrom, List.not_mem_nil, false_imp_iff, implies_true, true_iff]
      intro k hle hlt
      omega
  | succ left ih =>
      have hfirst : (perconaPlaybackRun mktime options plugin false outcomes run w).1.Complete log ↔
          plugin.Granted false (outcomes run) run := run_file_complete_iff run
      simp only [runsFrom_succ, List.forall_mem_cons, hfirst, ih]
      constructor
      · rintro ⟨hrun, hrest⟩ k hle hlt
        by_cases hk : k = run
        · exact hk ▸ hrun
        · exact hrest k (by omega) (by omega)
      · intro h
        exact ⟨h run (Nat.le_refl _) (by omega), fun k hle hlt => h k (by omega) (by omega)⟩

/-- Once standard input is used up, a run is complete only on an empty log. -/
theorem runsFrom_stdin_nil_iff (left run : ℕ) {w : World} (h : w.stdin = []) :
    (∀ ran ∈ (runsFrom mktime options plugin true outcomes left run w).2, ran.Complete log) ↔
      left = 0 ∨ log = [] := by
  induction left generalizing run w with
  | zero => simp [runsFrom]
  | succ left ih =>
      have hfirst : (perconaPlaybackRun mktime options plugin true outcomes run w).1.Complete log ↔
          log = [] := by
        unfold perconaPlaybackRun
        rw [run_stdin_complete_iff, h, List.take_nil, eq_comm]
      have hrest : (perconaPlaybackRun mktime options plugin true outcomes run w).2.stdin = [] := by
        apply run_stdin_rest
        rw [h, List.take_nil]
      simp only [runsFrom_succ, List.forall_mem_cons, hfirst, ih (run + 1) hrest]
      simp only [Nat.succ_ne_zero, false_or, and_iff_left_iff_imp]
      exact Or.inr

/-- The first run on standard input can be complete, every other one only on an empty log. -/
theorem perconaPlaybackRunAll_stdin_iff (loop : ℕ) :
    (∀ ran ∈ (perconaPlaybackRunAll mktime options plugin true outcomes loop).2,
        ran.Complete log) ↔
      ∀ run, run < loop → plugin.Granted true (outcomes run) run := by
  unfold perconaPlaybackRunAll
  cases loop with
  | zero => simp [runsFrom]
  | succ left =>
      have hfirst : (perconaPlaybackRun mktime options plugin true outcomes 0
          ⟨log, options.accurateMode⟩).1.Complete log ↔ (outcomes 0).ReadsAll := by
        unfold perconaPlaybackRun Outcomes.ReadsAll
        rw [run_stdin_complete_iff, take_available_eq_iff]
      have hused (h : (outcomes 0).ReadsAll) :
          (perconaPlaybackRun mktime options plugin true outcomes 0
            ⟨log, options.accurateMode⟩).2.stdin = [] :=
        run_stdin_rest (take_available_eq_iff.mpr h)
      simp only [runsFrom_succ, List.forall_mem_cons, hfirst, InputPlugin.Granted, if_true]
      constructor
      · rintro ⟨hreads, hcomplete⟩ run hrun
        split
        · next hzero => exact hzero ▸ hreads
        · next hpos =>
            rcases (runsFrom_stdin_nil_iff left 1 (hused hreads)).mp hcomplete with hleft | hlog
            · omega
            · exact hlog
      · intro h
        have hreads : (outcomes 0).ReadsAll := by simpa using h 0 (Nat.succ_pos _)
        refine ⟨hreads, (runsFrom_stdin_nil_iff left 1 (hused hreads)).mpr ?_⟩
        cases left with
        | zero => exact Or.inl rfl
        | succ left => exact Or.inr (by simpa using h 1 (by omega))

/-- Failures are reported exactly if there is none: in every run the operating system grants
what the plugin needs to read the whole log. -/
theorem runAll_reportsFailures_iff (mktime : Tm → Int) (options : QueryLogOptions) {log : Bytes}
    (plugin : InputPlugin) (stdIn : Bool) (outcomes : ℕ → Outcomes log) (loop : ℕ) :
    ReportsFailures log loop
        (perconaPlaybackRunAll mktime options plugin stdIn outcomes loop) ↔
      ∀ run, run < loop → plugin.Granted stdIn (outcomes run) run := by
  apply (reportsFailures_iff_complete loop).trans
  cases stdIn with
  | true => exact perconaPlaybackRunAll_stdin_iff loop
  | false =>
      unfold perconaPlaybackRunAll
      rw [runsFrom_file_iff]
      simp only [Nat.zero_le, Nat.zero_add, true_imp_iff]

/-- The outcomes for a log file that cannot be opened. -/
def Outcomes.notOpened (log : Bytes) : Outcomes log where
  opened := false
  size := none
  size_le := by
    intro n h
    cases h
  mapped := false
  failsAfter := none

/-- The only run cannot open its file: it has read nothing, its result has no error and
`percona_playback_run_all` returns zero. -/
theorem unopened_log_succeeds :
    let log : Bytes := bytes "# User@Host: a[a] @ h []\nSELECT 1;\n"
    let all := perconaPlaybackRunAll (fun td => td.sec) ⟨false, false, false, true⟩ .queryLog false
      (fun _ => Outcomes.notOpened log) 1
    all.1 = 0 ∧ all.2.map (fun ran => (ran.result.err, ran.read)) = [(0, none)] ∧
      ¬ReportsFailures log 1 all := by
  intro log all
  refine ⟨by decide +kernel, by decide +kernel, ?_⟩
  intro h
  obtain ⟨-, hcomplete⟩ := h.1 (by decide +kernel)
  have hread : ∀ ran ∈ all.2, ran.read ≠ some log := by decide +kernel
  have hran : all.2 ≠ [] := by
    intro hnil
    have hlength : all.2.length = 1 := by decide +kernel
    rw [hnil] at hlength
    cases hlength
  obtain ⟨ran, hmem⟩ := List.exists_mem_of_ne_nil _ hran
  exact hread ran hmem (hcomplete ran hmem).1

end All

end QueryPlayback
