import QueryPlayback.Playback.Startup

/-!
# Options of unselected plugins

Whoever gives an option of a plugin that is not selected has made a mistake, and the
start-up is to fail because of it. Each plugin makes this check on its own.
-/

namespace QueryPlayback.Startup

/-- What `processOptions` of a plugin that is not selected asks of the options. -/
def refuses (vm : VariablesMap) : Plugin → Bool
  | .generalLog => givenToUnselected vm [.generalLogFile] [.generalLogStdin]
  | .libmysqlclient =>
      givenToUnselected vm
        [.mysqlHost, .mysqlUsername, .mysqlPassword, .mysqlSchema, .mysqlSocket, .mysqlPort] []
  | .queryLog =>
      givenToUnselected vm [.queryLogFile]
        [.queryLogStdin, .queryLogPreserveQueryTime, .queryLogSetTimestamp]
  | .simpleReport =>
      givenToUnselected vm [.showPerConnectionQueryCount, .ignoreRowResultDiffs] []
  | .threadPool => givenToUnselected vm [] [.threadPoolThreadsCount]
  | .errorReport | .fullReport | .null | .queryLogReport | .threadPerConnection => false

/-- A plugin that is not selected refuses its options or leaves everything as it is. -/
theorem processOptions_unselected (p : Plugin) (vm : VariablesMap) (s : PluginSettings)
    (host : Host) : p.processOptions false vm s host =
      if refuses vm p then .error (.notSelected p) else .ok s := by
  cases p <;> rfl

section CommandLines

variable {r : Registry}

/-- The option stands on the command line. -/
def CommandLine.Gives (cl : CommandLine r) (o : Opt) : Prop := (cl.given o).isSome = true

instance (cl : CommandLine r) (o : Opt) : Decidable (cl.Gives o) := instDecidableEqBool _ _

/-- One of the options of the plugin stands on the command line. -/
def CommandLine.GivesOptionOf (cl : CommandLine r) (p : Plugin) : Prop :=
  ∃ o ∈ p.getProgramOptions, cl.Gives o

/-- The options by which an unselected plugin tells that it has been given some. -/
def noticed : Plugin → List Opt
  | .generalLog => [.generalLogFile, .generalLogStdin]
  | .libmysqlclient =>
      [.mysqlHost, .mysqlUsername, .mysqlPassword, .mysqlSchema, .mysqlSocket, .mysqlPort]
  | .queryLog =>
      [.queryLogFile, .queryLogStdin, .queryLogPreserveQueryTime, .queryLogSetTimestamp]
  | .threadPool => [.threadPoolThreadsCount]
  | _ => []

/-- The options that an unselected plugin passes over. -/
def overlooked : Plugin → List Opt
  | .libmysqlclient => [.mysqlMaxRetries, .mysqlFilterError, .mysqlTestConnect]
  | .queryLog => [.queryLogAccurateMode, .queryLogDisableSorting]
  | _ => []

/-- The options of a plugin are noticed or overlooked, those of the simple report apart. -/
theorem mem_getProgramOptions_iff {p : Plugin} (hp : p ≠ .simpleReport) (o : Opt) :
    o ∈ p.getProgramOptions ↔ o ∈ noticed p ∨ o ∈ overlooked p := by
  cases p <;> first | exact absurd rfl hp | (cases o <;> decide)

/-- Options without a default are counted when they are given, options with a default
are asked for that. -/
theorem givenToUnselected_store (cl : CommandLine r) (hw : UInt32) {counted asked : List Opt}
    (hcounted : ∀ o ∈ counted, o.default? hw = none)
    (hasked : ∀ o ∈ asked, r.declares o = true ∧ (o.default? hw).isSome = true) :
    givenToUnselected (cl.store hw) counted asked = true ↔
      ∃ o ∈ counted ++ asked, cl.Gives o := by
  have hcount : ∀ o ∈ counted, (cl.store hw).count o = (cl.given o).isSome := by
    intro o ho
    rw [count_store, hcounted o ho, Option.isSome_none, Bool.and_false, Bool.or_false]
  have hask : ∀ o ∈ asked, (!(cl.store hw).defaulted o) = (cl.given o).isSome := by
    intro o ho
    rw [defaulted_store (hasked o ho).1 (hasked o ho).2, Bool.not_not]
  rw [givenToUnselected, Bool.or_eq_true, List.any_eq_true, List.any_eq_true]
  simp only [List.mem_append, or_and_right, exists_or, CommandLine.Gives]
  apply or_congr
  · exact exists_congr fun o => and_congr_right fun ho => by rw [hcount o ho]
  · exact exists_congr fun o => and_congr_right fun ho => by rw [hask o ho]

/-- The simple report refuses whatever is given, the other plugins what they notice. -/
theorem refuses_store (cl : CommandLine r) (hw : UInt32) {p : Plugin}
    (hreg : r.registered p = true) :
    refuses (cl.store hw) p = true ↔ p = .simpleReport ∨ ∃ o ∈ noticed p, cl.Gives o := by
  cases p with
  | simpleReport =>
      have hcount : (cl.store hw).count .showPerConnectionQueryCount = true := by
        rw [count_store, Bool.or_eq_true, Bool.and_eq_true]
        exact Or.inr ⟨hreg, rfl⟩
      simp [refuses, givenToUnselected, hcount]
  | generalLog =>
      rw [or_iff_right (by decide)]
      exact givenToUnselected_store cl hw (by simp [Opt.default?])
        (List.forall_mem_singleton.mpr ⟨hreg, rfl⟩)
  | libmysqlclient =>
      rw [or_iff_right (by decide)]
      exact givenToUnselected_store cl hw (by simp [Opt.default?]) (by simp)
  | queryLog =>
      rw [or_iff_right (by decide)]
      refine givenToUnselected_store cl hw (by simp [Opt.default?]) ?_
      simp only [List.forall_mem_cons, List.not_mem_nil, false_implies, implies_true, and_true]
      exact ⟨⟨hreg, rfl⟩, ⟨hreg, rfl⟩, hreg, rfl⟩
  | threadPool =>
      rw [or_iff_right (by decide)]
      exact givenToUnselected_store cl hw (by simp) (List.forall_mem_singleton.mpr ⟨hreg, rfl⟩)
  | errorReport | fullReport | null | queryLogReport | threadPerConnection =>
      simp [refuses, noticed]

end CommandLines

section Loop

variable {r : Registry} {host : Host} {vm : VariablesMap} {sel : Selection}

/-- Only a plugin that is not selected says so, and it speaks of itself. -/
theorem eq_of_notSelected {p q : Plugin} {active : Bool} {s : PluginSettings}
    (h : q.processOptions active vm s host = .error (.notSelected p)) :
    active = false ∧ q = p := by
  cases active with
  | false =>
      rw [processOptions_unselected] at h
      split at h
      · injection h with h
        injection h with h
        exact ⟨rfl, h⟩
      · cases h
  | true =>
      exfalso
      have hsource : ∀ (q : Plugin) file stdIn (f : InputSettings → PluginSettings),
          (do let source ← inputSource q file stdIn; return f source) ≠
            (.error (.notSelected p) : Except Stop PluginSettings) := by
        intro q file stdIn f
        cases file <;> cases stdIn <;> exact nofun
      cases q with
      | generalLog => exact hsource _ _ _ _ h
      | queryLog => exact hsource _ _ _ _ h
      | libmysqlclient =>
          simp only [Plugin.processOptions, MySQLDBClientPlugin.processOptions, Bool.not_true,
            Bool.false_and, Bool.false_eq_true, if_false] at h
          split at h
          · cases h
          · split at h
            · cases h
            · split at h
              · cases h
              · split at h <;> cases h
      | errorReport | fullReport | null | queryLogReport | threadPerConnection | simpleReport
      | threadPool => cases h

/-- The loop stops at a plugin with what that plugin says. -/
theorem processPlugins_error {plugins : List Plugin} {s : PluginSettings} {stop : Stop}
    (h : processPlugins host sel vm plugins s = .error stop) :
    ∃ q ∈ plugins, ∃ s', q.processOptions (sel.active q) vm s' host = .error stop := by
  induction plugins generalizing s with
  | nil => cases h
  | cons q plugins ih =>
      rw [processPlugins, List.foldlM_cons] at h
      cases hq : q.processOptions (sel.active q) vm s host with
      | error e =>
          rw [hq] at h
          injection h with h
          exact ⟨q, List.mem_cons_self, s, h ▸ hq⟩
      | ok s' =>
          rw [hq] at h
          obtain ⟨q', hq', hstop⟩ := ih h
          exact ⟨q', List.mem_cons_of_mem q hq', hstop⟩

theorem processPlugins_append (plugins plugins' : List Plugin) (s : PluginSettings) :
    processPlugins host sel vm (plugins ++ plugins') s =
      (processPlugins host sel vm plugins s).bind (processPlugins host sel vm plugins') :=
  List.foldlM_append

theorem processPlugins_cons (p : Plugin) (plugins : List Plugin) (s : PluginSettings) :
    processPlugins host sel vm (p :: plugins) s =
      (p.processOptions (sel.active p) vm s host).bind (processPlugins host sel vm plugins) :=
  List.foldlM_cons

/-- The plugins in front of a plugin, the plugin, and the others. -/
theorem allPlugins_split {p : Plugin} (hreg : r.registered p = true) :
    ∃ rest, r.allPlugins = r.allPlugins.takeWhile (· ≠ p) ++ p :: rest := by
  have hmem : p ∈ r.allPlugins := Registry.mem_allPlugins.mpr hreg
  generalize r.allPlugins = plugins at hmem
  induction plugins with
  | nil => cases hmem
  | cons q plugins ih =>
      by_cases hq : q = p
      · exact ⟨plugins, by simp [hq]⟩
      · obtain ⟨rest, hrest⟩ := ih ((List.mem_cons.mp hmem).resolve_left (Ne.symm hq))
        refine ⟨rest, ?_⟩
        rw [List.takeWhile_cons_of_pos (by simpa using hq), List.cons_append, ← hrest]

/-- A plugin has one place in the order. -/
theorem not_mem_of_split {p : Plugin} {front rest : List Plugin}
    (h : r.allPlugins = front ++ p :: rest) : p ∉ rest := by
  have hnodup : r.allPlugins.Nodup := (by decide : Plugin.all.Nodup).filter _
  rw [h, List.nodup_append] at hnodup
  exact (List.nodup_cons.mp hnodup.2.1).1

end Loop

section Argv

variable {r : Registry} {host : Host} {cl : CommandLine r} {sel : Selection} {p : Plugin}

/-- The start-up has got as far as the options of the plugin: neither help nor the version
is asked for, and the plugins in front of it accept their options. -/
def LooksAt (host : Host) (cl : CommandLine r) (sel : Selection) (p : Plugin) : Prop :=
  (cl.given .help = none ∧ cl.argc ≠ 1 ∧ cl.given .version = none) ∧
    ∃ s, processPlugins host sel (cl.store host.hardwareConcurrency)
      (r.allPlugins.takeWhile (· ≠ p)) {} = .ok s

/-- The check of the plugin, if it is not selected, tells its own options from others: the
simple report is given one, and no plugin is given only options that it overlooks. -/
def ChecksRightly (cl : CommandLine r) (p : Plugin) : Prop :=
  (p = .simpleReport → ∃ o ∈ p.getProgramOptions, cl.Gives o) ∧
    ((∃ o ∈ overlooked p, cl.Gives o) → ∃ o ∈ noticed p, cl.Gives o)

/-- The start-up behind the selection of the plugins. -/
theorem perconaPlaybackArgv_eq
    (hsel : select r (cl.store host.hardwareConcurrency) = .ok sel) :
    perconaPlaybackArgv r host cl =
      if (cl.given .help).isSome || cl.argc = 1 then .error .help
      else if (cl.given .version).isSome then .error .version
      else do
        let plugins ← processPlugins host sel (cl.store host.hardwareConcurrency) r.allPlugins {}
        return settings r sel (cl.store host.hardwareConcurrency) plugins := by
  have hhelp : (cl.store host.hardwareConcurrency).count .help = (cl.given .help).isSome := by
    rw [count_store]
    exact Bool.or_false _
  have hversion : (cl.store host.hardwareConcurrency).count .version =
      (cl.given .version).isSome := by
    rw [count_store]
    exact Bool.or_false _
  rw [perconaPlaybackArgv, hsel, ← hhelp, ← hversion]
  rfl

/-- Behind the questions for help and version the loop over the plugins decides. -/
theorem perconaPlaybackArgv_error_iff
    (hsel : select r (cl.store host.hardwareConcurrency) = .ok sel) (hhelp : cl.given .help = none)
    (hargc : cl.argc ≠ 1) (hversion : cl.given .version = none) (stop : Stop) :
    perconaPlaybackArgv r host cl = .error stop ↔
      processPlugins host sel (cl.store host.hardwareConcurrency) r.allPlugins {} =
        .error stop := by
  rw [perconaPlaybackArgv_eq hsel, hhelp, hversion]
  simp only [Option.isSome_none, Bool.false_or, decide_eq_true_eq, if_neg hargc,
    Bool.false_eq_true, if_false]
  cases processPlugins host sel (cl.store host.hardwareConcurrency) r.allPlugins {} with
  | error e =>
      constructor
      · intro h
        cases h
        rfl
      · intro h
        cases h
        rfl
  | ok s => exact ⟨nofun, nofun⟩

/-- Once the start-up looks at the options of an unselected plugin, the check decides. -/
theorem perconaPlaybackArgv_of_looksAt (hreg : r.registered p = true)
    (hsel : select r (cl.store host.hardwareConcurrency) = .ok sel)
    (hinactive : sel.active p = false) (h : LooksAt host cl sel p) :
    perconaPlaybackArgv r host cl = .error (.notSelected p) ↔
      refuses (cl.store host.hardwareConcurrency) p = true := by
  obtain ⟨⟨hhelp, hargc, hversion⟩, s, hfront⟩ := h
  obtain ⟨rest, hsplit⟩ := allPlugins_split hreg
  rw [perconaPlaybackArgv_error_iff hsel hhelp hargc hversion, hsplit, processPlugins_append,
    hfront]
  change processPlugins _ _ _ (p :: rest) s = _ ↔ _
  rw [processPlugins_cons, hinactive, processOptions_unselected]
  split
  · rename_i hrefuses
    exact ⟨fun _ => hrefuses, fun _ => rfl⟩
  · rename_i hrefuses
    change processPlugins _ _ _ rest s = _ ↔ _
    constructor
    · intro hstop
      -- the plugins behind this one speak of themselves
      obtain ⟨q, hq, s', hq'⟩ := processPlugins_error hstop
      obtain ⟨-, rfl⟩ := eq_of_notSelected hq'
      exact absurd hq (not_mem_of_split hsplit)
    · intro hrefuses'
      exact absurd hrefuses' hrefuses

/-- A start-up that does not get as far stops for another reason. -/
theorem perconaPlaybackArgv_of_not_looksAt
    (hreg : r.registered p = true)
    (hsel : select r (cl.store host.hardwareConcurrency) = .ok sel)
    (h : ¬LooksAt host cl sel p) :
    ∃ stop, perconaPlaybackArgv r host cl = .error stop ∧ stop ≠ .notSelected p := by
  by_cases hhelp : (cl.given .help).isSome || cl.argc = 1
  · refine ⟨.help, ?_, nofun⟩
    rw [perconaPlaybackArgv_eq hsel, if_pos hhelp]
  · by_cases hversion : (cl.given .version).isSome
    · refine ⟨.version, ?_, nofun⟩
      rw [perconaPlaybackArgv_eq hsel, if_neg hhelp, if_pos hversion]
    · simp only [Bool.or_eq_true, decide_eq_true_eq, not_or, Bool.not_eq_true,
        Option.isSome_eq_false_iff, Option.isNone_iff_eq_none] at hhelp hversion
      obtain ⟨rest, hsplit⟩ := allPlugins_split hreg
      cases hfront : processPlugins host sel (cl.store host.hardwareConcurrency)
          (r.allPlugins.takeWhile (· ≠ p)) {} with
      | ok s => exact absurd ⟨⟨hhelp.1, hhelp.2, hversion⟩, s, hfront⟩ h
      | error stop =>
          refine ⟨stop, ?_, ?_⟩
          · rw [perconaPlaybackArgv_error_iff hsel hhelp.1 hhelp.2 hversion, hsplit,
              processPlugins_append, hfront]
            rfl
          · rintro rfl
            obtain ⟨q, hq, s', hq'⟩ := processPlugins_error hfront
            obtain ⟨-, rfl⟩ := eq_of_notSelected hq'
            simpa using List.mem_takeWhile_imp hq

/-- The plugin is not selected, and the start-up gets as far as its options. -/
def Unselected (host : Host) (cl : CommandLine r) (p : Plugin) : Prop :=
  ∃ sel, select r (cl.store host.hardwareConcurrency) = .ok sel ∧ sel.active p = false ∧
    LooksAt host cl sel p

theorem bind_eq_error {α β : Type} {x : Except Stop α} {f : α → Except Stop β} {stop : Stop}
    (h : (x >>= f) = .error stop) : x = .error stop ∨ ∃ a, f a = .error stop := by
  cases x with
  | error e =>
      injection h with h
      exact Or.inl (congrArg _ h)
  | ok a => exact Or.inr ⟨a, h⟩

theorem selectPlugin_error {kind : Kind} {given : Option String} {defaults : List Plugin}
    {invalid missing : String} {stop : Stop}
    (h : selectPlugin r kind given defaults invalid missing = .error stop) :
    ∃ message, stop = .invalidPlugin message := by
  have hlookup : ∀ (found : Option Plugin) message,
      found.elim (.error (.invalidPlugin message)) .ok = (.error stop : Except Stop Plugin) →
        stop = .invalidPlugin message := by
    intro found message hfound
    cases found with
    | none =>
        injection hfound with hfound
        exact hfound.symm
    | some q => cases hfound
  cases given with
  | some name => exact ⟨invalid, hlookup _ _ h⟩
  | none => exact ⟨missing, hlookup _ _ h⟩

theorem disableReporting_error {names : List String} {stop : Stop}
    (h : disableReporting r names = .error stop) : ∃ message, stop = .invalidPlugin message := by
  induction names with
  | nil => cases h
  | cons name names ih =>
      rw [disableReporting] at h
      split at h
      · injection h with h
        exact ⟨_, h.symm⟩
      · rcases bind_eq_error h with h | ⟨_, h⟩
        · exact ih h
        · cases h

/-- Selecting the plugins fails because of a name. -/
theorem select_error {vm : VariablesMap} {stop : Stop} (h : select r vm = .error stop) :
    ∃ message, stop = .invalidPlugin message := by
  rcases bind_eq_error h with h | ⟨_, h⟩
  · exact selectPlugin_error h
  · rcases bind_eq_error h with h | ⟨_, h⟩
    · exact selectPlugin_error h
    · rcases bind_eq_error h with h | ⟨_, h⟩
      · exact selectPlugin_error h
      · rcases bind_eq_error h with h | ⟨_, h⟩
        · exact disableReporting_error h
        · cases h

/-- What an unselected plugin refuses, in terms of the command line. -/
theorem refuses_rightly_iff (hreg : r.registered p = true) (hw : UInt32) :
    (refuses (cl.store hw) p = true ↔ cl.GivesOptionOf p) ↔ ChecksRightly cl p := by
  rw [refuses_store cl hw hreg]
  by_cases hp : p = .simpleReport
  · subst hp
    simp [ChecksRightly, overlooked, CommandLine.GivesOptionOf]
  · have hown : cl.GivesOptionOf p ↔
        (∃ o ∈ noticed p, cl.Gives o) ∨ ∃ o ∈ overlooked p, cl.Gives o := by
      simp only [CommandLine.GivesOptionOf, mem_getProgramOptions_iff hp, or_and_right, exists_or]
    rw [hown, or_iff_right hp, ChecksRightly]
    constructor
    · intro h
      exact ⟨fun hsimple => absurd hsimple hp, fun hover => h.mpr (Or.inr hover)⟩
    · rintro ⟨-, h⟩
      exact ⟨Or.inl, fun hgiven => hgiven.elim id h⟩

/-- The start-up fails because of an unselected plugin exactly when one of its options is
given, just when the check of the plugin can tell; it fails so for no other plugin. -/
theorem perconaPlaybackArgv_notSelected_iff (r : Registry) (host : Host) (cl : CommandLine r)
    (p : Plugin) (hreg : r.registered p = true) :
    (Unselected host cl p →
        ((perconaPlaybackArgv r host cl = .error (.notSelected p) ↔ cl.GivesOptionOf p) ↔
          ChecksRightly cl p)) ∧
      (¬Unselected host cl p → perconaPlaybackArgv r host cl ≠ .error (.notSelected p)) := by
  constructor
  · rintro ⟨sel, hsel, hinactive, hlooks⟩
    rw [perconaPlaybackArgv_of_looksAt hreg hsel hinactive hlooks]
    exact refuses_rightly_iff hreg _
  · intro hnot hstop
    cases hsel : select r (cl.store host.hardwareConcurrency) with
    | error stop =>
        obtain ⟨message, rfl⟩ := select_error hsel
        rw [perconaPlaybackArgv, hsel] at hstop
        injection hstop with hstop
        cases hstop
    | ok sel =>
        by_cases hlooks : LooksAt host cl sel p
        · obtain ⟨hhelp, hargc, hversion⟩ := hlooks.1
          rw [perconaPlaybackArgv_error_iff hsel hhelp hargc hversion] at hstop
          obtain ⟨q, -, s, hq⟩ := processPlugins_error hstop
          obtain ⟨hinactive, rfl⟩ := eq_of_notSelected hq
          exact hnot ⟨sel, hsel, hinactive, hlooks⟩
        · obtain ⟨stop, hother, hne⟩ := perconaPlaybackArgv_of_not_looksAt hreg hsel hlooks
          rw [hother] at hstop
          injection hstop with hstop
          exact hne hstop

end Argv

section Samples

/-- A machine with four processors and a client library in working order. -/
def sampleHost : Host where
  hardwareConcurrency := 4
  mysqlThreadSafe := true
  mysqlLibraryInit := 0
  validRegex _ := true
  server := MySQLDBThread.closedServer

theorem full_declares (o : Opt) : Registry.full.declares o = true := by cases o <;> rfl

/-- `--disable-reporting-plugin=simple_report --db-plugin=null --query-log-file=slow.log`. -/
def reportDisabled : CommandLine .full where
  argc := 4
  given
    | .disableReportingPlugin => some ["simple_report"]
    | .dbPlugin => some "null"
    | .queryLogFile => some (bytes "slow.log")
    | _ => none
  declared o _ := full_declares o
  nothing := nofun
  generalLogFlags := nofun
  queryLogFlags := ⟨nofun, nofun, nofun, nofun, nofun⟩
  simpleReportFlags := ⟨nofun, nofun⟩

/-- `--db-plugin=null --mysql-max-retries=3 --query-log-file=slow.log`. -/
def retriesOfNull : CommandLine .full where
  argc := 4
  given
    | .dbPlugin => some "null"
    | .mysqlMaxRetries => some (3 : UInt32)
    | .queryLogFile => some (bytes "slow.log")
    | _ => none
  declared o _ := full_declares o
  nothing := nofun
  generalLogFlags := nofun
  queryLogFlags := ⟨nofun, nofun, nofun, nofun, nofun⟩
  simpleReportFlags := ⟨nofun, nofun⟩

/-- The start-up looks at the options of the disabled report. -/
theorem reportDisabled_unselected : Unselected sampleHost reportDisabled .simpleReport :=
  ⟨_, rfl, rfl, ⟨rfl, by decide, rfl⟩, _, rfl⟩

/-- A disabled report of which no option is given, and an option of a plugin that is not
selected: the start-up fails in the first case and succeeds in the second one. -/
theorem reportDisabled_refused :
    (Unselected sampleHost reportDisabled .simpleReport ∧
      perconaPlaybackArgv .full sampleHost reportDisabled = .error (.notSelected .simpleReport) ∧
        ¬reportDisabled.GivesOptionOf .simpleReport) ∧
    Unselected sampleHost retriesOfNull .libmysqlclient ∧
      (∃ s, perconaPlaybackArgv .full sampleHost retriesOfNull = .ok s) ∧
        retriesOfNull.GivesOptionOf .libmysqlclient := by
  refine ⟨⟨reportDisabled_unselected, rfl, ?_⟩, ⟨_, rfl, rfl, ⟨rfl, by decide, rfl⟩, _, rfl⟩,
    ⟨_, rfl⟩, .mysqlMaxRetries, by decide, rfl⟩
  rintro ⟨o, ho, hgives⟩
  revert hgives
  revert o
  decide

/-- The check of the simple report cannot tell that it has not been given an option. -/
theorem perconaPlaybackArgv_notSelected_iff_sample :
    (perconaPlaybackArgv .full sampleHost reportDisabled = .error (.notSelected .simpleReport) ↔
      reportDisabled.GivesOptionOf .simpleReport) ↔ ChecksRightly reportDisabled .simpleReport :=
  (perconaPlaybackArgv_notSelected_iff .full sampleHost reportDisabled .simpleReport rfl).1
    reportDisabled_unselected

end Samples

end QueryPlayback.Startup
