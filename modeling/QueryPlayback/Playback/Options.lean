import QueryPlayback.Text.StringRef
import Mathlib.Data.List.Basic

/-!
# Program options and plugins

The plugins of the repository with the options each of them adds to the command
line, and `boost::program_options::variables_map`, which holds the values given
on the command line and the defaults of the others.

## Implementation notes

A parsed command line gives each option at most one value of the option's type. An
option of a plugin that is not registered is unknown, so it cannot have been parsed.
-/

namespace QueryPlayback.Startup

/-- The plugins, in the order of `all_plugins`, which is that of their names. -/
inductive Plugin
  | errorReport
  | fullReport
  | generalLog
  | libmysqlclient
  | null
  | queryLog
  | queryLogReport
  | simpleReport
  | threadPerConnection
  | threadPool
  deriving DecidableEq, Repr

/-- Which of the maps of the registry a plugin is added to. -/
inductive Kind
  | dbClient
  | input
  | dispatcher
  | report
  deriving DecidableEq, Repr

namespace Plugin

def name : Plugin → String
  | errorReport => "error_report"
  | fullReport => "full_report"
  | generalLog => "general-log"
  | libmysqlclient => "libmysqlclient"
  | null => "null"
  | queryLog => "query-log"
  | queryLogReport => "query-log-report"
  | simpleReport => "simple_report"
  | threadPerConnection => "thread-per-connection"
  | threadPool => "thread-pool"

def kind : Plugin → Kind
  | errorReport | fullReport | queryLogReport | simpleReport => .report
  | generalLog | queryLog => .input
  | libmysqlclient | null => .dbClient
  | threadPerConnection | threadPool => .dispatcher

def all : List Plugin :=
  [errorReport, fullReport, generalLog, libmysqlclient, null, queryLog, queryLogReport,
    simpleReport, threadPerConnection, threadPool]

theorem mem_all (p : Plugin) : p ∈ all := by cases p <;> decide

/-- The map is ordered by the names. -/
theorem all_sorted : (all.map name).Pairwise (· < ·) := by decide

end Plugin

/-- The options of the program itself, then those of the plugins. -/
inductive Opt
  | help
  | version
  | dbPlugin
  | inputPlugin
  | dispatcherPlugin
  | disableReportingPlugin
  | queueDepth
  | sessionInitQuery
  | generalLogFile
  | generalLogStdin
  | mysqlHost
  | mysqlUsername
  | mysqlPassword
  | mysqlSchema
  | mysqlSocket
  | mysqlPort
  | mysqlMaxRetries
  | mysqlFilterError
  | mysqlTestConnect
  | queryLogFile
  | queryLogStdin
  | queryLogSetTimestamp
  | queryLogPreserveQueryTime
  | queryLogAccurateMode
  | queryLogDisableSorting
  | showPerConnectionQueryCount
  | ignoreRowResultDiffs
  | threadPoolThreadsCount
  deriving DecidableEq, Repr

namespace Opt

/-- The type of the option's value; `--help` and `--version` have none. -/
def Value : Opt → Type
  | help | version => Unit
  | dbPlugin | inputPlugin | dispatcherPlugin => String
  | disableReportingPlugin => List String
  | queueDepth | mysqlPort | mysqlMaxRetries | threadPoolThreadsCount => UInt32
  | generalLogStdin | queryLogStdin | queryLogSetTimestamp | queryLogPreserveQueryTime
  | queryLogAccurateMode | queryLogDisableSorting | showPerConnectionQueryCount
  | ignoreRowResultDiffs | mysqlTestConnect => Bool
  | sessionInitQuery | generalLogFile | queryLogFile | mysqlHost | mysqlUsername | mysqlPassword
  | mysqlSchema | mysqlSocket | mysqlFilterError => Bytes

/-- `default_value(…)`; that of the pool is `hardware_concurrency()`. -/
def default? (hardwareConcurrency : UInt32) : (o : Opt) → Option o.Value
  | sessionInitQuery => some []
  | generalLogStdin | queryLogStdin | queryLogSetTimestamp | queryLogPreserveQueryTime
  | queryLogAccurateMode | queryLogDisableSorting | showPerConnectionQueryCount
  | ignoreRowResultDiffs => some false
  | threadPoolThreadsCount => some hardwareConcurrency
  | help | version | dbPlugin | inputPlugin | dispatcherPlugin | disableReportingPlugin
  | queueDepth | mysqlPort | mysqlMaxRetries | mysqlTestConnect | generalLogFile | queryLogFile
  | mysqlHost | mysqlUsername | mysqlPassword | mysqlSchema | mysqlSocket | mysqlFilterError =>
      none

/-- The plugin whose `getProgramOptions` adds the option. -/
def owner : Opt → Option Plugin
  | help | version | dbPlugin | inputPlugin | dispatcherPlugin | disableReportingPlugin
  | queueDepth | sessionInitQuery => none
  | generalLogFile | generalLogStdin => some .generalLog
  | mysqlHost | mysqlUsername | mysqlPassword | mysqlSchema | mysqlSocket | mysqlPort
  | mysqlMaxRetries | mysqlFilterError | mysqlTestConnect => some .libmysqlclient
  | queryLogFile | queryLogStdin | queryLogSetTimestamp | queryLogPreserveQueryTime
  | queryLogAccurateMode | queryLogDisableSorting => some .queryLog
  | showPerConnectionQueryCount | ignoreRowResultDiffs => some .simpleReport
  | threadPoolThreadsCount => some .threadPool

end Opt

/-- `getProgramOptions()`. -/
def Plugin.getProgramOptions : Plugin → List Opt
  | generalLog => [.generalLogFile, .generalLogStdin]
  | libmysqlclient =>
      [.mysqlHost, .mysqlUsername, .mysqlPassword, .mysqlSchema, .mysqlSocket, .mysqlPort,
        .mysqlMaxRetries, .mysqlFilterError, .mysqlTestConnect]
  | queryLog =>
      [.queryLogFile, .queryLogStdin, .queryLogSetTimestamp, .queryLogPreserveQueryTime,
        .queryLogAccurateMode, .queryLogDisableSorting]
  | simpleReport => [.showPerConnectionQueryCount, .ignoreRowResultDiffs]
  | threadPool => [.threadPoolThreadsCount]
  | errorReport | fullReport | null | queryLogReport | threadPerConnection => []

theorem mem_getProgramOptions {p : Plugin} {o : Opt} :
    o ∈ p.getProgramOptions ↔ o.owner = some p := by
  cases p <;> cases o <;> decide

/-- The plugins that have been loaded. -/
structure Registry where
  registered : Plugin → Bool

namespace Registry

/-- All plugins of the repository. -/
def full : Registry := ⟨fun _ => true⟩

/-- `all_plugins`. -/
def allPlugins (r : Registry) : List Plugin := Plugin.all.filter r.registered

theorem mem_allPlugins {r : Registry} {p : Plugin} : p ∈ r.allPlugins ↔ r.registered p = true := by
  simp [allPlugins, Plugin.mem_all]

/-- The lookup of a name in one of the maps. -/
def find (r : Registry) (kind : Kind) (name : String) : Option Plugin :=
  r.allPlugins.find? fun p => p.kind = kind ∧ p.name = name

/-- The options of the program and of the registered plugins. -/
def declares (r : Registry) (o : Opt) : Bool :=
  match o.owner with
  | none => true
  | some p => r.registered p

end Registry

/-- A command line that has been parsed. Flags take no token and stand for true. -/
structure CommandLine (r : Registry) where
  argc : ℕ
  given : (o : Opt) → Option o.Value
  declared : ∀ o, (given o).isSome = true → r.declares o = true
  nothing : argc = 1 → ∀ o, given o = none
  generalLogFlags : given .generalLogStdin ≠ some false
  queryLogFlags : given .queryLogStdin ≠ some false ∧ given .queryLogSetTimestamp ≠ some false ∧
    given .queryLogPreserveQueryTime ≠ some false ∧ given .queryLogAccurateMode ≠ some false ∧
      given .queryLogDisableSorting ≠ some false
  simpleReportFlags : given .showPerConnectionQueryCount ≠ some false ∧
    given .ignoreRowResultDiffs ≠ some false

/-- `variable_value`. -/
structure VariableValue (α : Type) where
  value : α
  defaulted : Bool

/-- `variables_map`; an option without an entry is one for which `empty()` holds. -/
structure VariablesMap where
  lookup : (o : Opt) → Option (VariableValue o.Value)

namespace VariablesMap

/-- `count(o)`. -/
def count (vm : VariablesMap) (o : Opt) : Bool := (vm.lookup o).isSome

/-- `vm[o].defaulted()`. -/
def defaulted (vm : VariablesMap) (o : Opt) : Bool := (vm.lookup o).any (·.defaulted)

/-- `vm[o].as<T>()` for an option that has a value. -/
def value? (vm : VariablesMap) (o : Opt) : Option o.Value := (vm.lookup o).map (·.value)

end VariablesMap

/-- `po::store`: what was given, then the defaults of the options that were not. -/
def CommandLine.store {r : Registry} (cl : CommandLine r) (hardwareConcurrency : UInt32) :
    VariablesMap where
  lookup o :=
    match cl.given o with
    | some v => some ⟨v, false⟩
    | none =>
        if r.declares o then (o.default? hardwareConcurrency).map fun v => ⟨v, true⟩ else none

section Store

variable {r : Registry} {cl : CommandLine r} {hw : UInt32} {o : Opt}

/-- An option with a value is one that was given or has a default. -/
theorem count_store : (cl.store hw).count o =
    ((cl.given o).isSome || r.declares o && (o.default? hw).isSome) := by
  cases hgiven : cl.given o with
  | some v => simp [VariablesMap.count, CommandLine.store, hgiven]
  | none =>
      cases hdeclared : r.declares o <;>
        simp [VariablesMap.count, CommandLine.store, hgiven, hdeclared]

/-- An option with a default is defaulted unless it was given. -/
theorem defaulted_store (hdeclared : r.declares o = true)
    (hdefault : (o.default? hw).isSome = true) :
    (cl.store hw).defaulted o = !(cl.given o).isSome := by
  obtain ⟨v, hv⟩ := Option.isSome_iff_exists.mp hdefault
  cases hgiven : cl.given o with
  | some v => simp [VariablesMap.defaulted, CommandLine.store, hgiven]
  | none => simp [VariablesMap.defaulted, CommandLine.store, hgiven, hdeclared, hv]

/-- The value of an option is the given one, else the default. -/
theorem value?_store (hdeclared : r.declares o = true) :
    (cl.store hw).value? o = (cl.given o).or (o.default? hw) := by
  cases hgiven : cl.given o with
  | some v => simp [VariablesMap.value?, CommandLine.store, hgiven]
  | none => simp [VariablesMap.value?, CommandLine.store, hgiven, hdeclared, Function.comp_def]

end Store

end QueryPlayback.Startup
