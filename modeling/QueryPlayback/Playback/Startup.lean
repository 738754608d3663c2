import QueryPlayback.Playback.PluginOptions
import QueryPlayback.QueryLog.Sorting

/-!
# The start-up

`percona_playback_argv` selects a plugin of each kind, disables reporting plugins,
and has every registered plugin look at the options, in the order of the names. It
stops at the first of these steps that fails.

## Implementation notes

The variables that `po::notify` stores values in are part of the settings. The option
`loop` is not declared, so the number of runs is always one.
-/

namespace QueryPlayback.Startup

/-- What the start-up leaves behind for the run. -/
structure Settings where
  db : Plugin
  input : Plugin
  dispatcher : Plugin
  reports : List Plugin
  plugins : PluginSettings
  queryLogOptions : QueryLogOptions
  showConnectionQueryCount : Bool
  ignoreRowResultDiffs : Bool
  threadsCount : UInt32
  sessionInitQuery : Bytes
  loop : UInt32
  queueDepth : UInt32

/-- The plugins chosen by the command line. -/
structure Selection where
  db : Plugin
  input : Plugin
  dispatcher : Plugin
  disabled : List Plugin

/-- The flag `active`. Reporting plugins have it from their registration on. -/
def Selection.active (sel : Selection) (p : Plugin) : Bool :=
  p = sel.db || p = sel.input || p = sel.dispatcher ||
    (p.kind = .report && !sel.disabled.contains p)

section Argv

variable (r : Registry) (host : Host)

/-- The plugin with the given name, or the first of the default ones that is registered. -/
def selectPlugin (kind : Kind) (given : Option String) (defaults : List Plugin)
    (invalid missing : String) : Except Stop Plugin :=
  match given with
  | some name => (r.find kind name).elim (.error (.invalidPlugin invalid)) .ok
  | none => (defaults.find? r.registered).elim (.error (.invalidPlugin missing)) .ok

/-- The loop over the names of the reporting plugins to be disabled. -/
def disableReporting : List String → Except Stop (List Plugin)
  | [] => .ok []
  | name :: names =>
      match r.find .report name with
      | none => .error (.invalidPlugin ("Invalid Reporting plugin: '" ++ name ++ "'\n"))
      | some p => do
          let disabled ← disableReporting names
          return p :: disabled

/-- The part of `percona_playback_argv` that sets the flags of the plugins. -/
def select (vm : VariablesMap) : Except Stop Selection := do
  let db ← selectPlugin r .dbClient (vm.value? .dbPlugin) [.libmysqlclient, .null]
    "Invalid DB Plugin\n" "Invalid DB plugin\n"
  let input ← selectPlugin r .input (vm.value? .inputPlugin) [.queryLog]
    "Invalid Input Plugin\n" "Invalid Input plugin\n"
  let dispatcher ← selectPlugin r .dispatcher (vm.value? .dispatcherPlugin)
    [.threadPerConnection] "Invalid Dispatcher Plugin\n" "Invalid Dispatcher plugin\n"
  let disabled ← disableReporting r ((vm.value? .disableReportingPlugin).getD [])
  return ⟨db, input, dispatcher, disabled⟩

/-- The loop over `all_plugins`, or over a part of them. -/
def processPlugins (sel : Selection) (vm : VariablesMap) (plugins : List Plugin)
    (s : PluginSettings) : Except Stop PluginSettings :=
  plugins.foldlM (fun s p => p.processOptions (sel.active p) vm s host) s

/-- What `po::notify` and the end of `percona_playback_argv` store. -/
def settings (sel : Selection) (vm : VariablesMap) (plugins : PluginSettings) : Settings where
  db := sel.db
  input := sel.input
  dispatcher := sel.dispatcher
  reports := r.allPlugins.filter fun p => p.kind = .report && sel.active p
  plugins := plugins
  queryLogOptions :=
    { runSetTimestamp := (vm.value? .queryLogSetTimestamp).getD false
      preserveQueryTime := (vm.value? .queryLogPreserveQueryTime).getD false
      accurateMode := (vm.value? .queryLogAccurateMode).getD false
      disableSorting := (vm.value? .queryLogDisableSorting).getD false }
  showConnectionQueryCount := (vm.value? .showPerConnectionQueryCount).getD false
  ignoreRowResultDiffs := (vm.value? .ignoreRowResultDiffs).getD false
  threadsCount := (vm.value? .threadPoolThreadsCount).getD (0 : UInt32)
  sessionInitQuery := (vm.value? .sessionInitQuery).getD []
  loop := 1
  queueDepth := (vm.value? .queueDepth).getD (1 : UInt32)

/-- `percona_playback_argv`. -/
def perconaPlaybackArgv (cl : CommandLine r) : Except Stop Settings := do
  let vm := cl.store host.hardwareConcurrency
  let sel ← select r vm
  if vm.count .help || cl.argc = 1 then .error .help
  else if vm.count .version then .error .version
  else
    let plugins ← processPlugins host sel vm r.allPlugins {}
    return settings r sel vm plugins

end Argv

end QueryPlayback.Startup
