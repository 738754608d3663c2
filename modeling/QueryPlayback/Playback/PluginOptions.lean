import QueryPlayback.MySQL.TestConnect
import QueryPlayback.Playback.Options

/-!
# The plugins look at their options

`processOptions` of every plugin. Each plugin that has options refuses them in its
own way when it has not been selected, and takes its settings from them otherwise.

## Implementation notes

A plugin without a `processOptions` inherits one that accepts everything. Whether the
client library is fit for use is decided by the host.
-/

namespace QueryPlayback.Startup

/-- Why the start-up does not go on to a run. -/
inductive Stop
  | help
  | version
  | invalidPlugin (message : String)
  | notSelected (p : Plugin)
  | badOptions (p : Plugin) (message : String)
  /-- `exit(EXIT_FAILURE)` -/
  | exited
  /-- the exception of a regular expression that is none -/
  | badRegex
  deriving DecidableEq, Repr

/-- What is printed to the standard error output. -/
def Stop.message : Stop → String
  | invalidPlugin message => message
  | notSelected p =>
      p.name ++ " plugin is not selected, " ++
        "you shouldn't use this plugin-related command line options\n"
  | badOptions _ message => message
  | exited => "Exiting because '--mysql-test-connect' is enabled\n" ++
      "\tuse '--mysql-test-connect=off' to disable the check\n"
  | help | version | badRegex => ""

/-- The return value of `percona_playback_argv`, when it returns. -/
def Stop.code : Stop → Option Int
  | help => some 1
  | version => some 2
  | invalidPlugin _ | notSelected _ | badOptions .. => some (-1)
  | exited | badRegex => none

/-- The machine the program runs on. -/
structure Host where
  hardwareConcurrency : UInt32
  mysqlThreadSafe : Bool
  mysqlLibraryInit : Int
  validRegex : Bytes → Bool
  server : MySQL.Server

/-- Where an input plugin reads from. -/
structure InputSettings where
  fileName : Bytes := []
  stdIn : Bool := false
  deriving DecidableEq, Repr

/-- What the plugins keep of their options. -/
structure PluginSettings where
  generalLog : InputSettings := {}
  queryLog : InputSettings := {}
  mysql : MySQLOptions := {}
  deriving DecidableEq, Repr

/-- The check an unselected plugin makes: on the options whose values are counted and on
those for which it asks whether they are defaulted. -/
def givenToUnselected (vm : VariablesMap) (counted asked : List Opt) : Bool :=
  counted.any vm.count || asked.any fun o => !vm.defaulted o

/-- The source of an input plugin by its two options, with the name in their messages. -/
def inputSource (p : Plugin) (file : Option Bytes) (stdIn : Bool) : Except Stop InputSettings :=
  match file, stdIn with
  | some _, true =>
      .error (.badOptions p ("The options --" ++ p.name ++ "-file and --" ++ p.name ++
        "-stdin can not be used together\n"))
  | some name, false => .ok { fileName := name }
  | none, true => .ok { stdIn := true }
  | none, false =>
      .error (.badOptions p ("ERROR: --" ++ p.name ++ "-file is a required option.\n"))

section ProcessOptions

variable (active : Bool) (vm : VariablesMap) (s : PluginSettings)

/-- `GeneralLogPlugin::processOptions`. -/
def GeneralLogPlugin.processOptions : Except Stop PluginSettings :=
  if !active && givenToUnselected vm [.generalLogFile] [.generalLogStdin] then
    .error (.notSelected .generalLog)
  else if !active then .ok s
  else do
    let source ← inputSource .generalLog (vm.value? .generalLogFile)
      ((vm.value? .generalLogStdin).getD false)
    return { s with generalLog := source }

/-- `QueryLogPlugin::processOptions`. -/
def QueryLogPlugin.processOptions : Except Stop PluginSettings :=
  if !active && givenToUnselected vm [.queryLogFile]
      [.queryLogStdin, .queryLogPreserveQueryTime, .queryLogSetTimestamp] then
    .error (.notSelected .queryLog)
  else if !active then .ok s
  else do
    let source ← inputSource .queryLog (vm.value? .queryLogFile)
      ((vm.value? .queryLogStdin).getD false)
    return { s with queryLog := source }

/-- `SimpleReportPlugin::processOptions`. -/
def SimpleReportPlugin.processOptions : Except Stop PluginSettings :=
  if !active &&
      givenToUnselected vm [.showPerConnectionQueryCount, .ignoreRowResultDiffs] [] then
    .error (.notSelected .simpleReport)
  else .ok s

/-- `ThreadPoolDispatcher::processOptions`. -/
def ThreadPoolDispatcher.processOptions : Except Stop PluginSettings :=
  if !active && givenToUnselected vm [] [.threadPoolThreadsCount] then
    .error (.notSelected .threadPool)
  else .ok s

/-- The connection settings that `MySQLDBClientPlugin::processOptions` takes over. -/
def connectionSettings (o : MySQLOptions) : MySQLOptions where
  host := (vm.value? .mysqlHost).getD o.host
  user := (vm.value? .mysqlUsername).getD o.user
  password := (vm.value? .mysqlPassword).getD o.password
  schema := (vm.value? .mysqlSchema).getD o.schema
  socket := (vm.value? .mysqlSocket).getD o.socket
  port := (vm.value? .mysqlPort).getD o.port
  maxRetries := (vm.value? .mysqlMaxRetries).getD o.maxRetries

/-- Whether the test connection makes the program exit. -/
def testConnectExits (host : Host) (options : MySQLOptions) : Bool :=
  match MySQLDBThread.exitsAtStartup
      ⟨options, (vm.value? .sessionInitQuery).getD [], host.server⟩ 1 false
      (vm.value? .mysqlTestConnect) with
  | .done exits _ => exits
  | .cut _ => false

/-- `MySQLDBClientPlugin::processOptions`. -/
def MySQLDBClientPlugin.processOptions (host : Host) : Except Stop PluginSettings :=
  if !active && givenToUnselected vm
      [.mysqlHost, .mysqlUsername, .mysqlPassword, .mysqlSchema, .mysqlSocket, .mysqlPort] [] then
    .error (.notSelected .libmysqlclient)
  else if !active then .ok s
  else if !host.mysqlThreadSafe then
    .error (.badOptions .libmysqlclient "libmysqlclient is not thread safe\n")
  else if host.mysqlLibraryInit ≠ 0 then
    .error (.badOptions .libmysqlclient "could not initialize mysql library\n")
  else
    let options := connectionSettings vm s.mysql
    let filter := (vm.value? .mysqlFilterError).getD []
    if !filter.isEmpty && !host.validRegex filter then .error .badRegex
    else if testConnectExits vm host options then .error .exited
    else .ok { s with mysql := options }

/-- The virtual call of `processOptions`. -/
def Plugin.processOptions (host : Host) : Plugin → Except Stop PluginSettings
  | generalLog => GeneralLogPlugin.processOptions active vm s
  | libmysqlclient => MySQLDBClientPlugin.processOptions active vm s host
  | queryLog => QueryLogPlugin.processOptions active vm s
  | simpleReport => SimpleReportPlugin.processOptions active vm s
  | threadPool => ThreadPoolDispatcher.processOptions active vm s
  | errorReport | fullReport | null | queryLogReport | threadPerConnection => .ok s

end ProcessOptions

end QueryPlayback.Startup
