import QueryPlayback.Lib.Lines
import QueryPlayback.Lib.Pattern
import QueryPlayback.Lib.SqlText
import QueryPlayback.Lib.StableSort
import QueryPlayback.Lib.Interleaving
import QueryPlayback.Lib.Updates
import QueryPlayback.Lib.Repetition
import QueryPlayback.Lib.Traces
import QueryPlayback.Lib.Interruptible
import QueryPlayback.Lib.RetryLoops
import QueryPlayback.Lib.Calendar
import QueryPlayback.Lib.Scanner
import QueryPlayback.Lib.Replay
import QueryPlayback.Lib.Bounded
import QueryPlayback.Lib.Retried
import QueryPlayback.Lib.Sections
import QueryPlayback.Text.StringRef
import QueryPlayback.Text.Scan
import QueryPlayback.Text.ScanLine
import QueryPlayback.Text.Fields
import QueryPlayback.Text.Readline
import QueryPlayback.Text.ScanExtent
import QueryPlayback.Text.FinishedNumbers
import QueryPlayback.QueryLog.Data
import QueryPlayback.QueryLog.Sorting
import QueryPlayback.QueryLog.Execute
import QueryPlayback.QueryLog.MaxBehind
import QueryPlayback.QueryLog.Parse
import QueryPlayback.QueryLog.TimeLines
import QueryPlayback.QueryLog.Blocks
import QueryPlayback.QueryLog.Records
import QueryPlayback.QueryLog.ScanBounds
import QueryPlayback.QueryLog.Account
import QueryPlayback.QueryLog.Metadata
import QueryPlayback.QueryLog.AccurateMode
import QueryPlayback.QueryLog.Joining
import QueryPlayback.QueryLog.Writing
import QueryPlayback.QueryLog.RoundTrip
import QueryPlayback.QueryLog.Banner
import QueryPlayback.QueryLog.ServerFormat
import QueryPlayback.QueryLog.Logged
import QueryPlayback.Dispatch.Entry
import QueryPlayback.QueryLog.Entries
import QueryPlayback.QueryLog.RecordTexts
import QueryPlayback.GeneralLog.Entry
import QueryPlayback.GeneralLog.Parse
import QueryPlayback.GeneralLog.Match
import QueryPlayback.GeneralLog.Records
import QueryPlayback.GeneralLog.Endings
import QueryPlayback.GeneralLog.OtherCommands
import QueryPlayback.Dispatch.ShutdownFlags
import QueryPlayback.Dispatch.Worker
import QueryPlayback.Dispatch.ThreadPerConnection
import QueryPlayback.Dispatch.ThreadPerConnection.Bookkeeping
import QueryPlayback.Dispatch.ThreadPerConnection.Invariant
import QueryPlayback.Dispatch.ThreadPerConnection.Safety
import QueryPlayback.Dispatch.ThreadPerConnection.Cap
import QueryPlayback.Dispatch.ThreadPool
import QueryPlayback.Dispatch.ThreadPool.Invariant
import QueryPlayback.Dispatch.ThreadPool.Safety
import QueryPlayback.Dispatch.ThreadPool.Progress
import QueryPlayback.Dispatch.Repeat
import QueryPlayback.Dispatch.Heap
import QueryPlayback.Dispatch.Refinement
import QueryPlayback.Dispatch.Termination
import QueryPlayback.Dispatch.QueueDepth
import QueryPlayback.Dispatch.Reports
import QueryPlayback.MySQL.Client
import QueryPlayback.MySQL.Thread
import QueryPlayback.MySQL.Protocol
import QueryPlayback.MySQL.Invariant
import QueryPlayback.MySQL.Depth
import QueryPlayback.MySQL.Runs
import QueryPlayback.MySQL.Termination
import QueryPlayback.MySQL.Retry
import QueryPlayback.MySQL.TestConnect
import QueryPlayback.MySQL.Calls
import QueryPlayback.MySQL.Statements
import QueryPlayback.MySQL.Budget
import QueryPlayback.MySQL.LazyConnect
import QueryPlayback.MySQL.Sent
import QueryPlayback.Playback.Input
import QueryPlayback.Playback.Replay
import QueryPlayback.Playback.Sessions
import QueryPlayback.Playback.Growing
import QueryPlayback.Playback.Written
import QueryPlayback.Playback.WrittenGeneral
import QueryPlayback.Playback.RunAll
import QueryPlayback.Playback.AdministratorCommands
import QueryPlayback.Playback.Options
import QueryPlayback.Playback.Loading
import QueryPlayback.Playback.PluginOptions
import QueryPlayback.Playback.Startup
import QueryPlayback.Playback.Unselected
import QueryPlayback.Playback.PoolSettings
import QueryPlayback.Report.SimpleReport
import QueryPlayback.Report.Exact
import QueryPlayback.Report.FullReport
import QueryPlayback.Report.Detailed
import QueryPlayback.Report.ErrorReport
import QueryPlayback.Report.Replayed
import QueryPlayback.Report.Together
import QueryPlayback.Report.Printed
import QueryPlayback.Report.Program
