import Greplog.Foundation.Directory
import Greplog.Foundation.FileName
import Greplog.Foundation.Machine
import Greplog.Foundation.StreamCodec
import Greplog.Record
import Greplog.Wal.Bincode
import Greplog.Wal.Segments
import Greplog.Wal.Log
import Greplog.Wal.State
import Greplog.Wal.Durability
import Greplog.Wal.CrashSafety
import Greplog.Calendar
import Greplog.Foundation.Grouping
import Greplog.MemTable
import Greplog.Storage.Store
import Greplog.Storage.Flusher
import Greplog.Worker.MemTableLoop
import Greplog.Wal.Reclaim
import Greplog.Wal.Recovery
import Greplog.Worker.Pipeline
import Greplog.Worker.ZeroLoss
import Greplog.Worker.PowerLoss
import Greplog.Worker.Deadlock
import Greplog.Wal.Drain
import Greplog.Worker.Shutdown
import Greplog.Search.Tiers
import Greplog.Search.Partition
import Greplog.Wal.Fields
import Greplog.Wal.Corruption
import Greplog.Wal.GroupCommit
import Greplog.Worker.LoopRows
import Greplog.Foundation.SqlLexer
import Greplog.Search.WhereClause
import Greplog.Sdk.GoClient
import Greplog.Server.Ingest
import Greplog.Sdk.GoBacklog
import Greplog.Foundation.KeyedFold
import Greplog.Search.Aggregate
import Greplog.Foundation.Ranking
import Greplog.Search.Pages
import Greplog.Storage.Compactor
import Greplog.Storage.Sharing
import Greplog.Wal.Reclamation
import Greplog.Foundation.Ledger
import Greplog.Sdk.NodeClient
import Greplog.Sdk.GoProcess
import Greplog.Sdk.PythonClient
import Greplog.Sdk.RustClient
import Greplog.Storage.FlushEffect
import Greplog.Foundation.Indices
import Greplog.Storage.FlushRows
import Greplog.Worker.FlushRetry
import Greplog.Storage.CompactionResult
import Greplog.CivilDate
import Greplog.Foundation.TreeWalk
import Greplog.Storage.Retention
import Greplog.Foundation.ColumnBuilder
import Greplog.MemTableColumns
import Greplog.Search.MergeRows
import Greplog.Foundation.LikePattern
import Greplog.Search.TextSearch
import Greplog.Search.Phrases
import Greplog.Search.Window
import Greplog.Worker.LoopTurns
import Greplog.Worker.LoopBounds
import Greplog.Worker.LoopBackoff
import Greplog.Sdk.GoOutage
import Greplog.Sdk.GoHandler
import Greplog.Foundation.CodePoints
import Greplog.Sdk.PythonTrack
import Greplog.Foundation.Encoding
import Greplog.Foundation.Regex
import Greplog.ServiceName
import Greplog.Sdk.ServiceRules
import Greplog.Foundation.PathBuf
import Greplog.Storage.Confinement
import Greplog.Foundation.Broadcast
import Greplog.Server.Tail
import Greplog.Dashboard.LiveTail
import Greplog.Search.QueryRuntime
import Greplog.Foundation.TreeVisit
import Greplog.Storage.Sweep
import Greplog.Sdk.RustDelivery
import Greplog.Foundation.Subsystem
import Greplog.Server.Requests
import Greplog.Server.Delivery
import Greplog.Foundation.Csv
import Greplog.Foundation.SqlCondition
import Greplog.Search.Meaning
import Greplog.Search.Answer
import Greplog.Dashboard.Export
import Greplog.Server.Restarts
import Greplog.Storage.Removal
import Greplog.Foundation.Slices
import Greplog.Storage.Housekeeping
import Greplog.Storage.Writers
