import KvCache.RestartDurability
import KvCache.CrashRecovery
import KvCache.ConcurrentDurability
import KvCache.SnapshotReplacement
import KvCache.FailedWrites
import KvCache.ServerRefinement
import KvCache.ConnectionIsolation
import KvCache.ConnectionOrder
import KvCache.ParserStability
import KvCache.ParserDeadEnds
import KvCache.BadCommands
import KvCache.SnapshotReading
import KvCache.LogReading
import KvCache.WalRuns
import KvCache.SyncThread
import KvCache.RequestLocks
import KvCache.BurstWindow
import KvCache.CliParser
import KvCache.DisjointWriters
import KvCache.KvClient
import KvCache.LogBound
import KvCache.ReplyDelivery
import KvCache.ThreadPool
import KvCache.Linearizability
import KvCache.ClientCalls
import KvCache.ClientServer
import KvCache.CallProgress
import KvCache.EventLoop
import KvCache.LoopServer
import KvCache.StoreHistory
import KvCache.CrashPoints
import KvCache.DurableCalls
import KvCache.PowerLoss
import KvCache.ServerConfig
import KvCache.ClientMain
