import PartDist.Lib.Bytes
import PartDist.Lib.ExchangeSort
import PartDist.Lib.HighWater
import PartDist.Header
import PartDist.Directory
import PartDist.Scan
import PartDist.Writer
import PartDist.Demux
import PartDist.Lib.Run
import PartDist.Lib.SegmentLog
import PartDist.Routing
import PartDist.DemuxOrdered
import PartDist.DemuxFailures
import PartDist.Redo
import PartDist.TornTail
import PartDist.LsnOrder
import PartDist.Lossless
import PartDist.DemuxFlush
import PartDist.Restart
import PartDist.LsnReuse
import PartDist.CrashRecovery
import PartDist.Lib.StampedCache
import PartDist.MetadataCache
import PartDist.Isolation
import PartDist.Dedup
import PartDist.RedoDemux
import PartDist.LsnAlloc
import PartDist.Lib.Raise
import PartDist.WriteRouter
import PartDist.ShouldWrite
import PartDist.ExecutorFinish
import PartDist.Lib.TxCache
import PartDist.Reset
import PartDist.Uncommitted
import PartDist.Verify
import PartDist.FlushRetry
import PartDist.LastWritten
import PartDist.Readers
import PartDist.Cleanup
import PartDist.CleanupVerify
import PartDist.CachedRouting
import PartDist.CacheHistory
import PartDist.Lib.FixedHash
import PartDist.ProcessUtility
import PartDist.TableSpace
import PartDist.Lib.CString
import PartDist.ShardName
import PartDist.SegmentNames
import PartDist.CountRecords
import PartDist.Lib.RingBuffer
import PartDist.Lib.InsertionSort
import PartDist.LatencyStats
import PartDist.Lib.FileSystem
import PartDist.Lib.Flow
import PartDist.DemuxLoop
import PartDist.Provenance
import PartDist.Transactions
import PartDist.ProgressFile
import PartDist.BufferedWriter
import PartDist.ReadPage
import PartDist.WriterStates
import PartDist.PartitionEntry
import PartDist.AppendOnly
import PartDist.ConcurrentReaders
import PartDist.ConcurrentScan
import PartDist.Lib.RwLock
import PartDist.LockedAlloc
import PartDist.Recoveries
import PartDist.CommittedFlushed
import PartDist.Lib.PkTable
import PartDist.MetadataTables
import PartDist.SqlHistory
import PartDist.LockedCache
import PartDist.WorkerBounds
import PartDist.LockedLatency
import PartDist.Lib.Printf
import PartDist.WalDesc
import PartDist.LastListed
import PartDist.CaptureHistory
