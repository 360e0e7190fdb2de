import Tikv.Lib.HoleQueue
import Tikv.Lib.SortedList
import Tikv.Lib.Rank
import Tikv.Lib.AssocList
import Tikv.Lib.Reach
import Tikv.Lib.Lex
import Tikv.Lib.ByteOrder
import Tikv.Lib.Buffer
import Tikv.Codec.MemComparable
import Tikv.Codec.Number
import Tikv.Codec.Bytes
import Tikv.Codec.Key
import Tikv.Codec.ByteCodec
import Tikv.Lib.Varint
import Tikv.Lib.Decoder
import Tikv.Codec.VarInt
import Tikv.Deadlock.DetectTable
import Tikv.Deadlock.Graph
import Tikv.Deadlock.Search
import Tikv.Deadlock.Updates
import Tikv.Deadlock.Detector
import Tikv.Deadlock.Runs
import Tikv.Scheduler.Latches
import Tikv.Scheduler.LatchQueue
import Tikv.Scheduler.LatchLoops
import Tikv.Scheduler.LatchProtocol
import Tikv.Scheduler.LatchRelease
import Tikv.Scheduler.LatchSafety
import Tikv.ReadProgress.Core
import Tikv.ReadProgress.Safety
import Tikv.Concurrency.MaxTs
import Tikv.Concurrency.AsyncCommit
import Tikv.Raft.EntryStorage
import Tikv.Mvcc.Write
import Tikv.Mvcc.Gc
import Tikv.Mvcc.Readers
import Tikv.Txn.Actions
import Tikv.Txn.Runs
import Tikv.TxnTypes.Write
import Tikv.TxnTypes.Lock
import Tikv.Lib.Cuts
import Tikv.Raftstore.BatchSplit
import Tikv.Txn.Changes
import Tikv.Txn.Store
import Tikv.Txn.Rollback
import Tikv.Txn.Flashback
import Tikv.Txn.RollbackFacts
import Tikv.Util.RangeLatch
import Tikv.Txn.WriteLock
import Tikv.Raftstore.ReadQueue
import Tikv.Txn.StatusCache
import Tikv.ResolvedTs.Resolver
import Tikv.LockManager.LockWaitQueue
import Tikv.Raftstore.ConfChange
import Tikv.Txn.CheckTxnStatus
import Tikv.CausalTs.Tso
import Tikv.TidbQuery.RangesScanner
import Tikv.TidbQuery.ScannedRange
import Tikv.Cdc.Delegate
import Tikv.Cdc.LockTracking
import Tikv.ApiVersion.RawValue
import Tikv.Lib.Cursor
import Tikv.Storage.RawMvcc
import Tikv.Storage.RawView
import Tikv.Storage.RawRead
import Tikv.Codec.EncodedFrom
import Tikv.Codec.VarIntDecoders
import Tikv.Codec.FirstEncodedLen
import Tikv.TidbQuery.Table
import Tikv.BackupStream.SegmentMap
import Tikv.TxnTypes.EncodedSharedLocks
import Tikv.Lib.BinarySearch
import Tikv.TidbQuery.RowV2
import Tikv.Lib.Radix
import Tikv.TidbQuery.Decimal
import Tikv.TidbQuery.DecimalConvert
import Tikv.Txn.SnapshotRead
import Tikv.Lib.Versioned
import Tikv.Mvcc.ForwardScanner
import Tikv.Mvcc.ScanReads
import Tikv.Lib.DList
import Tikv.Util.Lru
import Tikv.Util.LruInvariant
import Tikv.Util.LruRefinement
