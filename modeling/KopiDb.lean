import KopiDb.Lib.LittleEndian
import KopiDb.Lib.Versions
import KopiDb.Lib.SortedVersions
import KopiDb.Lib.MergeAll
import KopiDb.Lib.OrdMap
import KopiDb.Lib.Cursor
import KopiDb.Lib.Chain
import KopiDb.Lib.BinarySearch
import KopiDb.Lib.Watermark
import KopiDb.Lib.Replay
import KopiDb.Core
import KopiDb.BloomFilter
import KopiDb.SkipList
import KopiDb.HeapIterator
import KopiDb.Block
import KopiDb.Sst
import KopiDb.SstIterator
import KopiDb.SstRange
import KopiDb.TwoMergeIterator
import KopiDb.MemTable
import KopiDb.Engine
import KopiDb.Compaction
import KopiDb.LevelInvariant
import KopiDb.FullCompact
import KopiDb.Reads
import KopiDb.Flush
import KopiDb.EngineRuns
import KopiDb.EngineContract
import KopiDb.LevelIterator
import KopiDb.Scan
import KopiDb.Record
import KopiDb.TranManager
import KopiDb.TranContext
import KopiDb.MemAccounting
import KopiDb.FlushFailure
import KopiDb.Lib.Prefixes
import KopiDb.Lib.RankedRuns
import KopiDb.MergeContract
import KopiDb.MemRange
import KopiDb.MemContract
import KopiDb.View
import KopiDb.Refine
import KopiDb.Coherent
import KopiDb.Session
import KopiDb.Isolation
import KopiDb.Serial
import KopiDb.LostUpdate
import KopiDb.TranLog
import KopiDb.LogGrammar
import KopiDb.LogCounter
import KopiDb.LogReplay
import KopiDb.Checkpoint
import KopiDb.StateFile
import KopiDb.Rollback
import KopiDb.RecordCodec
import KopiDb.Wal
import KopiDb.WalRuns
import KopiDb.StateBytes
import KopiDb.Restart
import KopiDb.FlushedIds
import KopiDb.WiscKey
import KopiDb.BlockCodec
import KopiDb.BlockBuild
import KopiDb.BlockAccess
import KopiDb.SectionCodec
import KopiDb.MetaBytes
import KopiDb.BloomCodec
import KopiDb.SstFile
import KopiDb.TableLayout
import KopiDb.SstOffsets
import KopiDb.MarkerGroups
import KopiDb.FileOps
import KopiDb.FileRuns
import KopiDb.DataDir
import KopiDb.Reopen
import KopiDb.Orphans
import KopiDb.SstContract
import KopiDb.Redis.Store
import KopiDb.Redis.Text
import KopiDb.Redis.Commands
import KopiDb.Redis.Runs
import KopiDb.Redis.Server
import KopiDb.Redis.Ranges
import KopiDb.Redis.Lists
import KopiDb.Redis.Hashes
import KopiDb.Redis.Sets
import KopiDb.Redis.SortedSets
import KopiDb.Redis.Footprint
import KopiDb.Redis.KeyIsolation
import KopiDb.Redis.Ranks
import KopiDb.Redis.Deletion
import KopiDb.Redis.Expiry
import KopiDb.Redis.Exceptions
import KopiDb.Redis.Resp
import KopiDb.BlockCache
import KopiDb.Lib.LruK
import KopiDb.CacheNodes
import KopiDb.CacheLruK
import KopiDb.SharedBlocks
import KopiDb.TableIds
import KopiDb.CacheRuns
import KopiDb.BlockRange
import KopiDb.CachedRange
import KopiDb.Lib.DoublyLinked
import KopiDb.TowerList
import KopiDb.TowerOps
import KopiDb.TowerRefine
import KopiDb.TowerRange
import KopiDb.TowerRuns
import KopiDb.Flushability
import KopiDb.FlushRoom
import KopiDb.FlushCalls
import KopiDb.FlushRuns
import KopiDb.Redis.Backing
import KopiDb.CommitDecision
import KopiDb.MonotoneReads
import KopiDb.Durable
import KopiDb.Reread
import KopiDb.Redis.Deployment
import KopiDb.Crash
import KopiDb.Lib.Framed
import KopiDb.Redis.Replies
import KopiDb.Redis.Connections
import KopiDb.Redis.Serialized
import KopiDb.Redis.Deadlines
import KopiDb.Lib.CallTree
import KopiDb.Redis.Wrapper
import KopiDb.Redis.WrapperRuns
import KopiDb.EngineReads
import KopiDb.Redis.Requests
