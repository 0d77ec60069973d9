import Infinity.Buffer.CheckpointFile
import Infinity.Catalog.EntryCleanup
import Infinity.Table.Replay
import Infinity.Transaction.DeleteOnce
import Infinity.Transaction.SubmitOrder
import Infinity.Transaction.Watermark
import Infinity.Wal.CatalogSelection
import Infinity.Wal.Repair
import Infinity.Compaction.NothingStuck
import Infinity.Compaction.SegmentConservation
import Infinity.Wal.DeltaSequence
import Infinity.Persistence.GarbageCollection
import Infinity.Buffer.ObjectState
import Infinity.Buffer.MemoryAccounting
import Infinity.Executor.TopBatches
import Infinity.Executor.SchedulerProgress
import Infinity.Planner.RoughFilterSound
import Infinity.Wal.NextTxnId
import Infinity.Wal.WalEntryIterator
import Infinity.Wal.DeltaCodec
import Infinity.Search.IteratorTree
import Infinity.FullText.NoBatchLeft
import Infinity.FullText.OrderedRing
import Infinity.Hnsw.BuildSafe
import Infinity.Table.CappedIterator
import Infinity.Compaction.GreedyGroups
import Infinity.Search.QueryFilter
import Infinity.Search.ResultHeap
import Infinity.Table.FastVisible
import Infinity.Executor.GroupKeys
import Infinity.Executor.OutputOffset
import Infinity.Executor.PhysicalSort
import Infinity.FullText.FstOrder
import Infinity.Planner.RangeLookup
