import MulanLsm.Library.Effects
import MulanLsm.Library.Versioned
import MulanLsm.Library.Steps
import MulanLsm.Library.Intervals
import MulanLsm.Library.Search
import MulanLsm.Library.Merge
import MulanLsm.Library.Iteration
import MulanLsm.Library.Queue
import MulanLsm.Library.Slice
import MulanLsm.Library.Groups
import MulanLsm.Library.Wakeups
import MulanLsm.CommitLog
import MulanLsm.Table
import MulanLsm.MemTable
import MulanLsm.LinkedMemTable
import MulanLsm.CompactionSpec
import MulanLsm.RunCompaction
import MulanLsm.LogRuns
import MulanLsm.ZeroedLog
import MulanLsm.Replay
import MulanLsm.Reopening
import MulanLsm.Grandparents
import MulanLsm.CacheCalls
import MulanLsm.Views
import MulanLsm.Iterator
import MulanLsm.SstableReading
import MulanLsm.CheckedTables
import MulanLsm.Corruption
import MulanLsm.Recovery
import MulanLsm.Faults
import MulanLsm.CompactionsEnd
import MulanLsm.Readers
import MulanLsm.ObsoleteFiles
import MulanLsm.BlockSearch
import MulanLsm.KeyOrder
import MulanLsm.SkiplistLevels
import MulanLsm.SnapshotRegistry
import MulanLsm.LsmIterators
import MulanLsm.FailedFlushes
import MulanLsm.TableBytes
import MulanLsm.Scanners
import MulanLsm.Background
import MulanLsm.Lifetimes
import MulanLsm.Upkeep
import MulanLsm.Threads
