import RucksFs.Lib.OrdMap
import RucksFs.Lib.Prog
import RucksFs.Lib.Interleave
import RucksFs.Lib.Events
import RucksFs.Lib.Simulation
import RucksFs.Lib.Trace
import RucksFs.Lib.Rooted
import RucksFs.Lib.SparseFile
import RucksFs.Lib.Utf8
import RucksFs.Lib.Paging
import RucksFs.Lib.Bytes
import RucksFs.Lib.PrefixScan
import RucksFs.Lib.Ledger
import RucksFs.Core
import RucksFs.Storage.Keys
import RucksFs.Storage.DeltaStore
import RucksFs.Delta
import RucksFs.Cache
import RucksFs.Db
import RucksFs.Storage.DirectoryIndex
import RucksFs.Storage.Records
import RucksFs.Storage.Rocks
import RucksFs.Change
import RucksFs.Server.State
import RucksFs.Server.Exec
import RucksFs.Server.Ops
import RucksFs.Server.Transactions
import RucksFs.Server.Transact
import RucksFs.Server.Spec
import RucksFs.Server.Outcome
import RucksFs.Server.Effect
import RucksFs.Server.Log
import RucksFs.Server.Concurrent
import RucksFs.Storage.RocksServer
import RucksFs.Storage.Refinement
import RucksFs.Server.Contract
import RucksFs.Server.Commits
import RucksFs.Server.Verified
import RucksFs.Server.Isolation
import RucksFs.Server.Serial
import RucksFs.Server.Numbers
import RucksFs.Server.Walk
import RucksFs.Server.Watch
import RucksFs.Server.CacheSteps
import RucksFs.Links
import RucksFs.Names
import RucksFs.Parents
import RucksFs.Deadlock
import RucksFs.Pushes
import RucksFs.Compaction
import RucksFs.Subdirs
import RucksFs.DirLinks
import RucksFs.Deferred
import RucksFs.CacheFill
import RucksFs.Server.Locking
import RucksFs.Worker.Rounds
import RucksFs.Worker.Writers
import RucksFs.Worker.Marks
import RucksFs.Worker.Shutdown
import RucksFs.Allocation
import RucksFs.Entries
import RucksFs.Orphans
import RucksFs.Handles
import RucksFs.Tree
import RucksFs.Coherence
import RucksFs.Rename
import RucksFs.Times
import RucksFs.SideRecords
import RucksFs.Fsck
import RucksFs.Failures
import RucksFs.Builds
import RucksFs.Data.RawDisk
import RucksFs.Client.Requests
import RucksFs.Locations
import RucksFs.Client.Core
import RucksFs.Data.ShortWrites
import RucksFs.Client.Routing
import RucksFs.Client.Resize
import RucksFs.Client.Contents
import RucksFs.Client.Durability
import RucksFs.Client.Fuse
import RucksFs.Client.FuseNames
import RucksFs.Client.Readdir
import RucksFs.Client.Interleaved
import RucksFs.Client.Progress
import RucksFs.Client.Sizes
import RucksFs.Client.Writes
import RucksFs.Client.Preallocation
import RucksFs.Rpc.Metadata
