import Omemfs.Pack.Concurrent
import Omemfs.Pack.ObjectGraph
import Omemfs.Pack.IndexVec
import Omemfs.Pack.LocalRoot
import Omemfs.Pack.ColdSplit
import Omemfs.Pack.Consolidate
import Omemfs.Scan.Freshness
import Omemfs.Scan.CacheRoundTrip
import Omemfs.Store.MigrationRace
import Omemfs.Sync.Converge
import Omemfs.Sync.Conflict
import Omemfs.Sync.RecordBounds
import Omemfs.Sync.Spine
import Omemfs.Sync.PushCapture
import Omemfs.Sync.ScopedPush
import Omemfs.Scan.WellFormed
import Omemfs.Scan.ScopedScan
import Omemfs.Scan.Still
import Omemfs.Scan.Withdraw
import Omemfs.Work.Cloned
import Omemfs.Work.Interrupted
import Omemfs.Work.Seen
import Omemfs.Store.TreeObject
import Omemfs.Store.Cached
import Omemfs.Store.Streaming
import Omemfs.Sync.LivePull
import Omemfs.Sync.Resolve
import Omemfs.Sync.Quiescent
import Omemfs.Ls.RemoteColumn
import Omemfs.Pack.BloomFaults
import Omemfs.Transfer.Wakeup
import Omemfs.Filter.Grammar
import Omemfs.Work.Clean
import Omemfs.Base32
import Omemfs.Work.PathArgument
import Omemfs.Transfer.Budget
