import Tidefs.Durability.Layout
import Tidefs.SpaceMap.Checkpoint
import Tidefs.SpaceMap.Hints
import Tidefs.Allocator.Pending
import Tidefs.Allocator.Trim
import Tidefs.Allocator.Fence
import Tidefs.Allocator.Bytes
import Tidefs.Allocator.Contiguous
import Tidefs.ExtentMap.Insertion
import Tidefs.Erasure.Recover
import Tidefs.Capacity.Reserve
import Tidefs.CommitGroup.Durability
import Tidefs.CommitGroup.Recovery
import Tidefs.Acl.Access
import Tidefs.DirIndex.Batch
import Tidefs.DirIndex.Namespace
import Tidefs.Capacity.Ledger
import Tidefs.Capacity.Hierarchy
import Tidefs.Quorum.Write
import Tidefs.Membership.Transition
import Tidefs.Membership.Agreement
import Tidefs.Reclaim.ReceiptBound
import Tidefs.Reclaim.Evacuation
import Tidefs.Orphan.Batch
import Tidefs.Dedup.Sound
import Tidefs.Dedup.Stats
import Tidefs.Locator.Refines
import Tidefs.Locks.Posix
import Tidefs.Xattr.Persistent
import Tidefs.Transport.FlowControl
import Tidefs.Scheduler.Cycle
import Tidefs.Partition.Runtime
import Tidefs.CommitGroup.Dirty
import Tidefs.ExtentMap.Clone
import Tidefs.ObjectStore.Replay
