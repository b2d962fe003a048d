import EmmcfsModel.Btree.Theorems.FailedInsert
import EmmcfsModel.Btree.Theorems.Map
import EmmcfsModel.Btree.Theorems.RawRefine
import EmmcfsModel.Btree.Theorems.Reader
import EmmcfsModel.Btree.Theorems.Verify
import EmmcfsModel.Catalog.Theorems.Hint
import EmmcfsModel.Deletion.Theorems.Crash
import EmmcfsModel.Extents.Theorems.Exact
import EmmcfsModel.Extents.Theorems.MapRange
import EmmcfsModel.Fsm.Theorems.Exhaustion
import EmmcfsModel.Fsm.Theorems.Free
import EmmcfsModel.Fsm.Theorems.Mount
import EmmcfsModel.Fsm.Theorems.Overrun
import EmmcfsModel.Inode.Theorems.Buffers
import EmmcfsModel.Inode.Theorems.Hlinks
import EmmcfsModel.Inode.Theorems.Record
import EmmcfsModel.Locking.Theorems.Balance
import EmmcfsModel.Namespace.Theorems.Counts
import EmmcfsModel.Namespace.Theorems.Creation
import EmmcfsModel.Snapshot.Theorems.Atomic
import EmmcfsModel.Snapshot.Theorems.Height
import EmmcfsModel.Snapshot.Theorems.Overflow
import EmmcfsModel.Snapshot.Theorems.RoundTrip
import EmmcfsModel.Snapshot.Theorems.Torn
import EmmcfsModel.Snapshot.Theorems.Transfer
import EmmcfsModel.Super.Theorems.Geometry
import EmmcfsModel.Super.Theorems.Options
