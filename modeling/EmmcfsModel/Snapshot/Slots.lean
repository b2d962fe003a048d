import EmmcfsModel.Basic
import Mathlib.Order.Interval.Set.LinearOrder
import Mathlib.Data.Set.Lattice
import Mathlib.Order.CompletePartialOrder

namespace Emmcfs

-- What the superblocks say about the snapshot area: the block size and the extent
-- `exsb->snapshot`. Block numbers are small enough for their sector numbers to fit 64 bits, and the
-- area does not start at the superblock's own block.
structure SnapshotArea where
  blockSize : BlockSize
  start     : Nat
  length    : Nat
  start_pos : 0 < start
  start_lt  : start < 2 ^ 60
  length_lt : length < 2 ^ 32

-- Blocks of a page, as many as `length`; and 64 of them behind as many others.
def SnapshotArea.ofPages (start length : Nat) (h : 0 < start ∧ start < 2 ^ 60 ∧ length < 2 ^ 32) :
    SnapshotArea :=
  ⟨.page, start, length, h.1, h.2.1, h.2.2⟩

def SnapshotArea.pages64 : SnapshotArea := .ofPages 64 64 (by decide)

structure TransactionData where
  onVolume   : Nat
  onSnapshot : Nat
  pagesCount : Nat
  deriving DecidableEq, Repr

-- The part of emmcfs_snapshot_info that the slots depend on. The red-black tree of transactions is
-- the list of its nodes in ascending order of `onVolume`.
structure SnapshotInfo where
  pagesPerHead       : Nat
  maxPagesInSnapshot : Nat
  transactionsCount  : Nat
  pageIndex          : Nat
  headVersion        : Nat
  snapshotRoot       : List TransactionData
  deriving DecidableEq, Repr

-- sizeof(struct emmcfs_transaction) and sizeof(struct emmcfs_snapshot_descriptor)
def sizeofTransaction : Nat := 18
def sizeofSnapshotDescriptor : Nat := 34
def pagesPerHeadHistory : Nat := 1

namespace SnapshotArea

def logSectorsPerBlock (area : SnapshotArea) : Nat :=
  area.blockSize.shift - sectorSizeShift

-- The assignments to `snapshot->pages_per_head`, an unsigned int.
def pagesPerHead (area : SnapshotArea) : Nat :=
  let pages := area.length >>> (pageCacheShift - area.blockSize.shift)
  let bytes := u32 (pages * sizeofTransaction)
  let bytes := u32 (bytes + sizeofSnapshotDescriptor)
  let bytes := u32 (bytes + (1 <<< pageCacheShift - 1))
  bytes >>> pageCacheShift

def maxPagesInSnapshot (area : SnapshotArea) : Nat :=
  u32Sub (u32Sub (u32 (area.length <<< area.blockSize.shift) >>> pageCacheShift) area.pagesPerHead)
    pagesPerHeadHistory

-- The state that emmcfs_build_snapshot_manager sets up, and that emmcfs_commit_snapshot and
-- emmcfs_clear_snapshot leave behind with a later head version.
def cleared (area : SnapshotArea) (headVersion : Nat) : SnapshotInfo where
  pagesPerHead       := area.pagesPerHead
  maxPagesInSnapshot := area.maxPagesInSnapshot
  transactionsCount  := 0
  pageIndex          := area.pagesPerHead
  headVersion        := headVersion
  snapshotRoot       := []

end SnapshotArea

-- Insertion into the red-black tree, none for -EEXIST.
def transactionInsert (data : TransactionData) :
    List TransactionData → Option (List TransactionData)
  | [] => some [data]
  | this :: root =>
    if data.onVolume < this.onVolume then some (data :: this :: root)
    else if this.onVolume < data.onVolume then (transactionInsert data root).map (this :: ·)
    else none

-- emmcfs_add_to_snapshot for pages that start at block `startBlock` of the volume. The result is
-- the new transaction, whose pages are then written to its sectors, or none if the pages are in the
-- snapshot already.
def addToSnapshot (area : SnapshotArea) (startBlock pagesCount : Nat) :
    Driver SnapshotInfo (Option TransactionData) := do
  if startBlock = 0 then
    Code.fail .einval
  else
    let info ← Code.get
    let data : TransactionData := {
      onVolume   := startBlock <<< area.logSectorsPerBlock
      onSnapshot := (area.start + info.pageIndex) <<< area.logSectorsPerBlock
      pagesCount := pagesCount
    }
    match transactionInsert data info.snapshotRoot with
    | none      => pure none
    | some root =>
      Code.haltOn (info.maxPagesInSnapshot < info.pageIndex + pagesCount)
      Code.modify fun info => { info with
        transactionsCount := u32 (info.transactionsCount + 1)
        pageIndex         := info.pageIndex + pagesCount
        snapshotRoot      := root
      }
      pure (some data)

-- A call passes at least one page.
structure AddCall where
  startBlock : Nat
  pagesCount : Nat
  pages_pos  : 0 < pagesCount

-- A sequence of calls; one that fails leaves the rest to go on.
def addAll (area : SnapshotArea) : List AddCall → Driver SnapshotInfo Unit
  | []            => pure ()
  | call :: calls => do
    let _ ← Code.onFail (addToSnapshot area call.startBlock call.pagesCount) fun _ => pure none
    addAll area calls

namespace TransactionData

def sectors (data : TransactionData) : Set Nat :=
  Set.Ico data.onSnapshot (data.onSnapshot + sectorPerPage * data.pagesCount)

end TransactionData

namespace SnapshotArea

-- The blocks of the extent, as sectors.
def sectors (area : SnapshotArea) : Set Nat :=
  Set.Ico (area.start <<< area.logSectorsPerBlock)
    ((area.start + area.length) <<< area.logSectorsPerBlock)

-- The sectors that emmcfs_commit_snapshot writes: the head, from the first page of the area on, and
-- the copy of its first sector for a version of the head.
def headStart (area : SnapshotArea) : Nat :=
  area.start <<< (pageCacheShift - sectorSizeShift)

def headSectors (area : SnapshotArea) : Set Nat :=
  Set.Ico area.headStart (area.headStart + sectorPerPage * area.pagesPerHead)

def headHistoryMask : Nat :=
  pagesPerHeadHistory <<< (pageCacheShift - sectorSizeShift) - 1

def historySector (area : SnapshotArea) (headVersion : Nat) : Nat :=
  (area.start + area.length) <<< (pageCacheShift - sectorSizeShift) -
    pagesPerHeadHistory * sectorPerPage + (headVersion &&& headHistoryMask)

def historySectors (area : SnapshotArea) : Set Nat :=
  Set.range area.historySector

-- A transaction's slot lies in the extent, outside of what a commit writes.
structure SlotClear (area : SnapshotArea) (data : TransactionData) : Prop where
  inside  : data.sectors ⊆ area.sectors
  head    : Disjoint data.sectors area.headSectors
  history : Disjoint data.sectors area.historySectors

structure SlotsClear (area : SnapshotArea) (info : SnapshotInfo) : Prop where
  disjoint : info.snapshotRoot.Pairwise fun t u => Disjoint t.sectors u.sectors
  clear    : ∀ t ∈ info.snapshotRoot, area.SlotClear t

-- The first slot that is handed out after a clear, if it has one page.
def firstSlot (area : SnapshotArea) (onVolume : Nat) : TransactionData where
  onVolume   := onVolume
  onSnapshot := (area.start + area.pagesPerHead) <<< area.logSectorsPerBlock
  pagesCount := 1

-- The areas that keep the slots apart: those without room for a slot, those with blocks of the size
-- of a page and room that stays below the history page, and those with room for one slot only that
-- happens to lie well.
def KeepsSlotsApart (area : SnapshotArea) : Prop :=
  area.maxPagesInSnapshot ≤ area.pagesPerHead ∨
  (area.blockSize.shift = pageCacheShift ∧ area.maxPagesInSnapshot < area.length) ∨
  (area.maxPagesInSnapshot = area.pagesPerHead + 1 ∧ area.SlotClear (area.firstSlot 0))

end SnapshotArea

end Emmcfs
