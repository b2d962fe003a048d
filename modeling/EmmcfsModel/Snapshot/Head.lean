import EmmcfsModel.Snapshot.Commit

namespace Emmcfs

open Store

-- The snapshot head as the functions see it, in pages that are mapped one behind the other from
-- address 0 on. Nothing is known about crc32.
namespace SnapshotHead

variable (crc32 : List Byte → BitVec 32)

-- The turns of the loop of transaction_tree_to_snapshot, with `current_trunsaction` at `addr`.
def entryWrites (addr : Nat) : List TransactionData → List Write
  | []        => []
  | t :: root =>
    ⟨addr + 16, toLe 2 t.pagesCount⟩ :: ⟨addr + 8, toLe 8 t.onSnapshot⟩ ::
      ⟨addr, toLe 8 t.onVolume⟩ :: entryWrites (addr + sizeofTransaction) root

-- Where `current_trunsaction` points to behind the loop.
def checksumAddr (root : List TransactionData) : Nat :=
  16 + sizeofTransaction * root.length

def fieldWrites (mountCount version : Nat) (root : List TransactionData) : List Write :=
  ⟨0, toLe 4 emmcfsSnapshotMagic⟩ :: (entryWrites 16 root ++
    [⟨12, toLe 2 root.length⟩, ⟨14, toLe 2 (checksumAddr root)⟩, ⟨4, toLe 4 mountCount⟩,
      ⟨8, toLe 4 version⟩])

-- Pages that were allocated full of zeros.
def blank : Store := fun _ => 0#8

-- transaction_tree_to_snapshot: its assignments to the mapped pages. It reads the offset of the
-- checksum back from its field to sign the head, but puts the checksum where its pointer is.
def transactionTreeToSnapshot (mountCount version : Nat) (root : List TransactionData) :
    Except Errno (List Write) :=
  if root = [] then .error .einval
  else
    let fields := fieldWrites mountCount version root
    let snapshot := applyAll fields blank
    let checksum := crc32 (readAt snapshot 0 (ofLe (readAt snapshot 14 2)))
    .ok (fields ++ [⟨checksumAddr root, toLe 4 checksum.toNat⟩])

-- emmcfs_commit_snapshot writes its pages to the area.
def commitHead (addr pagesCount : Nat) (snapshot : Store) : List Write :=
  Volume.pageWrites addr (Volume.readPages snapshot 0 pagesCount)

-- What emmcfs_restore_snapshot takes from the pages that it has mapped; none without a magic number,
-- with a wrong checksum, which is a BUG, or if it has to read behind the pages.
def restoreHead (pagesPerHead : Nat) (snapshot : Store) : Option (List TransactionData) :=
  let size := pageCacheSize * pagesPerHead
  let count := ofLe (readAt snapshot 12 2)
  let offset := ofLe (readAt snapshot 14 2)
  let checksum := crc32 (readAt snapshot 0 offset)
  if readAt snapshot 0 4 = toLe 4 emmcfsSnapshotMagic ∧ offset + 4 ≤ size ∧
      16 + sizeofTransaction * count ≤ size ∧ checksum.toNat = ofLe (readAt snapshot offset 4) then
    some ((List.range count).map fun i =>
      Volume.readTransaction snapshot (16 + sizeofTransaction * i))
  else none

end SnapshotHead

namespace SnapshotArea

open SnapshotHead

-- The transactions that emmcfs_add_to_snapshot can have put into the tree, as the sectors of the
-- volume are numbered.
structure Holds (area : SnapshotArea) (root : List TransactionData) : Prop where
  nonempty  : root ≠ []
  ascending : root.Pairwise (·.onVolume < ·.onVolume)
  sectors   : ∀ t ∈ root, t.onVolume < 2 ^ 64 ∧ t.onSnapshot < 2 ^ 64
  pages_pos : ∀ t ∈ root, 0 < t.pagesCount
  room      : area.pagesPerHead + (root.map (·.pagesCount)).sum ≤ area.maxPagesInSnapshot

def filled (area : SnapshotArea) (headVersion : Nat) (root : List TransactionData) : SnapshotInfo :=
  { area.cleared headVersion with
    transactionsCount := root.length
    pageIndex         := area.pagesPerHead + (root.map (·.pagesCount)).sum
    snapshotRoot      := root }

def headByte (area : SnapshotArea) : Nat :=
  area.headStart * sectorSize

-- The pages of the area from the first one on, after a commit over a device `d`.
def committed (area : SnapshotArea) (info : SnapshotInfo) (ws : List Write) (d : Store) : Store :=
  fun i => applyAll (commitHead area.headByte (Volume.headPagesCount info) (applyAll ws blank)) d
    (area.headByte + i)

-- A head is written, fits into the pages for it, and is read back.
structure HeadKept (area : SnapshotArea) (root : List TransactionData)
    (crc32 : List Byte → BitVec 32) (mountCount headVersion : Nat) (d : Store) (ws : List Write) :
    Prop where
  written  : transactionTreeToSnapshot crc32 mountCount headVersion root = .ok ws
  mapped   : ∀ w ∈ ws, w.span ⊆ Set.Ico 0
    (pageCacheSize * Volume.headPagesCount (area.filled headVersion root))
  reserved : ∀ w ∈ ws, w.span ⊆ Set.Ico 0 (pageCacheSize * area.pagesPerHead)
  restored : restoreHead crc32 area.pagesPerHead
    (area.committed (area.filled headVersion root) ws d) = some root

def KeepsHead (area : SnapshotArea) (root : List TransactionData) : Prop :=
  ∀ crc32 mountCount headVersion d, ∃ ws, area.HeadKept root crc32 mountCount headVersion d ws

-- The head fits what is reserved for it and its fields hold their values.
structure HeadFits (area : SnapshotArea) (root : List TransactionData) : Prop where
  offset : 16 + sizeofTransaction * root.length < 2 ^ 16
  pages  : ∀ t ∈ root, t.pagesCount < 2 ^ 16
  size   : checksumAddr root + 4 ≤ pageCacheSize * area.pagesPerHead

-- The unsigned ints of emmcfs_build_snapshot_manager hold their values.
structure NoOverflow (area : SnapshotArea) : Prop where
  head : (area.length >>> (pageCacheShift - area.blockSize.shift)) * sizeofTransaction +
    sizeofSnapshotDescriptor + (1 <<< pageCacheShift - 1) < 2 ^ 32
  max  : area.pagesPerHead + pagesPerHeadHistory ≤
    u32 (area.length <<< area.blockSize.shift) >>> pageCacheShift

end SnapshotArea

end Emmcfs
