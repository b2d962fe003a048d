import EmmcfsModel.Lib.Store
import EmmcfsModel.Snapshot.Slots

namespace Emmcfs

open Store

-- SECTOR_SIZE, PAGE_CACHE_SIZE, ESB_SIZE_IN_SECTOR and sizeof(struct emmcfs_extended_super_block)
def sectorSize : Nat := 512
def pageCacheSize : Nat := 4096
def esbSizeInSector : Nat := 5
def sizeofExsb : Nat := 2048

-- "eSNP"
def emmcfsSnapshotMagic : Nat := 0x65534e50

-- A device with blocks of the size of a page. The snapshot fork is never changed, so that all
-- copies of the extended superblock name the same area. Nothing is known about crc32.
structure Volume where
  area      : SnapshotArea
  page_size : area.blockSize.shift = pageCacheShift
  sectors   : Nat
  crc32     : List Byte → BitVec 32

namespace Volume

variable (vol : Volume)

-- The five sectors of the extended superblock behind the reserved area and the superblock, and
-- those of its copy before the reserved area at the end of the device.
def exsbAddr : Nat := 3 * sectorSize

def exsbCopyAddr : Nat := (vol.sectors - 2 - esbSizeInSector) * sectorSize

def headAddr : Nat := vol.area.headStart * sectorSize

-- emmcfs_write_snapshot_pages: one page after the other.
def pageWrites (addr : Nat) : List (List Byte) → List Write
  | []            => []
  | page :: pages => ⟨addr, page⟩ :: pageWrites (addr + pageCacheSize) pages

-- `n` pages of the device.
def readPages (d : Store) (addr : Nat) : Nat → List (List Byte)
  | 0     => []
  | n + 1 => readAt d addr pageCacheSize :: readPages d (addr + pageCacheSize) n

-- The pages that emmcfs_add_to_snapshot writes for a new transaction. They are not dirty yet, so
-- that they are the pages on the volume.
def bodyWrites (d : Store) (data : TransactionData) : List Write :=
  pageWrites (data.onSnapshot * sectorSize)
    (readPages d (data.onVolume * sectorSize) data.pagesCount)

section Commit

def transactionBytes (data : TransactionData) : List Byte :=
  toLe 8 data.onVolume ++ toLe 8 data.onSnapshot ++ toLe 2 data.pagesCount

-- The head without its checksum.
def headFields (mountCount version : Nat) (root : List TransactionData) : List Byte :=
  toLe 4 emmcfsSnapshotMagic ++ toLe 4 mountCount ++ toLe 4 version ++ toLe 2 root.length ++
    toLe 2 (16 + sizeofTransaction * root.length) ++ root.flatMap transactionBytes

-- transaction_tree_to_snapshot. The checksum stands behind the last transaction, its offset is kept
-- in 16 bits.
def transactionTreeToSnapshot (mountCount version : Nat) (root : List TransactionData) :
    List Byte :=
  let head := headFields mountCount version root
  head ++ toLe 4 (vol.crc32 (head.take ((16 + sizeofTransaction * root.length) % 2 ^ 16))).toNat

def headPagesCount (info : SnapshotInfo) : Nat :=
  (info.transactionsCount * sizeofTransaction + sizeofSnapshotDescriptor + (1 <<< pageCacheShift - 1))
    >>> pageCacheShift

-- Bytes in pages that were allocated full of zeros.
def toPages (bytes : List Byte) : Nat → List (List Byte)
  | 0     => []
  | n + 1 => (bytes.take pageCacheSize ++ List.replicate (pageCacheSize - bytes.length) 0#8) ::
    toPages (bytes.drop pageCacheSize) n

-- The writes of emmcfs_commit_snapshot: the first superblock if it has changed, the copy of the
-- head's first sector in the history page, the head.
def commitSnapshot (info : SnapshotInfo) (mountCount : Nat) (exsb : List Byte) (dirty : Bool) :
    List Write :=
  if info.transactionsCount = 0 then []
  else
    let pages := toPages (vol.transactionTreeToSnapshot mountCount info.headVersion info.snapshotRoot)
      (headPagesCount info)
    let sector := (pages.headD []).take sectorSize
    (if dirty then [⟨exsbAddr, exsb⟩] else []) ++
      [⟨vol.area.historySector (info.headVersion + 1) * sectorSize, sector⟩] ++
      pageWrites vol.headAddr pages

-- The writes of emmcfs_clear_snapshot: a sector of zeros over the start of the head, then the
-- second superblock if it has changed.
def clearSnapshot (exsb : List Byte) (dirty : Bool) : List Write :=
  ⟨vol.headAddr, List.replicate sectorSize 0#8⟩ ::
    if dirty then [⟨vol.exsbCopyAddr, exsb⟩] else []

end Commit

section Mount

variable (d : Store)

def readExsb : List Byte := readAt d exsbAddr (esbSizeInSector * sectorSize)

def readExsbCopy : List Byte := readAt d vol.exsbCopyAddr (esbSizeInSector * sectorSize)

def VerifyExsb (exsb : List Byte) : Prop :=
  (vol.crc32 (exsb.take (sizeofExsb - 4))).toNat = ofLe ((exsb.drop (sizeofExsb - 4)).take 4)

instance : Decidable (vol.VerifyExsb exsb) :=
  inferInstanceAs (Decidable (_ = _))

def IsSnapshotPresent : Prop :=
  readAt d vol.headAddr 4 = toLe 4 emmcfsSnapshotMagic

instance : Decidable (vol.IsSnapshotPresent d) :=
  inferInstanceAs (Decidable (_ = _))

def readTransaction (addr : Nat) : TransactionData where
  onVolume   := ofLe (readAt d addr 8)
  onSnapshot := ofLe (readAt d (addr + 8) 8)
  pagesCount := ofLe (readAt d (addr + 16) 2)

-- The transactions of a head whose checksum is right.
def readTransactions : Option (List TransactionData) :=
  let count := ofLe (readAt d (vol.headAddr + 12) 2)
  let offset := ofLe (readAt d (vol.headAddr + 14) 2)
  let checksum := vol.crc32 (readAt d vol.headAddr offset)
  if checksum.toNat = ofLe (readAt d (vol.headAddr + offset) 4) then
    some ((List.range count).map fun i =>
      readTransaction d (vol.headAddr + 16 + sizeofTransaction * i))
  else none

-- restore_sigle_transaction, one transaction after the other.
def restoreTransactions (d : Store) : List TransactionData → List Write
  | []            => []
  | data :: root =>
    let writes := pageWrites (data.onVolume * sectorSize)
      (readPages d (data.onSnapshot * sectorSize) data.pagesCount)
    writes ++ restoreTransactions (applyAll writes d) root

-- The writes of emmcfs_restore_snapshot, none if a head with a wrong checksum is met, which is a
-- BUG. No change of the extended superblock is pending when a volume is mounted.
def restoreSnapshot : Option (List Write) :=
  if vol.IsSnapshotPresent d then
    (vol.readTransactions d).map fun root =>
      restoreTransactions d root ++ vol.clearSnapshot [] false
  else some []

-- The writes by which emmcfs_extended_sb_read repairs a broken copy, with both copies as they are
-- in memory then; none if both are broken.
def repairExsb : Option (List Write × List Byte × List Byte) :=
  let exsb := readExsb d
  let copy := vol.readExsbCopy d
  let repaired (good bad : List Byte) := good.take sizeofExsb ++ bad.drop sizeofExsb
  if vol.VerifyExsb exsb then
    if vol.VerifyExsb copy then some ([], exsb, copy)
    else some ([⟨vol.exsbCopyAddr, exsb⟩], exsb, repaired exsb copy)
  else
    if vol.VerifyExsb copy then some ([⟨exsbAddr, copy⟩], repaired copy exsb, copy)
    else none

-- A mount as far as the snapshot is concerned: its writes, and the extended superblock that is in
-- use afterwards, which emmcfs_restore_exsb takes from the copy if there is a snapshot.
def mount : Option (List Write × List Byte) := do
  let (repair, exsb, copy) ← vol.repairExsb d
  let d := applyAll repair d
  let restore ← vol.restoreSnapshot d
  pure (repair ++ restore, if vol.IsSnapshotPresent d then copy else exsb)

end Mount

end Volume

end Emmcfs
