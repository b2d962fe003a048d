import EmmcfsModel.Inode.Basic

namespace Emmcfs

-- The on-disk forms of a fork and of a catalog record, field by field. The fork is part of file
-- records only.
structure LayoutFork where
  magic            : BitVec 8
  sizeInBytes      : BitVec 64
  totalBlocksCount : BitVec 32
  extents          : Vector (BitVec 64 × BitVec 32) extentsCountInFork

structure Date where
  seconds     : BitVec 64
  nanoseconds : BitVec 32

structure CatalogRecord where
  recordType       : BitVec 16
  totalItemsCount  : BitVec 64
  linksCount       : BitVec 64
  objectId         : BitVec 64
  fileMode         : BitVec 16
  uid              : BitVec 32
  gid              : BitVec 32
  creationTime     : Date
  modificationTime : Date
  accessTime       : Date
  dataFork         : LayoutFork

-- EMMCFS_FORK_MAGIC and the EMMCFS_CATALOG_.._RECORD bits
def forkMagic : BitVec 8 := 0x46
def catalogFolderRecord : BitVec 16 := 0x0100
def catalogFileRecord : BitVec 16 := 0x0200
def catalogFileRecordSymlink : BitVec 16 := 0x0001
def catalogFileRecordFifo : BitVec 16 := 0x0002
def catalogFileRecordSocket : BitVec 16 := 0x0004
def catalogFileRecordChr : BitVec 16 := 0x0008
def catalogFileRecordBlk : BitVec 16 := 0x0010

-- None is -EINVAL.
def getRecordTypeOnMode (mode : BitVec 16) : Option (BitVec 16) :=
  if sIsDir mode then some catalogFolderRecord
  else if sIsReg mode then some catalogFileRecord
  else if sIsLnk mode then some (catalogFileRecord ||| catalogFileRecordSymlink)
  else if sIsFifo mode then some (catalogFileRecord ||| catalogFileRecordFifo)
  else if sIsSock mode then some (catalogFileRecord ||| catalogFileRecordSocket)
  else if sIsChr mode then some (catalogFileRecord ||| catalogFileRecordChr)
  else if sIsBlk mode then some (catalogFileRecord ||| catalogFileRecordBlk)
  else none

-- The number of blocks that `i_size` bytes take, as emmcfs_form_fork computes and cuts it.
def sizeInBlocks (bs : BlockSize) (size : BitVec 64) : BitVec 32 :=
  let whole := size.sshiftRight bs.shift
  let rest  := size &&& (1#64 <<< bs.shift - 1#64)
  (whole + if rest ≠ 0#64 then 1#64 else 0#64).setWidth 32

def formFork (bs : BlockSize) (inode : Inode) : LayoutFork :=
  if sIsChr inode.mode || sIsBlk inode.mode then {
    magic            := forkMagic
    sizeInBytes      := inode.rdev.setWidth 64
    totalBlocksCount := 0
    extents          := Vector.replicate _ (0, 0)
  }
  else {
    magic            := forkMagic
    sizeInBytes      := inode.size
    totalBlocksCount := sizeInBlocks bs inode.size
    -- the slots below `used_extents` are copied into the zeroed fork
    extents          := Vector.ofFn fun i =>
      if i < inode.fork.usedExtents then
        (BitVec.ofNat 64 inode.fork.extents[i].firstBlock,
          BitVec.ofNat 32 inode.fork.extents[i].blockCount)
      else (0, 0)
  }

-- The slots as they come back from a record, where the unused ones are blank.
def ForkInfo.storedExtents (fork : ForkInfo) : Vector ExtentInfo extentsCountInFork :=
  Vector.ofFn fun i => if i < fork.usedExtents then fork.extents[i] else .zero

def formDate (t : Timespec) : Date where
  seconds     := t.sec
  nanoseconds := t.nsec.setWidth 32

-- `old` is what the value area held before; a folder record has no fork to write.
def fillCattreeValue (bs : BlockSize) (inode : Inode) (old : LayoutFork) :
    Except Errno CatalogRecord :=
  match getRecordTypeOnMode inode.mode with
  | none         => .error .einval
  | some recType => .ok {
    recordType       := recType
    totalItemsCount  := inode.size
    linksCount       := inode.nlink.setWidth 64
    objectId         := BitVec.ofNat 64 inode.ino
    fileMode         := inode.mode
    uid              := inode.uid
    gid              := inode.gid
    creationTime     := formDate inode.ctime
    modificationTime := formDate inode.mtime
    accessTime       := formDate inode.atime
    dataFork         :=
      if recType &&& catalogFileRecord ≠ 0#16 then formFork bs inode else old
  }

-- The extents are taken over, and those with a start that is not 0 are counted as used.
def lforkToRfork (lfork : LayoutFork) (rfork : ForkInfo) : ForkInfo :=
  let extents := lfork.extents.map fun e =>
    (⟨e.1.toNat, e.2.toNat, e.1.isLt, e.2.isLt⟩ : ExtentInfo)
  { rfork with
    extents     := extents
    usedExtents := extents.toList.countP fun e => e.firstBlock ≠ 0 }

def parseFork (bs : BlockSize) (lfork : LayoutFork) : Driver Inode Unit := do
  if lfork.magic ≠ forkMagic then
    Code.fail .einval
  else
    Code.modify fun inode =>
      if sIsChr inode.mode || sIsBlk inode.mode then
        { inode with rdev := lfork.sizeInBytes.setWidth 32, size := 0 }
      else
        { inode with size := lfork.sizeInBytes }
    Code.modify fun inode => { inode with fork := { inode.fork with
      totalBlockCount := lfork.totalBlocksCount.toNat
      total_lt        := lfork.totalBlocksCount.isLt } }
    let inode ← Code.get
    if (lfork.totalBlocksCount.setWidth 64 <<< bs.shift).ult inode.size then
      Code.fail .einval
    else
      Code.modify fun inode => { inode with fork := lforkToRfork lfork inode.fork }

def parseDate (d : Date) : Timespec where
  sec  := d.seconds
  nsec := d.nanoseconds.setWidth 64

-- The record has been looked up, through the hard link area if need be.
def readInode (bs : BlockSize) (val : CatalogRecord) : Driver Inode Unit := do
  Code.modify fun inode => { inode with
    mode  := val.fileMode
    uid   := val.uid
    gid   := val.gid
    nlink := val.linksCount.setWidth 32 }
  Code.modify fun inode => if inode.ino = rootIno then { inode with nlink := 1 } else inode
  Code.modify fun inode => { inode with
    mtime := parseDate val.modificationTime
    atime := parseDate val.accessTime
    ctime := parseDate val.creationTime }
  if val.recordType &&& catalogFileRecord ≠ 0#16 then
    parseFork bs val.dataFork
  else
    Code.haltOn (val.recordType ≠ catalogFolderRecord)
    Code.modify fun inode => { inode with size := val.totalItemsCount }

end Emmcfs
