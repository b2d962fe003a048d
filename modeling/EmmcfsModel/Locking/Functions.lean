import EmmcfsModel.Locking.Session

namespace Emmcfs

namespace Locking

-- -ENOENT, -EIO, -ENOMEM, -EEXIST, -EINVAL, -EFAULT, -EPERM and the others that are returned.
def enoent : Int := -2
def eio : Int := -5
def enomem : Int := -12
def efault : Int := -14
def eexist : Int := -17
def enotdir : Int := -20
def eperm : Int := -1
def emlink : Int := -31
def enametoolong : Int := -36
def enotempty : Int := -39

-- EMMCFS_BUG_ON of a result, and following a pointer that is an error.
def bugOn (result : Int) : Locking Unit := Code.haltOn (result ≠ 0)

-- The loop over the pages of the bitmap, each of which is added to the snapshot.
def addChunks : Locking Int :=
  forever do
    if !(← test .fsmFreeBlockChunk .hasPage) then return some 0
    let err ← call .fsmFreeBlockChunk .addChunk
    if err ≠ 0 then
      if ← test .fsmFreeBlockChunk .mountFinished then Code.halt
      return some err
    return none

-- The loop over the bits of the chunk.
def clearBits : Locking Int :=
  forever do
    if !(← test .fsmFreeBlockChunk .hasBit) then return some 0
    if ← test .fsmFreeBlockChunk .bitOutOfRange then
      if ← test .fsmFreeBlockChunk .mountFinished then Code.halt
      return some efault
    if ← test .fsmFreeBlockChunk .bitClear then
      if ← test .fsmFreeBlockChunk .mountFinished then Code.halt
      return some efault
    return none

def fsmFreeBlockChunk : Locking Int := do
  if ← test .fsmFreeBlockChunk .pageOutOfRange then Code.halt
  let err ← addChunks
  if err ≠ 0 then return err
  lock .fsm
  let err ← clearBits
  if err ≠ 0 then return err
  unlock .fsm
  return 0

-- fsm_free_block_chunk by one of its wrappers, with the result that the caller sees.
def putFreeBlock (caller : Caller) : Locking Int := do
  let err ← fsmFreeBlockChunk
  note caller .fsmFreeBlockChunk err
  return err

-- emmcfs_fsm_get_free_block, whose result 0 stands for no space.
def fsmGetFreeBlock : Locking Int := do
  if ← test .fsmGetFreeBlock .beyondVolume then return 0
  lock .fsm
  let block ← call .fsmGetFreeBlock .fsmBtreeLookup
  if block ≠ 0 then
    bugOn (← call .fsmGetFreeBlock .addChunk)
  unlock .fsm
  return block

-- A locked region that is left by a goto to its end is a function of its own, which returns there.
def writeInodeToBnodeLocked : Locking Int := do
  if ← test .writeInodeToBnode .isHlink then
    let ret ← call .writeInodeToBnode .getHlinkValuePage
    if ret ≠ 0 then return ret
    bugOn (← call .writeInodeToBnode .addChunk)
  else
    let ret ← call .writeInodeToBnode .getFromCattree
    if ret ≠ 0 then return ret
    let ret ← call .writeInodeToBnode .getBtreeRecord
    if ret ≠ 0 then return ret
  call .writeInodeToBnode .fillCattreeValue

def writeInodeToBnode : Locking Int := do
  if ← test .writeInodeToBnode .belowFirstIno then return 0
  lock .catalog
  let ret ← writeInodeToBnodeLocked
  unlock .catalog
  return ret

-- The copy of the key with which the next readdir goes on: 0, or -ENOMEM.
def saveKey : Locking Int := do
  if ← test .readdir .bufferTooSmall then
    let ret ← call .readdir .kmalloc
    if ret ≠ 0 then return enomem
  return 0

-- An entry is given to filldir, and the next record is found.
def readdirEntry : Locking (Option Int) := do
  if (← call .readdir .filldir) ≠ 0 then return some (← saveKey)
  let ret ← call .readdir .getNextBtreeRecord
  if ret = enoent then return some 0
  -- the test of the parent follows the pointer before IS_ERR
  bugOn ret
  if ← test .readdir .otherParent then return some 0
  return none

-- The locked region of emmcfs_readdir. Both of its ends release the lock.
def readdirLocked (privateData : Bool) : Locking Int := do
  let ret ← call .readdir (if privateData then .btreeFind else .findFirstCatalogChild)
  if ret ≠ 0 then return ret
  let ret ← call .readdir .getBtreeRecord
  if ret ≠ 0 then return ret
  forever do
    if ← test .readdir .otherParent then return some 0
    if ← test .readdir .isHlink then
      let ret ← call .readdir .getParamsOnHlinkId
      if ret ≠ 0 then return some ret
    readdirEntry

def readdirScan (privateData : Bool) : Locking Int := do
  lock .catalog
  let ret ← readdirLocked privateData
  unlock .catalog
  return ret

-- The label exit_noput, to which a refused dot entry goes, releases the lock too.
def readdirDotDot (privateData : Bool) : Locking Int := do
  if (← call .readdir .filldirDotDot) ≠ 0 then
    unlock .catalog
    return 0
  readdirScan privateData

def readdir (fPos : Nat) (privateData : Bool) : Locking Int := do
  match fPos with
  | 0 =>
    if (← call .readdir .filldirDot) ≠ 0 then
      unlock .catalog
      return 0
    readdirDotDot privateData
  | 1 => readdirDotDot privateData
  | _ => if privateData then readdirScan privateData else return 0

def lookup : Locking Int := do
  if ← test .lookup .nameTooLong then return enametoolong
  if ← test .lookup .notDirectory then return enotdir
  if (← call .lookup .kmalloc) ≠ 0 then return enomem
  lock .catalog
  let ret ← call .lookup .btreeFind
  if ret ≠ 0 then return ret
  let ret ← call .lookup .getBtreeRecord
  if ret ≠ 0 then return ret
  if ← test .lookup .otherKey then
    unlock .catalog
    return 0
  if ← test .lookup .isHlink then
    let ret ← call .lookup .getParamsOnHlinkId
    if ret ≠ 0 then return ret
  let _ ← call .lookup .iget
  unlock .catalog
  return 0

-- The second locked region of emmcfs_link.
def linkLocked : Locking Int := do
  let ret ← call .link .cattreeFind
  if ret ≠ 0 then return ret
  let ret ← call .link .getBtreeRecord
  if ret ≠ 0 then return ret
  if !(← test .link .isHlink) then
    if (← call .link .cloneDataIntoHlinkArea) ≠ 0 then return eio
    if (← call .link .kmalloc) ≠ 0 then return enomem
    let ret ← call .link .btreeRemove
    if ret ≠ 0 then return ret
    bugOn (← call .link .addHlinkRecord)
  call .link .addHlinkRecord

def link : Locking Int := do
  if ← test .link .nameTooLong then return enametoolong
  if ← test .link .isDirectory then Code.halt
  if ← test .link .tooManyLinks then return emlink
  lock .catalog
  let ret ← call .link .cattreeFind
  if ret ≠ enoent then
    unlock .catalog
    return eexist
  unlock .catalog
  lock .catalog
  let ret ← linkLocked
  unlock .catalog
  if ret = 0 then
    let _ ← writeInodeToBnode
    let _ ← writeInodeToBnode
  return ret

def create : Locking Int := do
  if ← test .create .nameTooLong then return enametoolong
  let ret ← call .create .newInode
  if ret ≠ 0 then return ret
  if (← call .create .kmallocName) ≠ 0 then return enomem
  lock .catalog
  let ret ← call .create .addNewCattreeObject
  if ret ≠ 0 then
    let _ ← call .create .freeInodeN
    unlock .catalog
    return ret
  unlock .catalog
  writeInodeToBnode

def addOrphanInode : Locking Int := do
  if (← call .addOrphanInode .kmalloc) ≠ 0 then return enomem
  lock .extents
  let rc ← call .addOrphanInode .btreeInsert
  unlock .extents
  return rc

-- The loop of emmcfs_fsm_free_runtime_fork over the extents of the fork.
def freeExtents : Locking Int :=
  forever do
    if !(← test .fsmFreeRuntimeFork .hasExtent) then return some 0
    if ← test .fsmFreeRuntimeFork .emptyExtent then return none
    let err ← putFreeBlock .fsmFreeRuntimeFork
    if err ≠ 0 then return some err
    return none

def fsmFreeRuntimeFork : Locking Int := do
  let err ← freeExtents
  if err ≠ 0 then return err
  if ← test .fsmFreeRuntimeFork .hasBlocks then addOrphanInode
  else call .fsmFreeRuntimeFork .freeInodeN

-- The loop of emmcfs_fsm_free_exttree. It is left with the lock held, except for its two breaks.
def freeExttreeExtents : Locking Int :=
  forever do
    lock .extents
    let rc ← call .fsmFreeExttree .btreeFind
    if rc ≠ 0 then return some rc
    bugOn (← call .fsmFreeExttree .getBtreeRecord)
    if ← test .fsmFreeExttree .otherObject then return some 0
    let rc ← call .fsmFreeExttree .btreeRemove
    if rc ≠ 0 then
      unlock .extents
      return some rc
    let rc ← putFreeBlock .fsmFreeExttree
    if rc ≠ 0 then
      unlock .extents
      return some rc
    unlock .extents
    return none

def fsmFreeExttree : Locking Int := do
  if (← call .fsmFreeExttree .kmalloc) ≠ 0 then return enomem
  let rc ← freeExttreeExtents
  if rc ≠ 0 then
    unlock .extents
    return rc
  let rc ← call .fsmFreeExttree .removeOrphan
  unlock .extents
  if rc ≠ 0 then return rc
  call .fsmFreeExttree .freeInodeN

-- emmcfs_unlink after the end of its transaction.
def freeOverflow : Locking Int := do
  if (← test .unlink .isRegular) && (← test .unlink .hasBlocks) then
    bugOn (← fsmFreeExttree)
  return 0

def freeData : Locking Int := do
  if ← test .unlink .isRegularOrLink then
    let ret ← fsmFreeRuntimeFork
    if ret ≠ 0 then return ret
    if !(← test .unlink .hasBlocks) then return 0
  else
    bugOn (← call .unlink .freeInodeN)
  freeOverflow

-- emmcfs_unlink from the point at which the link count is 0.
def deleteInode : Locking Int := do
  if ← test .unlink .isHlink then
    let ret ← call .unlink .freeHlinkData
    if ret ≠ 0 then return ret
  freeData

def unlink : Locking Int := do
  let ret ← call .unlink .kmalloc
  if ret ≠ 0 then return ret
  lock .catalog
  let ret ← call .unlink .btreeRemove
  if ret ≠ 0 then
    unlock .catalog
    return ret
  unlock .catalog
  let _ ← writeInodeToBnode
  if ← test .unlink .hasLinks then
    let _ ← writeInodeToBnode
    return 0
  deleteInode

-- emmcfs_rename from the point at which there is no target.
def move : Locking Int := do
  lock .catalog
  let ret ← call .rename .cattreeFind
  if ret ≠ 0 then
    unlock .catalog
    return ret
  let ret ← call .rename .getBtreeRecord
  if ret ≠ 0 then return ret
  if (← call .rename .kmalloc) ≠ 0 then
    unlock .catalog
    return enomem
  let ret ← call .rename .addNewCattreeObject
  if ret ≠ 0 then
    unlock .catalog
    return ret
  bugOn (← call .rename .btreeRemove)
  if !(← test .rename .isHlink) then
    if (← call .rename .kmallocName) ≠ 0 then return enomem
  unlock .catalog
  let ret ← writeInodeToBnode
  if ret ≠ 0 then return ret
  writeInodeToBnode

def rename : Locking Int := do
  if ← test .rename .nameTooLong then return enametoolong
  if ← test .rename .targetExists then
    if ← test .rename .targetNotEmpty then return enotempty
    let ret ← unlink
    if ret ≠ 0 then return ret
  move

def truncateExttree : Locking Int := do
  if (← call .truncateExttree .kmalloc) ≠ 0 then return enomem
  forever do
    if (← call .truncateExttree .extentFind) ≠ 0 then return some 0
    bugOn (← call .truncateExttree .getBtreeRecord)
    if ← test .truncateExttree .otherObject then return some 0
    if ← test .truncateExttree .beyondNewSize then
      let rc ← putFreeBlock .truncateExttree
      if rc ≠ 0 then return some rc
      let _ ← call .truncateExttree .btreeRemove
      return none
    if ← test .truncateExttree .acrossNewSize then
      let rc ← putFreeBlock .truncateExttree
      return some rc
    return some 0

def truncateFork : Locking Int :=
  forever do
    if !(← test .truncateFork .hasExtent) then return some 0
    let whole ← test .truncateFork .wholeExtent
    let err ← putFreeBlock .truncateFork
    if err ≠ 0 then return some err
    if !whole then return some 0
    if ← test .truncateFork .fitsNewSize then return some 0
    return none

def truncateBlocks : Locking Int := do
  if ← test .truncateBlocks .belowFirstIno then Code.halt
  if !(← test .truncateBlocks .isRegularOrLink) then return eperm
  if ← test .truncateBlocks .fitsNewSize then return 0
  if ← test .truncateBlocks .inExttree then
    lock .extents
    let rc ← truncateExttree
    unlock .extents
    if rc ≠ 0 then return rc
  if ← test .truncateBlocks .fitsNewSize then return 0
  truncateFork

def exttreeGetBlock : Locking Int := do
  lock .extents
  if (← call .exttreeGetBlock .extentFind) = 0 then
    if (← call .exttreeGetBlock .getBtreeRecord) = 0 then
      let _ ← test .exttreeGetBlock .otherObject
  unlock .extents
  return 0

-- The block that emmcfs_exttree_add_block returns, 0 if there is none.
def addBlockLocked : Locking Int := do
  if (← call .exttreeAddBlock .extentFind) ≠ 0 then return 0
  if (← call .exttreeAddBlock .getBtreeRecord) ≠ 0 then return 0
  let sameObject := !(← test .exttreeAddBlock .otherObject)
  let rc ← fsmGetFreeBlock
  if rc = 0 then return 0
  if sameObject then
    if ← test .exttreeAddBlock .nextToExtent then return rc
  if (← call .exttreeAddBlock .exttreeAdd) ≠ 0 then return 0
  return rc

def exttreeAddBlock : Locking Int := do
  lock .extents
  let rc ← addBlockLocked
  unlock .extents
  return rc

end Locking

-- The functions that are expected to leave the locks as they find them, with the state of the file
-- for readdir.
inductive LockingFunction
  | readdir (fPos : Nat) (privateData : Bool)
  | lookup | rename | link | unlink | create | writeInodeToBnode
  | fsmFreeExttree | truncateBlocks | exttreeGetBlock | exttreeAddBlock | fsmFreeBlockChunk
  deriving DecidableEq, Repr

def LockingFunction.code : LockingFunction → Locking Int
  | readdir fPos privateData => Locking.readdir fPos privateData
  | lookup                   => Locking.lookup
  | rename                   => Locking.rename
  | link                     => Locking.link
  | unlink                   => Locking.unlink
  | create                   => Locking.create
  | writeInodeToBnode        => Locking.writeInodeToBnode
  | fsmFreeExttree           => Locking.fsmFreeExttree
  | truncateBlocks           => Locking.truncateBlocks
  | exttreeGetBlock          => Locking.exttreeGetBlock
  | exttreeAddBlock          => Locking.exttreeAddBlock
  | fsmFreeBlockChunk        => Locking.fsmFreeBlockChunk

end Emmcfs
