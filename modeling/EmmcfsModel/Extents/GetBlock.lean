import EmmcfsModel.Extents.Growth

namespace Emmcfs

-- EMMCFS_LEB_BITMAP_INO
def lebBitmapIno : Nat := 3

-- The volume and the size of its device in blocks. The writes of inodes to their records in the
-- catalog tree end as the list says, one after the other; when there are no more entries they succeed.
structure BlockMap where
  volume       : Expansion
  deviceBlocks : Nat
  writes       : List (Option Errno)

abbrev MapCode (α : Type) := Driver BlockMap α

-- What emmcfs_get_block sets in the buffer_head; its size is left out.
structure MappedBlock where
  block : Nat
  isNew : Bool
  deriving DecidableEq, Repr

namespace BlockMap

def onVolume (m : ExpandCode α) : MapCode α :=
  Code.zoom (·.volume) (fun volume s => { s with volume }) m

-- emmcfs_write_inode_to_bnode
def writeInodeToBnode : MapCode Unit := do
  let s ← Code.get
  match s.writes with
  | []          => pure ()
  | o :: writes => do
    Code.modify fun s => { s with writes }
    o.elim (pure ()) Code.fail

section Blocks

variable (ino iblock : Nat)

-- expand_file to its end. The special files have no record in the catalog tree.
def expandFile : MapCode Nat := do
  let resBlock ← onVolume (Expansion.expandFile ino iblock)
  if firstFileIno ≤ ino then writeInodeToBnode else pure ()
  pure resBlock

-- The part of emmcfs_get_block behind the search for the block.
def mapBlock (isMountFinished : Bool) (resBlock : Nat) (alloc : Bool) :
    MapCode (Option MappedBlock) := do
  let s ← Code.get
  if s.deviceBlocks < resBlock then
    if isMountFinished then Code.halt else Code.fail .efault
  else pure (some ⟨resBlock, alloc⟩)

-- emmcfs_get_block; none if it leaves the buffer_head as it is. Nothing in it changes the flag
-- IS_MOUNT_FINISHED.
def getBlock (create : Bool) : MapCode (Option MappedBlock) := do
  let s ← Code.get
  let isMountFinished := s.volume.fsm.isMountFinished
  if (s.volume.forks ino).totalBlockCount ≤ iblock then
    if create then do
      Code.haltOn (ino = lebBitmapIno)
      let resBlock ← expandFile ino iblock
      mapBlock isMountFinished resBlock true
    else pure none
  else do
    let resBlock ← onVolume (Expansion.findOldBlock ino iblock)
    if resBlock.getD 0 = 0 then Code.fail .enospc
    else mapBlock isMountFinished (resBlock.getD 0) false

end Blocks

end BlockMap

-- What an error must leave as it is: the files, the extents tree, the set of the free blocks and
-- their number.
structure Expansion.Unchanged (s s' : Expansion) : Prop where
  forks   : s'.forks = s.forks
  exttree : s'.exttree = s.exttree
  free    : clearBits s'.fsm.data (8 * s'.fsm.lengthInBytes) =
    clearBits s.fsm.data (8 * s.fsm.lengthInBytes)
  count   : s'.fsm.freeBlocksCount = s.fsm.freeBlocksCount

-- Nothing fails once a file has got its blocks: the record for them can be inserted, the inode can be
-- written and the block that is wanted lies on the device.
structure BlockMap.Undisturbed (ino iblock : Nat) (s : BlockMap) : Prop where
  insert   : ¬s.volume.InsertFails ⟨ino, (s.volume.forks ino).totalBlockCount⟩
  write    : firstFileIno ≤ ino → ∀ e, s.writes.head? ≠ some (some e)
  device   : s.volume.fsm.isMountFinished ∨ (Expansion.Covers ino iblock s.volume ∧
    ∀ b ∈ clearBits s.volume.fsm.data (8 * s.volume.fsm.lengthInBytes), b ≤ s.deviceBlocks)
  distance : iblock - (s.volume.forks ino).totalBlockCount < 2 ^ 63

end Emmcfs
