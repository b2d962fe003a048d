import EmmcfsModel.Fsm.Space

namespace Emmcfs

-- The free space manager with the preallocated blocks of an inode. The calls of EMMCFS_ADD_CHUNK end
-- as the outcomes say, one after the other; when there are no more entries they succeed.
structure Release where
  fsm                : FsmInfo
  preallocStartBlock : Nat
  preallocBlockCount : Nat
  outcomes           : List (Option Errno)

namespace Release

-- EMMCFS_ADD_CHUNK for one page of the bitmap after the other.
def addChunks : Nat → Driver Release Unit
  | 0     => pure ()
  | n + 1 => do
    let s ← Code.get
    Code.modify fun s => { s with outcomes := s.outcomes.tail }
    s.outcomes.head?.join.elim (addChunks n) Code.fail

-- The preallocated blocks of the inode go back into the tree.
def discardPreallocation (s : Release) : Release where
  fsm                := if s.preallocStartBlock ≠ 0 ∧ s.preallocBlockCount ≠ 0 then
    { s.fsm with tree := fsmBtreeFree s.fsm.tree s.preallocStartBlock s.preallocBlockCount } else s.fsm
  preallocStartBlock := 0
  preallocBlockCount := 0
  outcomes           := s.outcomes

def onFsm (m : Driver FsmInfo α) : Driver Release α :=
  Code.zoom (·.fsm) (fun fsm s => { s with fsm }) m

def startPage (blockOffset : Nat) : Nat :=
  blockOffset >>> (pageCacheShift + 3)

-- The number of the bitmap pages from the first to the last one.
def pages (blockOffset lengthInBlocks : Nat) : Nat :=
  startPage (blockOffset + lengthInBlocks) + 1 - startPage blockOffset

-- The part of fsm_free_block_chunk under the lock of the manager. The inode is given by
-- emmcfs_fsm_put_free_block and not by emmcfs_fsm_free_exttree_extent.
def release (inode : Bool) (blockOffset lengthInBlocks : Nat) : Driver Release Unit := do
  if inode then Code.modify discardPreallocation else pure ()
  onFsm do
    Code.modify fun fsm => { fsm with
      tree            := fsmBtreeFree fsm.tree blockOffset lengthInBlocks
      freeBlocksCount := u64 (fsm.freeBlocksCount + lengthInBlocks)
    }
    freeBits blockOffset lengthInBlocks

-- fsm_free_block_chunk
def freeBlockChunk (inode : Bool) (blockOffset lengthInBlocks : Nat) : Driver Release Unit := do
  let s ← Code.get
  Code.haltOn (s.fsm.OffPages blockOffset lengthInBlocks)
  Code.onFail (addChunks (pages blockOffset lengthInBlocks)) fun err =>
    if s.fsm.isMountFinished then Code.halt else Code.fail err
  release inode blockOffset lengthInBlocks

-- One of the calls of EMMCFS_ADD_CHUNK fails.
def AddChunkFails (s : Release) (n : Nat) : Prop :=
  ∃ err, some err ∈ s.outcomes.take n

-- All blocks of a run are bits of the bitmap, and set. The index is an unsigned int.
def AllUsed (s : Release) (blockOffset lengthInBlocks : Nat) : Prop :=
  ∀ i < lengthInBlocks, u32 (blockOffset + i) < s.fsm.bitLimit ∧
    testBit s.fsm.data (u32 (blockOffset + i))

-- What an error must not change.
structure Same (s s' : Release) : Prop where
  fsm   : s'.fsm = s.fsm
  start : s'.preallocStartBlock = s.preallocStartBlock
  count : s'.preallocBlockCount = s.preallocBlockCount

end Release

end Emmcfs
