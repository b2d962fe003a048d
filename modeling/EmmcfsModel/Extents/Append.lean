import EmmcfsModel.Extents.Cover
import EmmcfsModel.Extents.Growth

namespace Emmcfs.Expansion

def freeBlocks (s : Expansion) : Finset Nat :=
  clearBits s.fsm.data (8 * s.fsm.lengthInBytes)

-- The blocks of a file in their order. It has records in the extents tree only if its fork is full.
def Consists (ino : Nat) (blocks : List Nat) (s : Expansion) : Prop :=
  ∃ fs es, s.CoveredBy ino fs es ∧ blocks = blockList (fs ++ es) ∧
    (es ≠ [] → (s.forks ino).usedExtents = extentsCountInFork)

-- A file on a volume in order: its blocks are different ones and none of them is free.
structure Sound (ino : Nat) (blocks : List Nat) (s : Expansion) : Prop where
  consists : s.Consists ino blocks
  manages  : s.fsm.Manages s.freeBlocks
  small    : s.fsm.Small
  nodup    : blocks.Nodup
  taken    : ∀ b ∈ blocks, b ∉ s.freeBlocks
  log      : s.fsm.logBlocksInLeb < 31
  total    : s.fsm.totalBlocks < 2 ^ 32

-- The physical block of a logical block.
def IsBlock (ino iblock block : Nat) (s : Expansion) : Prop :=
  iblock < (s.forks ino).totalBlockCount ∧ s.OldBlock ino iblock block

-- The number of blocks of the file becomes larger.
def lengthen (ino cnt : Nat) (s : Expansion) : Expansion :=
  { s with forks := fun i => if i = ino then { s.forks ino with
      totalBlockCount := u32 ((s.forks ino).totalBlockCount + cnt)
      total_lt        := Nat.mod_lt _ (Nat.two_pow_pos 32) } else s.forks i }

-- What stays when the free space manager has been asked for blocks or has got them back.
structure Remains (s s' : Expansion) : Prop extends Kept s s' where
  bytes : s'.fsm.lengthInBytes = s.fsm.lengthInBytes
  log   : s'.fsm.logBlocksInLeb = s.fsm.logBlocksInLeb
  total : s'.fsm.totalBlocks = s.fsm.totalBlocks

end Emmcfs.Expansion
