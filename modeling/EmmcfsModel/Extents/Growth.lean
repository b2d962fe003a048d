import EmmcfsModel.Extents.Expand
import EmmcfsModel.Fsm.Theorems.Space

namespace Emmcfs.Expansion

-- A request of the extents tree fails, or the key is there already.
def InsertFails (s : Expansion) (key : ExttreeKey) : Prop :=
  (∃ e, some e ∈ s.outcomes) ∨ ∃ r ∈ s.exttree, exttreeCmpfn r.key key = 0

-- The files and the records are as before; only the requests of the extents tree are gone.
structure Kept (s s' : Expansion) : Prop where
  forks    : s'.forks = s.forks
  exttree  : s'.exttree = s.exttree
  outcomes : s'.outcomes <:+ s.outcomes

-- The free space manager has the free blocks `free`.
structure Frees (free : Finset Nat) (s s' : Expansion) : Prop where
  manages : s'.fsm.Manages free
  small   : s'.fsm.Small
  bytes   : s'.fsm.lengthInBytes = s.fsm.lengthInBytes

-- Blocks were taken from the free ones.
structure Took (free : Finset Nat) (s : Expansion) (start cnt : Nat) (s' : Expansion) : Prop
    extends Frees (free \ Finset.Ico start (start + cnt)) s s' where
  pos    : 0 < start
  subset : Finset.Ico start (start + cnt) ⊆ free

-- The end of an attempt to get `cnt` blocks for a file, for which a record with the key may have to be
-- inserted: there are no such blocks, they are taken and lost because there is no record for them, or
-- the file has them, and then `P` holds.
inductive Attempt (key : ExttreeKey) (cnt : Nat) (free : Finset Nat) (s : Expansion)
    (P : Expansion → Prop) : Nat → Expansion → Prop
  | refused : Frees free s s' → Kept s s' → Attempt key cnt free s P 0 s'
  | lost    : InsertFails s key → Took free s start cnt s' → Kept s s' → Attempt key cnt free s P 0 s'
  | grown   : Took free s start cnt s' → P s' → Attempt key cnt free s P start s'

-- The file has grown by so many blocks.
def Longer (ino cnt : Nat) (s s' : Expansion) : Prop :=
  (s'.forks ino).totalBlockCount = u32 ((s.forks ino).totalBlockCount + cnt)

-- A file has grown by at least `lo` and at most `hi` blocks, and `block` is the one for `iblock`.
def Grew (ino iblock lo hi : Nat) (free : Finset Nat) (s : Expansion) (block : Nat) (s' : Expansion) :
    Prop :=
  ∃ cnt start free', lo ≤ cnt ∧ cnt ≤ hi ∧ free' ⊆ free ∧ Took free' s start cnt s' ∧
    Longer ino cnt s s' ∧ block = u64 (start + u64Sub iblock (s.forks ino).totalBlockCount)

-- The granularity of the expansions of a file.
def granLog2 (ino : Nat) (s : Expansion) : Nat :=
  if ino < firstFileIno then s.fsm.logBlocksInLeb else 0

-- The smallest and the first request of expand_file.
def minRequest (ino iblock : Nat) (s : Expansion) : Nat :=
  alignUp (if ino = extentsTreeIno then s.fsm.totalBlocks >>> 7
    else u64 (u64Sub iblock (s.forks ino).totalBlockCount + 1)) (granLog2 ino s)

def firstRequest (ino iblock : Nat) (s : Expansion) : Nat :=
  alignUp (max (if ino = catTreeIno then s.fsm.totalBlocks >>> 7 else 1) (minRequest ino iblock s))
    (granLog2 ino s)

-- The block is not farther from the end of the file than what expand_file asks for. The extents tree
-- always asks for the same number of blocks. For the other files it is enough that the distance,
-- rounded up, is a sector_t.
def Covers (ino iblock : Nat) (s : Expansion) : Prop :=
  let distance := iblock - (s.forks ino).totalBlockCount
  let gran := 2 ^ granLog2 ino s
  if ino = extentsTreeIno then
    distance < max gran (alignUp (s.fsm.totalBlocks >>> 7) (granLog2 ino s))
  else distance + gran < 2 ^ 64

-- The end of the LEB with the block before `n`, for LEBs of `2 ^ g` blocks.
def lebEnd (g n : Nat) : Nat :=
  (n + 2 ^ g - 1) / 2 ^ g * 2 ^ g

-- The files with the bitmaps of the inode numbers and of the hardlinks.
def bitmapInos : List Nat :=
  [freeInodeBitmapIno, hardlinksAreaIno]

end Emmcfs.Expansion
