import EmmcfsModel.Btree.Bnode

namespace Emmcfs

-- The shifts of the machine. C says nothing about an amount that is not below the width.
structure Shifts where
  left32       : BitVec 32 → Nat → BitVec 32
  right32      : BitVec 32 → Nat → BitVec 32
  left64       : BitVec 64 → Nat → BitVec 64
  left32_of_lt : n < 32 → left32 x n = x <<< n
  left64_of_lt : n < 64 → left64 x n = x <<< n

-- What emmcfs_super_block says about sizes.
structure SuperBlock where
  logBlockSize  : BitVec 8
  logLebSize    : BitVec 8
  totalLebCount : BitVec 64
  deriving DecidableEq, Repr

-- The size of a block device, which is a loff_t, its smallest block size, and s_blocksize_bits of the
-- superblock on it.
structure BlockDevice where
  size          : Nat
  logicalBits   : Nat
  blocksizeBits : Nat
  size_lt       : size < 2 ^ 63
  logical_le    : logicalBits ≤ blocksizeBits

namespace BlockDevice

-- sb_set_blocksize; it leaves a size as it is that the device cannot have.
def sbSetBlocksize (dev : BlockDevice) (size : Nat) : BlockDevice :=
  if h : 2 ^ pageCacheShift < size ∨ size < 512 ∨ size &&& (size - 1) ≠ 0 ∨ size < 2 ^ dev.logicalBits
  then dev
  else { dev with
    blocksizeBits := size.log2
    logical_le    := (Nat.le_log2 (by omega)).mpr (by omega) }

-- get_dev_blocks_count
def getDevBlocksCount (dev : BlockDevice) : Nat :=
  dev.size >>> dev.blocksizeBits

end BlockDevice

-- The sizes in emmcfs_sb_info.
structure SbInfo where
  blockSize          : BitVec 32
  blockSizeShift     : BitVec 32
  logSectorsPerBlock : BitVec 32
  offsetMskInblock   : BitVec 32
  logBlocksInLeb     : BitVec 32
  btreeNodeSizeBlks  : BitVec 64
  totalLebCount      : BitVec 64
  deriving DecidableEq, Repr

variable (m : Shifts)

-- fill_runtime_superblock. The shifted 1 is an int, block_size an unsigned long and bytes_in_leb an
-- unsigned int. What sb_set_blocksize returns leads to a message only.
def fillRuntimeSuperblock (dev : BlockDevice) (esb : SuperBlock) : Except Errno SbInfo :=
  let blockSize := (m.left32 1 esb.logBlockSize.toNat).signExtend 64
  if blockSize &&& ~~~(512 ||| 1024 ||| 2048 ||| 4096) ≠ 0 then .error .einval
  else
    let dev := dev.sbSetBlocksize (blockSize.setWidth 32).toNat
    let blockSizeShift := esb.logBlockSize.setWidth 32
    let bytesInLeb := m.left32 1 esb.logLebSize.toNat
    if bytesInLeb = 0 ∨ bytesInLeb.toNat < blockSize.toNat then .error .einval
    else
      let logBlocksInLeb := esb.logLebSize.setWidth 32 - esb.logBlockSize.setWidth 32
      let totalBlockCount := m.left64 esb.totalLebCount logBlocksInLeb.toNat
      if dev.getDevBlocksCount < totalBlockCount.toNat ∨ totalBlockCount = 0 then .error .einval
      else .ok {
        blockSize          := blockSize.setWidth 32
        blockSizeShift     := blockSizeShift
        logSectorsPerBlock := blockSizeShift - BitVec.ofNat 32 sectorSizeShift
        offsetMskInblock   := m.right32 0xFFFFFFFF (32 - blockSizeShift).toNat
        logBlocksInLeb     := logBlocksInLeb
        btreeNodeSizeBlks  := (m.left32 1 logBlocksInLeb.toNat).signExtend 64
        totalLebCount      := esb.totalLebCount }

namespace SbInfo

variable (sbi : SbInfo)

-- The sizes of a tree's nodes as fill_btree sets them.
def logPagesPerNode : BitVec 32 :=
  sbi.logBlocksInLeb + sbi.blockSizeShift - BitVec.ofNat 32 pageCacheShift

def pagesPerNode : BitVec 32 :=
  m.left32 1 sbi.logPagesPerNode.toNat

def nodeSizeBytes : BitVec 32 :=
  sbi.pagesPerNode m <<< pageCacheShift

-- What is not free in an empty node.
def emptyNodeUsed : Nat :=
  sizeofNodeDescr + sizeofBtOff + bnodeFirstOffset

-- The blocks of the volume, as a number that does not overflow.
def blockCount : Nat :=
  sbi.totalLebCount.toNat * 2 ^ sbi.logBlocksInLeb.toNat

end SbInfo

namespace SuperBlock

-- What the rest of the driver takes for granted about the sizes of a mounted volume.
structure Sound (dev : BlockDevice) (esb : SuperBlock) (sbi : SbInfo) : Prop where
  shifts     : ∀ n ∈ [esb.logBlockSize.toNat, (32 - sbi.blockSizeShift).toNat,
    esb.logLebSize.toNat, sbi.logBlocksInLeb.toNat, sbi.logPagesPerNode.toNat], n < 32
  block      : sbi.blockSize.toNat ∈ [512, 1024, 2048, 4096]
  sectors    : sectorSizeShift ≤ sbi.blockSizeShift.toNat
  pages      : pageCacheShift ≤ sbi.logBlocksInLeb.toNat + sbi.blockSizeShift.toNat ∧
    1 ≤ (sbi.pagesPerNode m).toNat
  free_space : SbInfo.emptyNodeUsed ≤ (sbi.nodeSizeBytes m).toNat ∧
    (sbi.nodeSizeBytes m).toNat - SbInfo.emptyNodeUsed < 2 ^ 16
  count_pos  : 0 < sbi.blockCount
  count_le   : sbi.blockCount ≤ dev.size / sbi.blockSize.toNat

structure InRange (esb : SuperBlock) : Prop where
  block_lt : esb.logBlockSize.toNat < 32
  leb_ge   : 12 ≤ esb.logLebSize.toNat
  leb_le   : esb.logLebSize.toNat ≤ 16
  count_lt : esb.totalLebCount.toNat *
    2 ^ (esb.logLebSize.toNat - esb.logBlockSize.toNat) < 2 ^ 64

end SuperBlock

end Emmcfs
