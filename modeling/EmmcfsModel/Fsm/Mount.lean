import EmmcfsModel.Fsm.Theorems.Agreement

namespace Emmcfs

-- The fields of the superblock that tell where the bitmap of the blocks ends and how large the volume
-- is. The number of bitmap blocks and of bits in the last one are read from 32-bit fields.
structure BitmapInfo where
  blockSize             : BlockSize
  lebsBmBlocksCount     : Nat
  lebsBmBitsInLastBlock : Nat
  totalLebCount         : Nat
  logBlocksInLeb        : Nat

namespace BitmapInfo

variable (sb : BitmapInfo)

-- (lebs_bm_blocks_count << block_size_shift) in whole pages
def pageCount : Nat :=
  u32 (u64 (sb.lebsBmBlocksCount <<< sb.blockSize.shift + (1 <<< pageCacheShift - 1)) >>>
    pageCacheShift)

def lengthInBytes : Nat :=
  u32 (u64 (u64 (u64Sub sb.lebsBmBlocksCount 1 * 2 ^ sb.blockSize.shift) +
    u32 (sb.lebsBmBitsInLastBlock + 7) >>> 3))

-- The number of the blocks that the bitmap describes.
def describedBlocks : Nat :=
  (sb.lebsBmBlocksCount - 1) * 2 ^ sb.blockSize.shift * 8 + sb.lebsBmBitsInLastBlock

-- The bits behind those of the blocks, up to the end of the last byte, are set.
def Padded (data : Nat → BitVec 32) : Prop :=
  ∀ x, sb.describedBlocks ≤ x → x < 8 * sb.lengthInBytes → testBit data x

end BitmapInfo

-- The manager before the tree is built.
def BitmapInfo.fsmInfo (sb : BitmapInfo) (data : Nat → BitVec 32) : FsmInfo where
  tree            := ⟨32, fsmBtreeOrder_ge, none⟩
  data            := data
  lengthInBytes   := sb.lengthInBytes
  pageCount       := sb.pageCount
  freeBlocksCount := 0
  totalLebCount   := sb.totalLebCount
  logBlocksInLeb  := sb.logBlocksInLeb
  isMountFinished := false

-- emmcfs_fsm_build_management: the pages of the bitmap are read and the tree is built from them,
-- whatever fsm_get_tree returns. The memory and the pages are assumed to be there.
def fsmBuildManagement (sb : BitmapInfo) (data : Nat → BitVec 32) : Outcome Errno FsmInfo Unit :=
  Code.onFail fsmGetTree (fun _ => pure ()) (sb.fsmInfo data)

-- The blocks that a call frees are among the first `n` ones.
def SpaceCall.FreesBelow (n : Nat) : SpaceCall → Prop
  | getFreeBlock ..                 => True
  | putFreeBlock blockOffset length => blockOffset + length ≤ n
  | freeExttreeExtent offset length => offset + length ≤ n

-- Calls of the manager that only free blocks of the volume.
def FsmInfo.StepBelow (n : Nat) (fsm : FsmInfo) (call : SpaceCall) (fsm' : FsmInfo) : Prop :=
  fsm.Step call fsm' ∧ call.FreesBelow n

-- All blocks that are handed out are among the first `n` ones.
def FsmInfo.AllocatesBelow (n : Nat) (fsm : FsmInfo) : Prop :=
  ∀ calls fsm', Run (StepBelow n) fsm calls fsm' → ∀ blockOffset length result,
    .getFreeBlock blockOffset length result ∈ calls → result ≠ 0 → result + length ≤ n

end Emmcfs
