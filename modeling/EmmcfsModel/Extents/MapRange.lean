import EmmcfsModel.Extents.Expand

namespace Emmcfs

-- A struct emmcfs_exttree_record as it is read at some place of a bnode.
structure LextentRecord where
  key     : ExttreeKey
  lextent : ExtentInfo
  deriving DecidableEq, Repr

-- A form of the extents tree, with any contents: the record that emmcfs_btree_find ends at, and the
-- records that there are.
structure ExttreeImage (τ : Type) where
  find     : ExttreeKey → Driver τ LextentRecord
  Has      : τ → LextentRecord → Prop
  find_has : find key t = .ok r t' → Has t r

-- What stands behind the key of an index record is not an extent.
def BtreeRecord.asLextent (behind : Nat → ExtentInfo) (r : BtreeRecord ExttreeKey ExtentInfo) :
    LextentRecord where
  key     := r.key
  lextent := match r.payload with
    | .data lextent => lextent
    | .node id      => behind id

-- What emmcfs_get_block reads of an inode, of the extents tree and of the device, whose size in bytes
-- is a loff_t.
structure MappedFile (τ : Type) where
  ino             : Nat
  fork            : ForkInfo
  exttree         : τ
  deviceSize      : Nat
  blockSizeShift  : Nat
  isMountFinished : Bool
  deviceSize_lt   : deviceSize < 2 ^ 63

abbrev RangeCode (τ α : Type) := Driver (MappedFile τ) α

-- The blocks that a buffer_head is mapped to.
structure MappedRange where
  resBlock : Nat
  length   : Nat
  deriving DecidableEq, Repr

namespace MappedFile

def deviceBlocks (s : MappedFile τ) : Nat :=
  s.deviceSize >>> s.blockSizeShift

-- The loop of emmcfs_find_old_block over the extents that are left: the block and max_blocks.
def findInFork (fork : ForkInfo) (iblock : Nat) : (left : Nat) → Option (Nat × Nat)
  | 0        => none
  | left + 1 =>
    match fork.extents[fork.usedExtents - (left + 1)]? with
    | none   => none
    | some e =>
      if iblock < e.blockCount then some (u64 (e.firstBlock + iblock), e.blockCount - iblock)
      else findInFork fork (iblock - e.blockCount) left

-- The block and max_blocks for a record. The distance is a sector_t.
def inRecord (iblock : Nat) (record : LextentRecord) : Nat × Nat :=
  let distance := u64Sub iblock record.key.iblock
  (u64 (record.lextent.firstBlock + distance), u32 (u64Sub record.lextent.blockCount distance))

variable (tree : ExttreeImage τ)

-- emmcfs_exttree_get_block; none if it returns 0 and leaves max_blocks as it is.
def exttreeGetBlock (iblock : Nat) : RangeCode τ (Option (Nat × Nat)) := do
  let s ← Code.get
  Code.onFail (do
    let record ← Code.zoom (·.exttree) (fun exttree s => { s with exttree })
      (tree.find ⟨s.ino, iblock⟩)
    pure (if record.key.objectId = s.ino then some (inRecord iblock record) else none))
    fun _ => pure none

-- emmcfs_find_old_block
def findOldBlock (iblock : Nat) : RangeCode τ (Option (Nat × Nat)) := do
  let s ← Code.get
  match findInFork s.fork iblock s.fork.usedExtents with
  | some found => pure (some found)
  | none       => exttreeGetBlock tree iblock

-- The part of emmcfs_get_block behind the search for a block. Only the first block is compared with
-- the size of the device.
def mapRange (bufferSize resBlock maxBlocks : Nat) : RangeCode τ (Option MappedRange) := do
  let s ← Code.get
  if s.deviceBlocks < resBlock then
    if s.isMountFinished then Code.halt else Code.fail .efault
  else pure (some ⟨resBlock, min maxBlocks bufferSize⟩)

-- emmcfs_get_block without create; none if it leaves the buffer_head as it is.
def getBlock (iblock bSize : Nat) : RangeCode τ (Option MappedRange) := do
  let s ← Code.get
  if s.fork.totalBlockCount ≤ iblock then pure none
  else do
    match ← findOldBlock tree iblock with
    | none                       => Code.fail .enospc
    | some (resBlock, maxBlocks) =>
      if resBlock = 0 then Code.fail .enospc
      else mapRange (u32 (bSize >>> s.blockSizeShift)) resBlock maxBlocks

-- The extents of a file with the logical blocks that they start at.
inductive HasExtent (s : MappedFile τ) : Nat → ExtentInfo → Prop
  | fork : i < s.fork.usedExtents → s.fork.extents[i]? = some e →
    HasExtent s (s.fork.startOf i) e
  | record : tree.Has s.exttree r → r.key.objectId = s.ino → HasExtent s r.key.iblock r.lextent

end MappedFile

namespace ExtentInfo

-- An extent that starts at a logical block assigns the block `b` to the logical block `i`.
structure Assigns (e : ExtentInfo) (start i b : Nat) : Prop where
  ge    : start ≤ i
  lt    : i < start + e.blockCount
  block : b = e.firstBlock + (i - start)

end ExtentInfo

namespace MappedFile

variable (tree : ExttreeImage τ) (s : MappedFile τ) (iblock : Nat)

-- Each block of a range is assigned by some extent and lies on the device.
def Covered (range : MappedRange) : Prop :=
  ∀ k < range.length, (∃ start e, s.HasExtent tree start e ∧
    e.Assigns start (iblock + k) (range.resBlock + k)) ∧ range.resBlock + k < s.deviceBlocks

-- The extent that the search for a logical block ends at: the one of the fork that has the block, or
-- else that of the record that emmcfs_btree_find ends at.
inductive EndsAt : Nat → ExtentInfo → Prop
  | fork : i < s.fork.usedExtents → s.fork.extents[i]? = some e → s.fork.startOf i ≤ iblock →
    iblock < s.fork.startOf i + e.blockCount → EndsAt (s.fork.startOf i) e
  | record : findInFork s.fork iblock s.fork.usedExtents = none →
    tree.find ⟨s.ino, iblock⟩ s.exttree = .ok r t → r.key.objectId = s.ino →
    EndsAt r.key.iblock r.lextent

-- No other extent of the file assigns a block to the logical block.
def Sole (start : Nat) (e : ExtentInfo) : Prop :=
  ∀ start' e' b, s.HasExtent tree start' e' → e'.Assigns start' iblock b → start' = start ∧ e' = e

-- The extent has the logical block, and what is mapped of it ends on the device.
structure Reaches (bufferSize start : Nat) (e : ExtentInfo) : Prop where
  ge     : start ≤ iblock
  lt     : iblock < start + e.blockCount
  device : e.firstBlock + (iblock - start) + min (start + e.blockCount - iblock) bufferSize ≤
    s.deviceBlocks

end MappedFile

end Emmcfs
