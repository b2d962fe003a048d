import EmmcfsModel.Extents.Tree
import EmmcfsModel.Fsm.Space

namespace Emmcfs

-- EMMCFS_CAT_TREE_INO, EMMCFS_EXTENTS_TREE_INO, EMMCFS_FREE_INODE_BITMAP_INO and
-- EMMCFS_HARDLINKS_AREA_INO
def catTreeIno : Nat := 2
def extentsTreeIno : Nat := 4
def freeInodeBitmapIno : Nat := 6
def hardlinksAreaIno : Nat := 7

-- The forks of the files by their inode numbers, the free space manager with its first block that can
-- be given to a file, and the records of the extents tree. The requests of the extents tree for
-- memory and nodes end as the outcomes say, one after the other; when there are no more entries they
-- succeed.
structure Expansion where
  forks          : Nat → ForkInfo
  fsm            : FsmInfo
  freeSpaceStart : Nat
  exttree        : List ExttreeRecord
  outcomes       : List (Option Errno)

abbrev ExpandCode (α : Type) := Driver Expansion α

namespace ForkInfo

-- The extent at `i` is set and the fork becomes longer by `bcnt` blocks.
def expand (fork : ForkInfo) (usedExtents i : Nat) (e : ExtentInfo) (bcnt : Nat) : ForkInfo where
  totalBlockCount := u32 (fork.totalBlockCount + bcnt)
  extents         := fork.extents.setIfInBounds i e
  usedExtents     := usedExtents
  total_lt        := u32_lt _

end ForkInfo

namespace Expansion

def request : ExpandCode Unit := do
  let s ← Code.get
  match s.outcomes with
  | []            => pure ()
  | o :: outcomes => do
    Code.modify fun s => { s with outcomes }
    o.elim (pure ()) Code.fail

def onFsm (m : Driver FsmInfo α) : ExpandCode α :=
  Code.zoom (·.fsm) (fun fsm s => { s with fsm }) m

def setFork (ino : Nat) (fork : ForkInfo) : ExpandCode Unit :=
  Code.modify fun s => { s with forks := fun i => if i = ino then fork else s.forks i }

section Files

variable (ino : Nat)

-- expand_fork; the blocks that it gets come back as the result.
def expandFork (bcnt : Nat) : ExpandCode Nat := do
  let s ← Code.get
  let fork := s.forks ino
  if fork.totalBlockCount = 0 ∧ fork.usedExtents = 0 then
    if s.fsm.pageCount ≤ u64 (s.freeSpaceStart + bcnt) >>> (pageCacheShift + 3) then
      Code.fail .enospc
    else do
      let result ← onFsm (fsmGetFreeBlock s.freeSpaceStart (u32 bcnt))
      if result = 0 then Code.fail .enospc
      else do
        setFork ino (fork.expand 1 0 (.of result bcnt) bcnt)
        pure result
  else
    match fork.usedExtents, fork.extents[fork.usedExtents - 1]? with
    | used + 1, some last =>
      let offset := u64 (last.firstBlock + last.blockCount)
      if s.fsm.totalBlocks ≤ u64 (offset + bcnt) then Code.fail .enospc
      else if s.fsm.pageCount ≤ u64 (offset + bcnt) >>> (pageCacheShift + 3) then
        Code.fail .enospc
      else do
        let result ← onFsm (fsmGetFreeBlock offset (u32 bcnt))
        if result = 0 then Code.fail .enospc
        else if result = offset then do
          setFork ino (fork.expand (used + 1) used
            (.of last.firstBlock (last.blockCount + bcnt)) bcnt)
          pure result
        else if extentsCountInFork ≤ used + 1 then do
          Code.onFail (onFsm (fsmPutFreeBlock result (u32 bcnt))) fun _ => Code.halt
          Code.fail .eperm
        else do
          setFork ino (fork.expand (used + 2) (used + 1) (.of result bcnt) bcnt)
          pure result
    -- a fork that has blocks has an extent
    | _, _ => Code.halt

-- The record that emmcfs_btree_find ends at: the last one that is not above the key.
def extentFind (iblock : Nat) : ExpandCode ExttreeRecord := do
  request
  let s ← Code.get
  match (s.exttree.filter fun r => exttreeCmpfn r.key ⟨ino, iblock⟩ ≤ 0).getLast?, s.exttree with
  | some r, _    => pure r
  | none, r :: _ => pure r
  | none, []     => Code.fail .enoent

-- emmcfs_exttree_add; emmcfs_btree_insert puts the record before the first one above it.
def exttreeAdd (iblock startBlock blockCount : Nat) : ExpandCode Unit := do
  request
  let key : ExttreeKey := ⟨ino, iblock⟩
  let s ← Code.get
  if s.exttree.any fun r => exttreeCmpfn r.key key = 0 then Code.fail .eexist
  else do
    request
    Code.modify fun s => { s with
      exttree := (s.exttree.takeWhile fun r => exttreeCmpfn r.key key < 0) ++
        ⟨key, some (.of startBlock blockCount)⟩ ::
        s.exttree.dropWhile fun r => exttreeCmpfn r.key key < 0 }

-- emmcfs_exttree_add_block with the record that it found; 0 if there is no block.
def exttreeAddAfter (iblock cnt : Nat) (record : ExttreeRecord) : ExpandCode Nat := do
  let s ← Code.get
  if record.key.objectId = ino then
    match record.lextent with
    -- only the orphan records have no extent
    | none         => Code.halt
    | some lextent => do
      let nextBlockAfter := u64 (lextent.firstBlock + lextent.blockCount)
      let rc ← onFsm (fsmGetFreeBlock nextBlockAfter cnt)
      if rc = 0 then pure 0
      else if rc = nextBlockAfter then do
        Code.modify fun s => { s with
          exttree := s.exttree.map fun r => if r = record then
            { r with lextent := some (.of lextent.firstBlock (lextent.blockCount + cnt)) } else r }
        pure rc
      else Code.onFail (do exttreeAdd ino iblock rc cnt; pure rc) fun _ => pure 0
  else do
    let rc ← onFsm (fsmGetFreeBlock s.freeSpaceStart cnt)
    if rc = 0 then pure 0
    else Code.onFail (do exttreeAdd ino iblock rc cnt; pure rc) fun _ => pure 0

-- The count is an int that is used as a __u32.
def exttreeAddBlock (iblock cnt : Nat) : ExpandCode Nat :=
  Code.onFail (do
    let record ← extentFind ino iblock
    pure (some record)) (fun _ => pure none) >>= fun
    | none        => pure 0
    | some record => exttreeAddAfter ino iblock (u32 cnt) record

-- The part of find_new_block behind the fork.
def addOverflow (blkCnt : Nat) : ExpandCode Nat := do
  let s ← Code.get
  let fork := s.forks ino
  Code.haltOn (ino = extentsTreeIno)
  let rc ← exttreeAddBlock ino fork.totalBlockCount blkCnt
  if rc = 0 then pure 0
  else do
    setFork ino { fork with
      totalBlockCount := u32 (fork.totalBlockCount + blkCnt)
      total_lt        := u32_lt _ }
    pure rc

-- find_new_block; 0 if there is no block.
def findNewBlock (iblock blkCnt : Nat) : ExpandCode Nat := do
  let s ← Code.get
  let fork := s.forks ino
  let rc ←
    if fork.usedExtents < extentsCountInFork then
      Code.onFail (expandFork ino blkCnt) fun _ => pure 0
    else if (fork.extents.toList.map (·.blockCount)).sum = fork.totalBlockCount then
      Code.onFail (expandFork ino blkCnt) fun e =>
        if e = .eperm then addOverflow ino blkCnt else pure 0
    else addOverflow ino blkCnt
  if rc = 0 then pure 0 else pure (u64 (rc + u64Sub iblock fork.totalBlockCount))

-- align_up
def alignUp (val granLog2 : Nat) : Nat :=
  let n := u64 (val + 2 ^ granLog2 - 1)
  n - n % 2 ^ granLog2

-- The requests of expand_file, each about half as large as the one before. A sector_t can be halved
-- 64 times.
def expandLoop (iblock expandMin granLog2 : Nat) : (turns expandReq : Nat) → ExpandCode Nat
  | 0, _             => Code.fail .enospc
  | turns + 1, expandReq =>
    if expandMin ≤ expandReq then do
      let resBlock ← findNewBlock ino iblock expandReq
      if resBlock ≠ 0 then pure resBlock
      else if expandReq >>> 1 < 2 ^ granLog2 then Code.fail .enospc
      else expandLoop iblock expandMin granLog2 turns (alignUp (expandReq >>> 1) granLog2)
    else Code.fail .enospc

-- expand_file
def expandFile (iblock : Nat) : ExpandCode Nat := do
  let s ← Code.get
  let granLog2 := if ino < firstFileIno then s.fsm.logBlocksInLeb else 0
  let step := s.fsm.totalBlocks >>> 7
  let expandMin := if ino = extentsTreeIno then step
    else u64 (u64Sub iblock (s.forks ino).totalBlockCount + 1)
  let expandReq := if ino = catTreeIno then step else 1
  let expandMin := alignUp expandMin granLog2
  let expandReq := alignUp (max expandReq expandMin) granLog2
  if s.fsm.freeBlocksCount < expandMin then Code.fail .enospc
  else expandLoop ino iblock expandMin granLog2 65 expandReq

-- The loop of emmcfs_find_old_block over the extents that are left.
def findInFork (fork : ForkInfo) (iblock : Nat) : (left : Nat) → Option Nat
  | 0        => none
  | left + 1 =>
    match fork.extents[fork.usedExtents - (left + 1)]? with
    | none   => none
    | some e =>
      if iblock < e.blockCount then some (u64 (e.firstBlock + iblock))
      else findInFork fork (iblock - e.blockCount) left

-- emmcfs_exttree_get_block; the 0 that it returns without a record is none.
def exttreeGetBlock (iblock : Nat) : ExpandCode (Option Nat) :=
  Code.onFail (do
    let record ← extentFind ino iblock
    if record.key.objectId = ino then
      pure (record.lextent.map fun lextent =>
        u64 (lextent.firstBlock + u64Sub iblock record.key.iblock))
    else pure none) fun _ => pure none

-- emmcfs_find_old_block
def findOldBlock (iblock : Nat) : ExpandCode (Option Nat) := do
  let s ← Code.get
  match findInFork (s.forks ino) iblock (s.forks ino).usedExtents with
  | some block => pure (some block)
  | none       => exttreeGetBlock ino iblock

end Files

-- The files with the trees, the bitmap of the inode numbers and the hardlinks.
def treeInos : List Nat :=
  [catTreeIno, extentsTreeIno, freeInodeBitmapIno, hardlinksAreaIno]

-- One of them is expanded, with success or not. In between the free space and the records of other
-- files can change.
inductive Step : Expansion → Unit → Expansion → Prop
  | expand : ino ∈ treeInos → expandFile ino iblock s = .ok block s' → Step s () s'
  | expandError : ino ∈ treeInos → expandFile ino iblock s = .fail errno s' → Step s () s'
  | other : (∀ ino ∈ treeInos, s'.forks ino = s.forks ino) →
    s'.fsm.logBlocksInLeb = s.fsm.logBlocksInLeb →
    (∀ r ∈ s'.exttree, r.key.objectId ∈ treeInos → r ∈ s.exttree) → Step s () s'

end Expansion

-- The logical block at which an extent of a fork starts.
def ForkInfo.startOf (fork : ForkInfo) (i : Nat) : Nat :=
  ((fork.extents.toList.take i).map (·.blockCount)).sum

namespace Expansion

-- EMMCFS_BLOCKS_IN_LEB
def blocksInLeb (s : Expansion) : Nat :=
  2 ^ s.fsm.logBlocksInLeb

-- What mkfs is assumed to write: the files lie in their forks, in extents of whole LEBs. The number
-- of blocks in a LEB is an int.
structure Formatted (s : Expansion) : Prop where
  log     : s.fsm.logBlocksInLeb < 31
  used    : ∀ ino ∈ treeInos, (s.forks ino).usedExtents ≤ extentsCountInFork
  total   : ∀ ino ∈ treeInos,
    (s.forks ino).totalBlockCount = (s.forks ino).startOf (s.forks ino).usedExtents
  extents : ∀ ino ∈ treeInos, ∀ i < (s.forks ino).usedExtents, ∀ e ∈ (s.forks ino).extents[i]?,
    s.blocksInLeb ∣ e.blockCount
  records : ∀ r ∈ s.exttree, r.key.objectId ∉ treeInos

-- All extents of a file start at whole LEBs and have such lengths.
structure WholeLebs (ino : Nat) (s : Expansion) : Prop where
  extents : ∀ i < (s.forks ino).usedExtents, ∀ e ∈ (s.forks ino).extents[i]?,
    s.blocksInLeb ∣ (s.forks ino).startOf i ∧ s.blocksInLeb ∣ e.blockCount
  records : ∀ r ∈ s.exttree, r.key.objectId = ino →
    s.blocksInLeb ∣ r.key.iblock ∧ ∀ e ∈ r.lextent, s.blocksInLeb ∣ e.blockCount

-- The blocks of a node are mapped together, one behind the other. Those in the extents of the fork
-- are mapped.
def Contiguous (ino node : Nat) (s : Expansion) : Prop :=
  ∃ block : Option Nat,
    (∀ i < s.blocksInLeb, findOldBlock ino (node * s.blocksInLeb + i) s =
      .ok (block.map fun b => u64 (b + i)) s) ∧
    (node * s.blocksInLeb < (s.forks ino).startOf (s.forks ino).usedExtents → block.isSome)

end Expansion

end Emmcfs
