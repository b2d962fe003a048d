import EmmcfsModel.Extents.Cover
import EmmcfsModel.Fsm.Theorems.Freed
import EmmcfsModel.Lib.Loop

namespace Emmcfs

-- Assignment to a loff_t.
def s64 (x : Int) : Int :=
  x.bmod (2 ^ 64)

namespace ForkInfo

-- The extent at `i` is set and the fork becomes shorter by `bcnt` blocks.
def shrink (fork : ForkInfo) (usedExtents i : Nat) (e : ExtentInfo) (bcnt : Nat) : ForkInfo where
  totalBlockCount := u32Sub fork.totalBlockCount bcnt
  extents         := fork.extents.setIfInBounds i e
  usedExtents     := usedExtents
  total_lt        := u32_lt _

end ForkInfo

namespace Expansion

-- emmcfs_btree_remove
def exttreeRemove (key : ExttreeKey) : ExpandCode Unit := do
  request
  let s ← Code.get
  if s.exttree.any fun r => exttreeCmpfn r.key key = 0 then
    Code.modify fun s => { s with exttree := s.exttree.eraseP fun r => exttreeCmpfn r.key key = 0 }
  else Code.fail .enoent

section Files

variable (ino : Nat)

-- fork->total_block_count -= bcnt
def shortenTotal (bcnt : Nat) (s : Expansion) : Expansion :=
  { s with forks := fun i => if i = ino then { s.forks ino with
      totalBlockCount := u32Sub (s.forks ino).totalBlockCount bcnt
      total_lt        := u32_lt _ } else s.forks i }

-- One round of the loop of truncate_exttree with the last record of the file.
def truncateRecord (newSize : Nat) (record : ExttreeRecord) : ExpandCode (Option Unit) :=
  match record.lextent with
  -- only the orphan records have no extent
  | none         => Code.halt
  | some lextent =>
    let iblock := record.key.iblock
    let extOff := lextent.firstBlock
    let extLen := lextent.blockCount
    if newSize ≤ iblock then do
      onFsm (fsmPutFreeBlock extOff extLen)
      Code.modify (shortenTotal ino extLen)
      -- what emmcfs_btree_remove returns is not looked at
      Code.onFail (exttreeRemove ⟨ino, iblock⟩) fun _ => pure ()
      pure none
    else if newSize < u64 (iblock + extLen) then do
      let delta := u64Sub (u64 (iblock + extLen)) newSize
      onFsm (fsmPutFreeBlock (u64Sub (u64 (extOff + extLen)) delta) (u32 delta))
      Code.modify fun s => { s with
        exttree := s.exttree.map fun r => if r = record then
          { r with lextent := some (.of extOff (u32Sub extLen delta)) } else r }
      Code.modify (shortenTotal ino delta)
      pure (some ())
    else pure (some ())

-- The loop ends when the search fails, and rc is 0 then.
def truncateRound (newSize : Nat) : ExpandCode (Option Unit) :=
  Code.onFail (do
    let record ← extentFind ino iblockMaxNumber
    pure (some record)) (fun _ => pure none) >>= fun
    | none        => pure (some ())
    | some record =>
      if record.key.objectId ≠ ino then pure (some ()) else truncateRecord ino newSize record

-- truncate_exttree; its loop is `while (true)`, and `rounds` is how often it is followed.
def truncateExttree (rounds newSize : Nat) : ExpandCode Unit := do
  Code.onFail request fun _ => Code.fail .enomem
  Code.loop (truncateRound ino newSize) rounds

-- The loop of truncate_fork from the extent before `i` down. The chunk that is freed is that of the
-- last used extent, and what it is compared with is the extent of the loop.
def truncateExtents (newSize : Int) : (i : Nat) → ExpandCode Unit
  | 0     => pure ()
  | i + 1 => do
    let s ← Code.get
    let fork := s.forks ino
    match fork.extents[fork.usedExtents - 1]?, fork.extents[i]? with
    | some last, some e =>
      if (e.blockCount : Int) ≤ fork.totalBlockCount - newSize then do
        onFsm (fsmPutFreeBlock last.firstBlock last.blockCount)
        setFork ino (fork.shrink (fork.usedExtents - 1) i .zero e.blockCount)
        if (u32Sub fork.totalBlockCount e.blockCount : Int) ≤ newSize then pure ()
        else truncateExtents newSize i
      else do
        let delta := ((fork.totalBlockCount - newSize) % 2 ^ 64).toNat
        onFsm (fsmPutFreeBlock (u64Sub (u64 (last.firstBlock + last.blockCount)) delta) (u32 delta))
        setFork ino (fork.shrink fork.usedExtents i
          (.of e.firstBlock (u32Sub e.blockCount delta)) delta)
    -- there are nine extents
    | _, _ => Code.halt

-- truncate_fork
def truncateFork (newSize : Int) : ExpandCode Unit := do
  let s ← Code.get
  truncateExtents ino newSize (s.forks ino).usedExtents

-- The part of emmcfs_truncate_blocks for a file with more blocks than there are in its fork.
def truncateOverflow (rounds newSize : Nat) : ExpandCode Unit := do
  let s ← Code.get
  let fork := s.forks ino
  if u64 (fork.startOf fork.usedExtents) < fork.totalBlockCount then
    truncateExttree ino rounds newSize
  else pure ()

-- The part of emmcfs_truncate_blocks behind the rounding of the size to blocks.
def truncateTo (rounds : Nat) (newSize : Int) : ExpandCode Unit := do
  let s ← Code.get
  if ((s.forks ino).totalBlockCount : Int) ≤ newSize then pure ()
  else do
    truncateOverflow ino rounds (newSize % 2 ^ 64).toNat
    let s ← Code.get
    if ((s.forks ino).totalBlockCount : Int) ≤ newSize then pure () else truncateFork ino newSize

-- emmcfs_truncate_blocks
def truncateBlocks (blockSize : BlockSize) (rounds : Nat) (mode : BitVec 16) (newSize : Int) :
    ExpandCode Unit := do
  Code.haltOn (ino < firstFileIno)
  if !(sIsReg mode || sIsLnk mode) then Code.fail .eperm
  else truncateTo ino rounds (s64 (newSize + 2 ^ blockSize.shift - 1) >>> blockSize.shift)

end Files

-- A size in blocks, rounded up.
def blocksFor (blockSize : BlockSize) (size : Nat) : Nat :=
  (size + 2 ^ blockSize.shift - 1) / 2 ^ blockSize.shift

-- The requests for the records of a file that end behind the logical block `n`: one for the search
-- of each, and one for the removal of those that do not start before it.
def recordRequests (n : Nat) (records : List ExttreeRecord) : Nat :=
  2 * records.countP (fun r => n ≤ r.key.iblock) +
    records.countP fun r => r.key.iblock < n ∧
      n < r.key.iblock + r.lextent.elim 0 (·.blockCount)

-- A file with more than `n` blocks has been cut there: its blocks from there on are free, each of
-- them once, and the others are where they were.
structure Exact (ino n : Nat) (s s' : Expansion) : Prop where
  total   : (s'.forks ino).totalBlockCount = min (s.forks ino).totalBlockCount n
  freed   : ∃ blocks, List.Forall₂ (s.OldBlock ino)
    (List.range' n ((s.forks ino).totalBlockCount - n)) blocks ∧ s.fsm.Freed blocks s'.fsm
  kept    : ∀ i < min (s.forks ino).totalBlockCount n, ∃ block,
    s.OldBlock ino i block ∧ s'.OldBlock ino i block
  covered : s'.Covered ino

end Expansion

end Emmcfs
