import Mathlib.Algebra.BigOperators.Group.Finset.Basic
import EmmcfsModel.Deletion.Basic
import EmmcfsModel.Fsm.Theorems.Space

namespace Emmcfs

def ExtentInfo.blocks (e : ExtentInfo) : Finset Nat :=
  Finset.Ico e.firstBlock (e.firstBlock + e.blockCount)

-- What emmcfs_fsm_free_block_chunk can free on a volume with a bitmap of `bytes` bytes in `pages`
-- pages: the block behind the extent has to be on one of the pages too.
structure ExtentInfo.Within (e : ExtentInfo) (bytes pages : Nat) : Prop where
  first_pos : 0 < e.firstBlock
  count_pos : 0 < e.blockCount
  inside    : e.firstBlock + e.blockCount ≤ 8 * bytes
  page      : (e.firstBlock + e.blockCount) >>> (pageCacheShift + 3) < pages

namespace ExttreeRecord

variable (r : ExttreeRecord)

def blocks : Finset Nat :=
  r.lextent.elim ∅ ExtentInfo.blocks

def blockCount : Nat :=
  r.lextent.elim 0 ExtentInfo.blockCount

-- A record for blocks of a file. Below EMMCFS_ORPHAN_INODES_INO there can be records of the file
-- system's own files.
def IsExtent : Prop :=
  orphanInodesIno < r.key.objectId

end ExttreeRecord

-- What is on a volume: the free blocks, the records of the extents tree and the inode numbers that
-- are in use.
@[ext]
structure Contents where
  free    : Finset Nat
  records : Finset ExttreeRecord
  numbers : Finset Nat

namespace Contents

variable (c : Contents)

def recordsOf (ino : Nat) : Finset ExttreeRecord :=
  c.records.filter (·.key.objectId = ino)

def blocksOf (ino : Nat) : Finset Nat :=
  (c.recordsOf ino).biUnion ExttreeRecord.blocks

def orphans : Finset Nat :=
  (c.recordsOf orphanInodesIno).image (·.key.iblock)

-- The blocks of a record become free and it goes.
def freed (r : ExttreeRecord) : Contents :=
  { c with free := r.blocks ∪ c.free, records := c.records.erase r }

-- An inode goes, with its blocks, its records and its orphan record.
def dropped (ino : Nat) : Contents where
  free    := c.blocksOf ino ∪ c.free
  records := c.records.filter fun r => r.key.objectId ≠ ino ∧ r.key ≠ ⟨orphanInodesIno, ino⟩
  numbers := c.numbers.erase ino

-- All orphans go.
def cleared : Contents where
  free    := c.orphans.biUnion c.blocksOf ∪ c.free
  records := c.records.filter fun r =>
    r.key.objectId ≠ orphanInodesIno ∧ r.key.objectId ∉ c.orphans
  numbers := c.numbers \ c.orphans

-- A volume on which extents can be freed and orphans processed. The tree is never left without a
-- record, and a new orphan record is never the first one, since there is one below all of these.
structure Recoverable (bytes pages : Nat) : Prop where
  low      : ∃ r ∈ c.records, r.key.objectId < orphanInodesIno
  keys     : ∀ r ∈ c.records, ∀ q ∈ c.records, r.key = q.key → r = q
  extents  : ∀ r ∈ c.records, r.IsExtent → r.key.iblock ≠ iblockDoesNotMatter ∧
    ∃ e, r.lextent = some e ∧ e.Within bytes pages
  used     : ∀ r ∈ c.records, r.IsExtent → Disjoint r.blocks c.free
  disjoint : ∀ r ∈ c.records, ∀ q ∈ c.records, r.IsExtent → q.IsExtent → r ≠ q →
    Disjoint r.blocks q.blocks
  orphans  : ∀ ino ∈ c.orphans,
    orphanInodesIno < ino ∧ ino ≠ iblockDoesNotMatter ∧ ino ∈ c.numbers

end Contents

namespace ForkInfo

variable (fork : ForkInfo)

-- The blocks of the first extents of a fork, and how many they are.
def blocksBelow : Nat → Finset Nat
  | 0     => ∅
  | n + 1 => fork.extents[n]?.elim ∅ ExtentInfo.blocks ∪ blocksBelow n

def countBelow : Nat → Nat
  | 0     => 0
  | n + 1 => fork.extents[n]?.elim 0 ExtentInfo.blockCount + countBelow n

def blocks : Finset Nat :=
  fork.blocksBelow fork.usedExtents

end ForkInfo

namespace Contents

variable (c : Contents) (ino : Nat) (fork : ForkInfo)

-- A file on the volume whose extents in the fork and in the extents tree make up its blocks.
structure Owns (bytes pages : Nat) : Prop where
  file     : orphanInodesIno < ino
  wildcard : ino ≠ iblockDoesNotMatter
  number   : ino ∈ c.numbers
  live     : ino ∉ c.orphans
  in_fork  : fork.usedExtents ≤ extentsCountInFork
  extents  : ∀ i < fork.usedExtents, ∀ e, fork.extents[i]? = some e → e.blockCount ≠ 0 →
    e.Within bytes pages
  used     : Disjoint fork.blocks c.free
  disjoint : ∀ i < fork.usedExtents, ∀ e, fork.extents[i]? = some e →
    Disjoint e.blocks (fork.blocksBelow i)
  apart    : ∀ r ∈ c.records, r.IsExtent → Disjoint r.blocks fork.blocks
  total    : fork.totalBlockCount =
    fork.countBelow fork.usedExtents + (c.recordsOf ino).sum ExttreeRecord.blockCount

-- The first transaction of a deletion frees the extents in the fork, and if there are others it
-- makes the inode an orphan.
def released : Contents :=
  { c with free := fork.blocks ∪ c.free }

def orphaned : Contents :=
  { c with records := insert ⟨⟨orphanInodesIno, ino⟩, none⟩ c.records }

-- What is on the volume when the file is gone.
def deleted : Contents :=
  (c.released fork).dropped ino

end Contents

-- What the operations do with trees that `valid` says are in order, as far as it is used here. The
-- insertion of a record that is not above some other one is left out, and so is the removal of the
-- last record.
structure ExttreeOps.Serves (ops : ExttreeOps τ) (valid : τ → Prop)
    (view : τ → Finset ExttreeRecord) : Prop where
  find   : valid t → (view t).Nonempty → (ops.find key).wp
    (fun r t' => t' = t ∧ r ∈ view t ∧
      ((∃ q ∈ view t, exttreeCmpfn q.key key = 0) → exttreeCmpfn r.key key = 0))
    (fun _ _ => False) False t
  insert : valid t → (∃ q ∈ view t, exttreeCmpfn q.key r.key < 0) →
    (∀ q ∈ view t, exttreeCmpfn q.key r.key ≠ 0) → (ops.insert r).wp
    (fun _ t' => valid t' ∧ view t' = Insert.insert r (view t)) (fun _ _ => False) False t
  remove : valid t → r ∈ view t → (∀ q ∈ view t, exttreeCmpfn q.key key = 0 ↔ q = r) →
    (∃ q ∈ view t, q ≠ r) → (ops.remove key).wp
    (fun _ t' => valid t' ∧ view t' = (view t).erase r) (fun _ _ => False) False t

section Has

variable (valid : τ → Prop) (view : τ → Finset ExttreeRecord) (bytes pages : Nat)

structure FileVolume.Has (v : FileVolume τ) (c : Contents) : Prop where
  space   : v.fsm.Manages c.free
  zero    : testBit v.fsm.data 0
  bytes   : v.fsm.lengthInBytes = bytes
  pages   : v.fsm.pageCount = pages
  valid   : valid v.exttree
  records : view v.exttree = c.records
  numbers : v.inodeBitmap = c.numbers

-- If the orphans of the volume are processed then `c` is on it.
def FileVolume.Recovers (v : FileVolume τ) (c : Contents) : Prop :=
  ∃ c', v.Has valid view bytes pages c' ∧ c'.Recoverable bytes pages ∧ c'.cleared = c

-- A call that has come to the contents `c`, where `d` is what recovery leads to from all
-- transaction boundaries.
structure Deletion.At (s : Deletion τ) (c d : Contents) : Prop where
  volume     : s.volume.Has valid view bytes pages c
  boundaries : ∀ b ∈ s.boundaries, b.Recovers valid view bytes pages d

end Has

end Emmcfs
