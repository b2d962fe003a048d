import Mathlib.Data.Finset.Erase
import EmmcfsModel.Extents.Tree
import EmmcfsModel.Fsm.Space
import EmmcfsModel.Lib.Loop

namespace Emmcfs

-- EMMCFS_ORPHAN_INODES_INO
def orphanInodesIno : Nat := 8

-- What a volume has for the blocks of its files: the free space manager, the extents tree and the
-- inode numbers whose bit is set.
structure FileVolume (τ : Type) where
  fsm         : FsmInfo
  exttree     : τ
  inodeBitmap : Finset Nat

-- A call while it runs, with the volume as it was whenever a transaction was closed, the last time
-- first.
structure Deletion (τ : Type) where
  volume     : FileVolume τ
  boundaries : List (FileVolume τ)

abbrev DeletionCode (τ α : Type) := Driver (Deletion τ) α

namespace Deletion

def onFsm (m : Driver FsmInfo α) : DeletionCode τ α :=
  Code.zoom (·.volume.fsm) (fun fsm s => { s with volume.fsm := fsm }) m

def onExttree (m : Driver τ α) : DeletionCode τ α :=
  Code.zoom (·.volume.exttree) (fun exttree s => { s with volume.exttree := exttree }) m

def stopTransaction : DeletionCode τ Unit :=
  Code.modify fun s => { s with boundaries := s.volume :: s.boundaries }

def transaction (m : DeletionCode τ α) : DeletionCode τ α :=
  Code.onFail (do let a ← m; stopTransaction; pure a) fun e => do
    stopTransaction
    Code.fail e

-- emmcfs_free_inode_n
def freeInodeN (ino : Nat) : DeletionCode τ Unit := do
  let s ← Code.get
  Code.haltOn (ino ∉ s.volume.inodeBitmap)
  Code.modify fun s => { s with volume.inodeBitmap := s.volume.inodeBitmap.erase ino }

variable (ops : ExttreeOps τ)

def addOrphanInode (ino : Nat) : DeletionCode τ Unit :=
  onExttree (ops.insert ⟨⟨orphanInodesIno, ino⟩, none⟩)

-- The loop of emmcfs_fsm_free_runtime_fork, from the last used extent down, with the
-- total_block_count that is left.
def freeForkExtents (fork : ForkInfo) : (usedExtents totalBlockCount : Nat) → DeletionCode τ Nat
  | 0, total               => pure total
  | usedExtents + 1, total =>
    if total = 0 then pure total
    else
      match fork.extents[usedExtents]? with
      | none   => Code.halt
      | some e =>
        if e.blockCount = 0 then freeForkExtents fork usedExtents total
        else do
          onFsm (fsmPutFreeBlock e.firstBlock e.blockCount)
          freeForkExtents fork usedExtents (u32Sub total e.blockCount)

-- The result is the total_block_count that the fork is left with.
def fsmFreeRuntimeFork (ino : Nat) (fork : ForkInfo) : DeletionCode τ Nat := do
  let total ← freeForkExtents fork fork.usedExtents fork.totalBlockCount
  if total ≠ 0 then addOrphanInode ops ino else freeInodeN ino
  pure total

-- One round of the loop of emmcfs_fsm_free_exttree: an extent goes, or if there is none left the
-- orphan record.
def freeExttreeRound (ino : Nat) : DeletionCode τ (Option Unit) := transaction do
  let record ← onExttree (ops.find ⟨ino, iblockDoesNotMatter⟩)
  if record.key.objectId ≠ ino then
    onExttree (ops.remove ⟨orphanInodesIno, ino⟩)
    freeInodeN ino
    pure (some ())
  else
    match record.lextent with
    | none         => Code.halt
    | some lextent =>
      onExttree (ops.remove ⟨ino, record.key.iblock⟩)
      onFsm (fsmFreeExttreeExtent lextent.firstBlock lextent.blockCount)
      pure none

-- The loops are `while (true)`; `rounds` is how often they are followed.
def fsmFreeExttree (rounds ino : Nat) : DeletionCode τ Unit :=
  Code.loop (freeExttreeRound ops ino) rounds

def processOrphanRound (rounds : Nat) : DeletionCode τ (Option Unit) := do
  let record ← onExttree (ops.find ⟨orphanInodesIno, iblockDoesNotMatter⟩)
  if record.key.objectId ≠ orphanInodesIno then pure (some ())
  else
    fsmFreeExttree ops rounds record.key.iblock
    pure none

def processOrphanInodes (rounds : Nat) : DeletionCode τ Unit :=
  Code.loop (processOrphanRound ops rounds) rounds

-- The end of emmcfs_unlink, from where the link count of a regular file is 0. What has happened to
-- its name in the first transaction is left out.
def deleteFile (rounds ino : Nat) (fork : ForkInfo) : DeletionCode τ Unit := do
  let total ← transaction (fsmFreeRuntimeFork ops ino fork)
  if total ≠ 0 then Code.onFail (fsmFreeExttree ops rounds ino) fun _ => Code.halt else pure ()

-- What emmcfs_fill_super does about the blocks of files: the tree of free chunks is built anew, and
-- the orphans are processed.
def mount (rounds : Nat) : DeletionCode τ Unit := do
  onFsm do
    Code.modify fun fsm => { fsm with tree.root := none, isMountFinished := false }
    fsmGetTree
  processOrphanInodes ops rounds

end Deletion

end Emmcfs
