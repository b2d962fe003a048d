import EmmcfsModel.Btree.Btree
import EmmcfsModel.Inode.Basic

namespace Emmcfs

-- IBLOCK_DOES_NOT_MATTER and IBLOCK_MAX_NUMBER
def iblockDoesNotMatter : Nat := 0xFFFFFFFF
def iblockMaxNumber : Nat := 0xFFFFFFFE

structure ExttreeKey where
  objectId : Nat
  iblock   : Nat
  deriving DecidableEq, Repr

-- A record of the extents tree. An orphan record is only a key.
structure ExttreeRecord where
  key     : ExttreeKey
  lextent : Option ExtentInfo
  deriving DecidableEq, Repr

def cmp2Le64 (a b : Nat) : Int :=
  if a = b then 0 else if b < a then 1 else -1

-- emmcfs_exttree_cmpfn: IBLOCK_DOES_NOT_MATTER in the second key stands for any block.
def exttreeCmpfn (key₁ key₂ : ExttreeKey) : Int :=
  if key₁.objectId ≠ key₂.objectId ∨ key₂.iblock = iblockDoesNotMatter then
    cmp2Le64 key₁.objectId key₂.objectId
  else cmp2Le64 key₁.iblock key₂.iblock

-- sizeof(struct emmcfs_exttree_key) and sizeof(struct emmcfs_exttree_record)
def sizeofExttreeKey : Nat := 28
def sizeofExttreeRecord : Nat := 40

-- emmcfs_fill_ext_tree, with nodes of one page.
def extTree (isMountFinished : Bool) : BtreeOps ExttreeKey where
  compFn          := exttreeCmpfn
  keyLen _        := sizeofExttreeKey
  nodeSizeBytes   := 4096
  maxRecordLen    := sizeofExttreeKey + sizeofExttreeRecord
  bitsNum         := 8 * (4096 - sizeofBtreeHead - bnodeFirstOffset)
  isMountFinished := isMountFinished
  node_size_ge    := pageNode_size_ge
  node_size_le    := pageNode_size_le
  record_len_le   := by decide

-- The value of a leaf record; an index record has none.
def BtreeRecord.lextent (r : BtreeRecord κ (Option ExtentInfo)) : Option ExtentInfo :=
  match r.payload with
  | .data lextent => lextent
  | .node _       => none

-- The record of an extent of one block, and an index record.
def leafRecord (key : ExttreeKey) (firstBlock : Nat) : BtreeRecord ExttreeKey (Option ExtentInfo) :=
  ⟨key, sizeofExttreeRecord, .data (some (.of firstBlock 1))⟩

def nodeRecord (key : ExttreeKey) (id : Nat) : BtreeRecord ExttreeKey (Option ExtentInfo) :=
  ⟨key, sizeofExttreeKey + sizeofIndexValue, .node id⟩

-- What other functions use of the extents tree `τ`: the record that emmcfs_btree_find ends at,
-- emmcfs_btree_insert and emmcfs_btree_remove.
structure ExttreeOps (τ : Type) where
  find   : ExttreeKey → Driver τ ExttreeRecord
  insert : ExttreeRecord → Driver τ Unit
  remove : ExttreeKey → Driver τ Unit

def btreeExttree (tree : BtreeOps ExttreeKey) :
    ExttreeOps (Btree ExttreeKey (Option ExtentInfo)) where
  find key := do
    let (id, pos) ← emmcfsBtreeFind tree key
    let b ← bnodeAt id
    let r ← getRecord b pos
    pure ⟨r.key, r.lextent⟩
  insert r := emmcfsBtreeInsert tree
    ⟨r.key, if r.lextent.isSome then sizeofExttreeRecord else sizeofExttreeKey, .data r.lextent⟩
  remove key := emmcfsBtreeRemove tree key

end Emmcfs
