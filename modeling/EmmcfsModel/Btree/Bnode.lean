import EmmcfsModel.Basic
import EmmcfsModel.Lib.Table
import EmmcfsModel.Lib.Bitmap

namespace Emmcfs

-- sizeof(struct emmcfs_gen_node_descr), EMMCFS_BNODE_FIRST_OFFSET, sizeof(emmcfs_bt_off_t) and
-- sizeof(struct generic_index_value)
def sizeofNodeDescr : Nat := 19
def bnodeFirstOffset : Nat := 4
def sizeofBtOff : Nat := 4
def sizeofIndexValue : Nat := 4

-- The part of struct emmcfs_raw_btree_head before the bitmap.
def sizeofBtreeHead : Nat := 12

-- Assignment to a __le16.
def u16 (n : Nat) : Nat := n % 2 ^ 16

-- enum emmcfs_node_type
inductive NodeType
  | index | leaf
  deriving DecidableEq, Repr

-- What stands behind the key of a record: the data of a leaf record, or the generic_index_value of
-- an index record.
inductive Payload (ν : Type)
  | data (v : ν)
  | node (id : Nat)
  deriving DecidableEq, Repr

structure BtreeRecord (κ ν : Type) where
  key       : κ
  recordLen : Nat
  payload   : Payload ν
  deriving DecidableEq, Repr

-- A bnode by the order of its offset table. Where the records lie in the node is left out, they
-- fill it from the start without gaps.
structure Bnode (κ ν : Type) where
  type       : NodeType
  recs       : List (BtreeRecord κ ν)
  freeSpace  : Nat
  prevNodeId : Nat
  nextNodeId : Nat
  deriving DecidableEq, Repr

instance : Inhabited (Bnode κ ν) :=
  ⟨.leaf, [], 0, 0, 0⟩

-- What a call finds outside of the tree: the total_block_count of the tree's file, and how its
-- requests for memory, for pages and for room in the transaction end, one after the other. When
-- there are no more entries they succeed.
structure BtreeEnv where
  totalBlockCount : Nat
  outcomes        : List (Option Errno)
  deriving DecidableEq, Repr

-- The pages of the nodes, the bitmap of the head bnode with what emmcfs_bnode_bitmap knows about
-- it, and the fields of the head.
structure Btree (κ ν : Type) where
  bnodes      : Table (Bnode κ ν)
  bitmap      : Nat
  firstFreeId : Nat
  freeNum     : Nat
  rootBnodeId : Nat
  btreeHeight : Nat
  env         : BtreeEnv := ⟨0, []⟩

-- What is fixed about a tree. The lengths are those of the catalog tree, which are the larger ones.
structure BtreeOps (κ : Type) where
  compFn          : κ → κ → Int
  keyLen          : κ → Nat
  nodeSizeBytes   : Nat
  maxRecordLen    : Nat
  bitsNum         : Nat
  isMountFinished : Bool
  node_size_ge    : 4096 ≤ nodeSizeBytes
  node_size_le    : nodeSizeBytes ≤ 65536
  record_len_le   : maxRecordLen ≤ 479

-- The bounds for nodes of one page.
theorem pageNode_size_ge : 4096 ≤ 4096 := Nat.le_refl _
theorem pageNode_size_le : 4096 ≤ 65536 := by decide

abbrev BtreeCode (κ ν α : Type) := Driver (Btree κ ν) α

namespace Btree

def bnode (s : Btree κ ν) (id : Nat) : Bnode κ ν := s.bnodes.get id

def setBnode (s : Btree κ ν) (id : Nat) (b : Bnode κ ν) : Btree κ ν :=
  { s with bnodes := s.bnodes.set id b }

end Btree

variable (tree : BtreeOps κ)

-- The end of a call that finds the volume damaged.
def faultOrBug (e : Errno) : BtreeCode κ ν α :=
  if tree.isMountFinished then Code.halt else Code.fail e

-- A request with its outcome.
def request : BtreeCode κ ν Unit := do
  let s ← Code.get
  match s.env.outcomes with
  | []            => pure ()
  | o :: outcomes => do
    Code.modify fun s => { s with env.outcomes := outcomes }
    o.elim (pure ()) Code.fail

def kmalloc : BtreeCode κ ν Unit :=
  Code.onFail request fun _ => Code.fail .enomem

-- emmcfs_get_bnode; the node is read, or added to the transaction.
def getBnode (id : Nat) : BtreeCode κ ν (Bnode κ ν) := do
  let s ← Code.get
  if id ≠ 0 ∧ !s.bitmap.testBit id then Code.fail .enoent
  else do
    request
    pure (s.bnode id)

-- The node behind a bnode pointer that is held, and a change of it.
def bnodeAt (id : Nat) : BtreeCode κ ν (Bnode κ ν) :=
  Code.gets (·.bnode id)

def updateBnode (id : Nat) (f : Bnode κ ν → Bnode κ ν) : BtreeCode κ ν Unit :=
  Code.modify fun s => s.setBnode id (f (s.bnode id))

-- emmcfs_alloc_new_bnode adds the head bnode to the transaction, sets the bit and creates the pages
-- of the node. If that fails the bit is cleared again.
def allocNewBnode : BtreeCode κ ν Nat := do
  let s ← Code.get
  if s.freeNum = 0 then Code.fail .enospc
  else do
    request
    let id := s.firstFreeId
    Code.haltOn (s.bitmap.testBit id = true)
    Code.modify fun s => { s with bitmap := s.bitmap ||| 1 <<< id }
    Code.onFail request fun e => do
      Code.modify fun s => { s with bitmap := s.bitmap ^^^ 1 <<< id }
      Code.fail e
    Code.modify fun s => { s with
      firstFreeId := findNextZeroBit s.bitmap (tree.bitsNum - id) id
      freeNum     := s.freeNum - 1 }
    pure id

def destroyBnode (id : Nat) : BtreeCode κ ν Unit := do
  Code.haltOn (id = 0)
  request
  let s ← Code.get
  if !s.bitmap.testBit id then faultOrBug tree .efault
  else Code.modify fun s => { s with
    bitmap      := s.bitmap ^^^ 1 <<< id
    firstFreeId := if id < s.firstFreeId then id else s.firstFreeId
    freeNum     := s.freeNum + 1 }

-- The number of set bits among the first `n`.
def bitmapWeight (bitmap n : Nat) : Nat :=
  (List.range n).countP bitmap.testBit

-- build_free_bnode_bitmap with the bits that the head bnode has.
def buildFreeBnodeBitmap (data : BitVec tree.bitsNum) : BtreeCode κ ν Unit := do
  kmalloc
  Code.modify fun s => { s with
    bitmap      := data.toNat
    firstFreeId := findNextZeroBit data.toNat tree.bitsNum 0
    freeNum     := tree.bitsNum - bitmapWeight data.toNat tree.bitsNum }

-- EMMCFS_BUG_ON around a call that returns an error.
def bugOnError (m : BtreeCode κ ν α) : BtreeCode κ ν α :=
  Code.onFail m fun _ => Code.halt

section Node

def getRecord (b : Bnode κ ν) (index : Nat) : BtreeCode κ ν (BtreeRecord κ ν) :=
  match b.recs[index]? with
  | some r => pure r
  | none   => Code.fail .einval

-- The node id of an index record. Data in its place would name some other node, here the one that
-- is never valid.
def BtreeRecord.nodeId (r : BtreeRecord κ ν) : Nat :=
  match r.payload with
  | .node id => id
  | .data _  => 0

def getChildBnode (r : BtreeRecord κ ν) : BtreeCode κ ν Nat :=
  if r.nodeId = 0 then faultOrBug tree .efault
  else do
    let _ ← getBnode r.nodeId
    pure r.nodeId

def isNodeFull (b : Bnode κ ν) (addingRecord : BtreeRecord κ ν) : Prop :=
  b.freeSpace < addingRecord.recordLen + sizeofBtOff

instance : Decidable (isNodeFull b r) :=
  inferInstanceAs (Decidable (_ < _))

def initNewNodeDescr (id : Nat) (type : NodeType) : BtreeCode κ ν Unit :=
  updateBnode id fun _ => {
    type       := type
    recs       := []
    freeSpace  := u16 (tree.nodeSizeBytes - sizeofNodeDescr - sizeofBtOff - bnodeFirstOffset)
    prevNodeId := 0
    nextNodeId := 0 }

def insertIntoNode (id : Nat) (r : BtreeRecord κ ν) (pos : Nat) : BtreeCode κ ν Unit := do
  let b ← bnodeAt id
  Code.haltOn (b.freeSpace < r.recordLen)
  Code.haltOn (b.freeSpace < sizeofBtOff)
  updateBnode id fun b => { b with
    recs      := b.recs.take pos ++ r :: b.recs.drop pos
    freeSpace := u16 (b.freeSpace + 2 ^ 16 - (r.recordLen + sizeofBtOff)) }

def deleteFromNode (id : Nat) (pos : Nat) : BtreeCode κ ν Unit := do
  let b ← bnodeAt id
  match b.recs[pos]? with
  | none   => faultOrBug tree .efault
  | some r => updateBnode id fun b => { b with
      recs      := b.recs.take pos ++ b.recs.drop (pos + 1)
      freeSpace := u16 (b.freeSpace + (r.recordLen + sizeofBtOff)) }

-- A change of the next or of the previous id of a neighbour, if there is one.
def setNextOf (id next : Nat) : BtreeCode κ ν Unit :=
  if id = 0 then pure ()
  else do
    let _ ← bugOnError (getBnode id)
    updateBnode id fun b => { b with nextNodeId := next }

def setPrevOf (id prev : Nat) : BtreeCode κ ν Unit :=
  if id = 0 then pure ()
  else do
    let _ ← bugOnError (getBnode id)
    updateBnode id fun b => { b with prevNodeId := prev }

-- The links of the two nodes into which `source` is split, and those of its neighbours.
def setNextPrevLinks (source new₁ new₂ : Nat) : BtreeCode κ ν Unit := do
  let src ← bnodeAt source
  updateBnode new₁ fun b => { b with prevNodeId := src.prevNodeId, nextNodeId := new₂ }
  updateBnode new₂ fun b => { b with prevNodeId := new₁, nextNodeId := src.nextNodeId }
  setNextOf src.prevNodeId new₁
  setPrevOf src.nextNodeId new₂

-- The loop of split_node over the records in their new order.
def splitRecords (part₁ part₂ : Nat) : (usedSpace : Nat) → (partToInsert : Bool) →
    List (BtreeRecord κ ν) → BtreeCode κ ν Unit
  | _, _, []                           => pure ()
  | usedSpace, partToInsert, r :: recs => do
    let usedSpace := usedSpace + (r.recordLen + sizeofBtOff)
    let insBnode := if partToInsert then part₂ else part₁
    let b ← bnodeAt insBnode
    insertIntoNode insBnode r b.recs.length
    splitRecords part₁ part₂ usedSpace (partToInsert || tree.nodeSizeBytes / 2 < usedSpace) recs

def splitNode (id addingIndex : Nat) (addingRecord : BtreeRecord κ ν) (part₁ part₂ : Nat) :
    BtreeCode κ ν Unit := do
  let b ← bnodeAt id
  initNewNodeDescr tree part₁ b.type
  initNewNodeDescr tree part₂ b.type
  setNextPrevLinks id part₁ part₂
  let p ← bnodeAt part₁
  Code.haltOn (b.recs = [])
  splitRecords tree part₁ part₂ (tree.nodeSizeBytes - p.freeSpace) false
    (b.recs.take addingIndex ++ addingRecord :: b.recs.drop addingIndex)

-- form_new_adding_record: the index record of a node.
def formNewAddingRecord (id : Nat) : BtreeCode κ ν (BtreeRecord κ ν) := do
  let b ← bnodeAt id
  match b.recs[0]? with
  | none   => Code.halt
  | some r => do
    Code.haltOn (tree.maxRecordLen < r.recordLen)
    pure ⟨r.key, tree.keyLen r.key + sizeofIndexValue, .node id⟩

-- The node id of a record is set in place.
def setNodeId (id index nodeId : Nat) : BtreeCode κ ν Unit :=
  updateBnode id fun b => { b with
    recs := b.recs.modify index fun r => { r with payload := .node nodeId } }

-- The 16 bits of the height are not exceeded: a tree that high has more nodes than the bitmap.
def btreeIncHeight : BtreeCode κ ν Unit := do
  bugOnError request
  Code.modify fun s => { s with btreeHeight := s.btreeHeight + 1 }

def btreeSetRootId (id : Nat) : BtreeCode κ ν Unit := do
  bugOnError request
  Code.modify fun s => { s with rootBnodeId := id }

def btreeDecHeight : BtreeCode κ ν Unit := do
  let s ← Code.get
  Code.haltOn (s.btreeHeight - 1 = 0)
  bugOnError request
  Code.modify fun s => { s with btreeHeight := s.btreeHeight - 1 }

def updateRootDescriptor (id : Nat) (first second : BtreeRecord κ ν) (changingNodeId : Nat) :
    BtreeCode κ ν Unit := do
  initNewNodeDescr tree id .index
  insertIntoNode id first 0
  insertIntoNode id second 1
  setNodeId id 0 changingNodeId
  btreeIncHeight
  btreeSetRootId id

end Node

end Emmcfs
