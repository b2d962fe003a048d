import EmmcfsModel.Btree.Btree
import EmmcfsModel.Lib.Chain
import EmmcfsModel.Lib.Store

namespace Emmcfs

open Store

-- The fields of struct emmcfs_gen_node_descr behind its magic.
inductive DescrField
  | freeSpace | recsCount | nodeId | prevNodeId | nextNodeId | type
  deriving DecidableEq, Repr

namespace DescrField

def addr : DescrField → Nat
  | freeSpace => 2
  | recsCount => 4
  | nodeId => 6
  | prevNodeId => 10
  | nextNodeId => 14
  | type => 18

def size : DescrField → Nat
  | freeSpace | recsCount => 2
  | nodeId | prevNodeId | nextNodeId => 4
  | type => 1

def get (f : DescrField) (d : Store) : Nat :=
  ofLe (readAt d f.addr f.size)

def set (f : DescrField) (v : Nat) : Write :=
  ⟨f.addr, toLe f.size v⟩

end DescrField

-- EMMCFS_BT_INVALID_OFFSET
def btInvalidOffset : Nat := 2 ^ 32 - 1

-- The bytes of the bnodes by their ids, and what emmcfs_get_bnode depends on: the bitmap and the
-- outcomes of the requests, one after the other.
structure RawBtree where
  nodes    : Nat → Store
  bitmap   : Nat
  outcomes : List (Option Errno)

abbrev RawCode (α : Type) := Driver RawBtree α

namespace RawBtree

def setNode (s : RawBtree) (id : Nat) (d : Store) : RawBtree :=
  { s with nodes := Function.update s.nodes id d }

def field (id : Nat) (f : DescrField) : RawCode Nat := do
  let s ← Code.get
  pure (f.get (s.nodes id))

def load (id addr n : Nat) : RawCode (List Byte) := do
  let s ← Code.get
  pure (readAt (s.nodes id) addr n)

def store (id : Nat) (w : Write) : RawCode Unit :=
  Code.modify fun s => s.setNode id (w.apply (s.nodes id))

def bugOnError (m : RawCode α) : RawCode α :=
  Code.onFail m fun _ => Code.halt

def request : RawCode Unit := do
  let s ← Code.get
  match s.outcomes with
  | []            => pure ()
  | o :: outcomes => do
    Code.modify fun s => { s with outcomes }
    o.elim (pure ()) Code.fail

def prevOf (s : RawBtree) (id : Nat) : Nat :=
  DescrField.prevNodeId.get (s.nodes id)

def nextOf (s : RawBtree) (id : Nat) : Nat :=
  DescrField.nextNodeId.get (s.nodes id)

-- The nodes of a level from left to right, by the links in their descriptors.
structure Chain (s : RawBtree) (ids : List Nat) : Prop where
  nodup   : ids.Nodup
  nonzero : 0 ∉ ids
  linked  : Linked s.prevOf s.nextOf 0 ids 0

-- emmcfs_get_bnode
def getBnode (id : Nat) : RawCode Unit := do
  let s ← Code.get
  if id ≠ 0 ∧ !s.bitmap.testBit id then Code.fail .enoent else request

-- record_len of the generic key that a record starts with.
def recordLen (record : Store) : Nat :=
  ofLe (readAt record 8 4)

-- Where the offset of a record stands: the offsets are counted from the end of the node.
def slotAddr (size index : Nat) : Nat :=
  size - bnodeFirstOffset - sizeofBtOff * (index + 1)

variable (tree : BtreeOps κ)

def faultOrBug (e : Errno) : RawCode α :=
  if tree.isMountFinished then Code.halt else Code.fail e

-- get_offset_addr; an address before the node would be a large unsigned number.
def getOffsetAddr (index : Nat) : RawCode Nat :=
  if bnodeFirstOffset + sizeofBtOff * (index + 1) ≤ tree.nodeSizeBytes then
    pure (slotAddr tree.nodeSizeBytes index)
  else faultOrBug tree .efault

def getOffset (id index : Nat) : RawCode Nat :=
  Code.onFail (do
    let addr ← getOffsetAddr tree index
    let bytes ← load id addr sizeofBtOff
    pure (ofLe bytes)) fun _ => pure btInvalidOffset

def IsOffsetCorrect (offset : Nat) : Prop :=
  offset ≠ 0 ∧ offset < tree.nodeSizeBytes

instance : Decidable (IsOffsetCorrect tree offset) :=
  inferInstanceAs (Decidable (_ ∧ _))

-- get_record: the offset of a record in its node.
def getRecord (id index : Nat) : RawCode Nat := do
  let recsCount ← field id .recsCount
  if recsCount < index then Code.fail .einval
  else do
    let offset ← getOffset tree id index
    if IsOffsetCorrect tree offset then pure offset else Code.fail .einval

def checkSetOffset (id index newVal : Nat) : RawCode Unit := do
  let addr ← getOffsetAddr tree index
  if IsOffsetCorrect tree newVal then store id ⟨addr, toLe sizeofBtOff newVal⟩
  else faultOrBug tree .efault

def IsNodeFull (d addingRecord : Store) : Prop :=
  DescrField.freeSpace.get d < recordLen addingRecord + sizeofBtOff

def initNewNodeDescr (id type : Nat) : RawCode Unit := do
  store id (DescrField.freeSpace.set
    (tree.nodeSizeBytes - sizeofNodeDescr - sizeofBtOff - bnodeFirstOffset))
  store id (DescrField.recsCount.set 0)
  store id (DescrField.type.set type)
  store id (DescrField.nodeId.set id)
  store id (DescrField.nextNodeId.set 0)
  store id (DescrField.prevNodeId.set 0)
  bugOnError (checkSetOffset tree id 0 sizeofNodeDescr)

-- The memmove of insert_into_node, with the address of the offset behind the last record.
def moveOffsets (id addr recsCount insertPos : Nat) : RawCode Unit :=
  if insertPos < recsCount then do
    let bytes ← load id (addr + sizeofBtOff) ((recsCount - insertPos) * sizeofBtOff)
    store id ⟨addr, bytes⟩
  else pure ()

-- What insert_into_node does with the offset of the free space. The record is what stands from some
-- address on.
def insertAt (id : Nat) (newRecord : Store) (insertPos addr offset : Nat) : RawCode Unit := do
  store id ⟨offset, readAt newRecord 0 (recordLen newRecord)⟩
  let recsCount ← field id .recsCount
  moveOffsets id addr recsCount insertPos
  checkSetOffset tree id insertPos offset
  let freeSpace ← field id .freeSpace
  Code.haltOn (freeSpace < sizeofBtOff)
  store id (DescrField.recsCount.set (recsCount + 1))
  -- a subtraction from a __le16
  store id (DescrField.freeSpace.set (freeSpace + 2 ^ 64 - (recordLen newRecord + sizeofBtOff)))
  let recsCount ← field id .recsCount
  checkSetOffset tree id recsCount (offset + recordLen newRecord)

def insertIntoNode (id : Nat) (newRecord : Store) (insertPos : Nat) : RawCode Unit := do
  let freeSpace ← field id .freeSpace
  Code.haltOn (freeSpace < recordLen newRecord)
  let recsCount ← field id .recsCount
  let addr ← getOffsetAddr tree recsCount
  let bytes ← load id addr sizeofBtOff
  if IsOffsetCorrect tree (ofLe bytes) then insertAt tree id newRecord insertPos addr (ofLe bytes)
  else Code.fail .efault

-- A neighbour is given another next or previous node.
def setLinkOf (id : Nat) (link : DescrField) (new : Nat) : RawCode Unit :=
  if id = 0 then pure ()
  else do
    bugOnError (getBnode id)
    let newId ← field new .nodeId
    store id (link.set newId)

def setNextPrevLinks (source new₁ new₂ : Nat) : RawCode Unit := do
  let id₂ ← field new₂ .nodeId
  store new₁ (DescrField.nextNodeId.set id₂)
  let id₁ ← field new₁ .nodeId
  store new₂ (DescrField.prevNodeId.set id₁)
  let next ← field source .nextNodeId
  store new₂ (DescrField.nextNodeId.set next)
  let prev ← field source .prevNodeId
  store new₁ (DescrField.prevNodeId.set prev)
  let prev ← field source .prevNodeId
  setLinkOf prev .nextNodeId new₁
  let next ← field source .nextNodeId
  setLinkOf next .prevNodeId new₂

-- The record that is taken next in split_node: the new one, or one of the node.
def pickRecord (id i : Nat) (newRecSelect : Bool) (addingRecord : Store) : RawCode Store :=
  if newRecSelect then pure addingRecord
  else do
    let offset ← bugOnError (getRecord tree id i)
    let s ← Code.get
    pure fun a => s.nodes id (offset + a)

-- The loop of split_node. It ends in a BUG if there are more turns than records.
def splitLoop (id addingIndex : Nat) (addingRecord : Store) (part₁ part₂ : Nat) :
    (turns i : Nat) → (inserted partToInsert : Bool) → (usedSpace : Nat) → RawCode Unit
  | 0, _, _, _, _                                         => Code.halt
  | turns + 1, i, inserted, partToInsert, usedSpace => do
    let recsCount ← field id .recsCount
    if i < recsCount ∨ !inserted then do
      let newRecSelect : Bool := i = addingIndex ∧ !inserted
      let key ← pickRecord tree id i newRecSelect addingRecord
      let usedSpace := u32 (usedSpace + (recordLen key + sizeofBtOff))
      let insBnode := if partToInsert then part₂ else part₁
      let count ← field insBnode .recsCount
      bugOnError (insertIntoNode tree insBnode key count)
      splitLoop id addingIndex addingRecord part₁ part₂ turns (if newRecSelect then i else i + 1)
        (inserted || newRecSelect) (partToInsert || tree.nodeSizeBytes / 2 < usedSpace) usedSpace
    else pure ()

def splitNode (id addingIndex : Nat) (addingRecord : Store) (part₁ part₂ : Nat) :
    RawCode Unit := do
  let type ← field id .type
  initNewNodeDescr tree part₁ type
  initNewNodeDescr tree part₂ type
  setNextPrevLinks id part₁ part₂
  let freeSpace ← field part₁ .freeSpace
  let recsCount ← field id .recsCount
  Code.haltOn (recsCount = 0)
  splitLoop tree id addingIndex addingRecord part₁ part₂ (recsCount + 2) 0 false false
    (tree.nodeSizeBytes - freeSpace)

end RawBtree

section NodeLayout

-- A record whose generic key has its length.
structure RecordOk (r : List Byte) : Prop where
  long : 12 ≤ r.length
  len  : ofLe ((r.drop 8).take 4) = r.length

-- The bytes of records, and their space with the offsets.
def recordBytes (recs : List (List Byte)) : Nat :=
  (recs.map List.length).sum

def recordSpace (recs : List (List Byte)) : Nat :=
  (recs.map fun r => r.length + sizeofBtOff).sum

-- Pieces follow each other from an address on, without gap or overlap.
def Tiles : Nat → List (Nat × List Byte) → Prop
  | _, []                => True
  | a, (offset, r) :: ps => offset = a ∧ Tiles (a + r.length) ps

def slotOf (size : Nat) (d : Store) (index : Nat) : Nat :=
  ofLe (readAt d (RawBtree.slotAddr size index) sizeofBtOff)

-- The records with the offsets that the node has for them.
def placed (size : Nat) (d : Store) (recs : List (List Byte)) : List (Nat × List Byte) :=
  recs.mapIdx fun i r => (slotOf size d i, r)

-- The node layout invariant: in some order the records occupy the bytes behind the descriptor up to
-- the free space.
structure NodeLayout (size : Nat) (d : Store) (recs : List (List Byte)) : Prop where
  count : DescrField.recsCount.get d = recs.length
  space : DescrField.freeSpace.get d + recordSpace recs + sizeofNodeDescr + sizeofBtOff +
    bnodeFirstOffset = size
  ok    : ∀ r ∈ recs, RecordOk r
  held  : ∀ p ∈ placed size d recs, HasAt d p.1 p.2
  tiled : ∃ ps, ps.Perm (placed size d recs) ∧ Tiles sizeofNodeDescr ps
  free  : slotOf size d recs.length = sizeofNodeDescr + recordBytes recs

end NodeLayout

end Emmcfs
