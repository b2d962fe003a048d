import EmmcfsModel.Btree.Raw
import EmmcfsModel.Catalog.Tree
import EmmcfsModel.Extents.Tree

namespace Emmcfs

open Store

-- EMMCFS_NODE_DESCR_MAGIC
def nodeDescrMagic : Nat := 0x644E

-- The first two bytes of a node.
def HasMagic (d : Store) : Prop :=
  ofLe (readAt d 0 2) = nodeDescrMagic

instance : Decidable (HasMagic d) :=
  inferInstanceAs (Decidable (_ = _))

-- A stretch of bytes that is read through a node: where it starts in the node, and its length.
abbrev Span := Nat × Nat

-- What a comparison function returns for the key at an address, with what it reads there. It goes
-- up to `keyEnd` for some key that it can be given as the second one.
structure KeyReader (κ : Type) where
  compFn     : (d : Store) → (record : Nat) → κ → Int × List Span
  keyEnd     : (d : Store) → (record : Nat) → Nat
  generic_le : ∀ d record, record + 12 ≤ keyEnd d record
  reach      : ∀ d record size,
    (∀ key, ∀ span ∈ (compFn d record key).2, span.1 + span.2 ≤ size) ↔ keyEnd d record ≤ size

section CattreeKey

variable (fold : BitVec 8 → BitVec 8) (d : Store)

-- The loop over the names; the one of the second key is cut to the length of the first.
def nameReads : (ch₁ : Nat) → List Byte → BitVec 8 × List Span
  | _, []            => (0#8, [])
  | ch₁, ch₂ :: name =>
    let diff := fold (d ch₁) - fold ch₂
    if diff ≠ 0#8 then (diff, [(ch₁, 1)])
    else
      let rest := nameReads (ch₁ + 1) name
      (rest.1, (ch₁, 1) :: rest.2)

-- parent_id, name.length and name.unicode_str of the struct emmcfs_cattree_key at an address
def parentIdAt (record : Nat) : BitVec 64 := .ofNat 64 (ofLe (readAt d (record + 14) 8))
def nameLengthAt (record : Nat) : Nat := ofLe (readAt d (record + 22) 4)
def unicodeStrAt (record : Nat) : Nat := record + 26

-- emmcfs_cattree_cmpfn and emmcfs_cattree_cmpfn_ci. The difference of the lengths becomes an `int`.
def cattreeReads (record : Nat) (key : CattreeKey) : Int × List Span :=
  if parentIdAt d record ≠ key.parentId then
    (((parentIdAt d record - key.parentId).setWidth 32).toInt, [(record + 14, 8)])
  else
    let length := nameLengthAt d record
    let names := nameReads fold d (unicodeStrAt record) (key.name.take length)
    (if names.1 ≠ 0#8 then names.1.toInt else ((length : Int) - key.name.length).bmod (2 ^ 32),
      (record + 14, 8) :: (record + 22, 4) :: names.2)

end CattreeKey

-- emmcfs_exttree_cmpfn
def exttreeReads (d : Store) (record : Nat) (key : ExttreeKey) : Int × List Span :=
  let objectId := ofLe (readAt d (record + 12) 8)
  if objectId ≠ key.objectId ∨ key.iblock = iblockDoesNotMatter then
    (cmp2Le64 objectId key.objectId, [(record + 12, 8)])
  else
    (cmp2Le64 (ofLe (readAt d (record + 20) 8)) key.iblock, [(record + 12, 8), (record + 20, 8)])

-- A tree whose nodes are read, and what was read through them. Behind the end of a node its bytes
-- go on with whatever the memory holds there.
structure NodeReader extends RawBtree where
  rootBnodeId : Nat
  btreeHeight : Nat
  reads       : List Span

abbrev ReadCode (α : Type) := Driver NodeReader α

-- A record in its node, or NULL, and its position.
structure RecordPlace where
  record : Option Nat
  pos    : Int

namespace NodeReader

def onBtree (m : RawCode α) : ReadCode α :=
  Code.zoom NodeReader.toRawBtree (fun t s => { s with toRawBtree := t }) m

def log (spans : List Span) (s : NodeReader) : NodeReader :=
  { s with reads := spans ++ s.reads }

-- A number in little-endian order.
def read (id addr n : Nat) : ReadCode Nat := do
  let s ← Code.get
  Code.modify (log [(addr, n)])
  pure (ofLe (readAt (s.nodes id) addr n))

def field (id : Nat) (f : DescrField) : ReadCode Nat :=
  read id f.addr f.size

-- emmcfs_get_bnode; the magic of the head is not looked at.
def getBnode (id : Nat) : ReadCode Unit := do
  onBtree (RawBtree.getBnode id)
  if id = 0 then pure ()
  else do
    let magic ← read id 0 2
    if magic ≠ nodeDescrMagic then Code.fail .enoent else pure ()

variable (tree : BtreeOps κ) (keys : KeyReader κ)

def getOffset (id index : Nat) : ReadCode Nat :=
  Code.onFail (do
    let addr ← onBtree (RawBtree.getOffsetAddr tree index)
    read id addr sizeofBtOff) fun _ => pure btInvalidOffset

-- get_record, and emmcfs_get_btree_record
def getRecord (id index : Nat) : ReadCode Nat := do
  let recsCount ← field id .recsCount
  if recsCount < index then Code.fail .einval
  else do
    let offset ← getOffset tree id index
    if RawBtree.IsOffsetCorrect tree offset then pure offset else Code.fail .einval

-- key_len of the generic key of a record, and the node_id of the value behind the key
def keyLenAt (d : Store) (record : Nat) : Nat := ofLe (readAt d (record + 4) 4)
def childAt (d : Store) (record : Nat) : Nat := ofLe (readAt d (record + keyLenAt d record) 4)

def getChildBnode (id record : Nat) : ReadCode Nat := do
  let keyLen ← read id (record + 4) 4
  let nodeId ← read id (record + keyLen) 4
  if nodeId = 0 then onBtree (RawBtree.faultOrBug tree .efault)
  else do
    getBnode nodeId
    pure nodeId

-- tree->comp_fn
def compFn (id record : Nat) (key : κ) : ReadCode Int := do
  let s ← Code.get
  Code.modify (log (keys.compFn (s.nodes id) record key).2)
  pure (keys.compFn (s.nodes id) record key).1

-- The binary search of btree_find, from what the record and its comparison were before; `fuel` is
-- above the number of the records between `first` and `last`.
def searchLoop (id : Nat) (key : κ) : (fuel first last : Nat) → (cur : RecordPlace) →
    (cmpRes : Int) → (prev : RecordPlace) → ReadCode RecordPlace
  | 0, _, _, _, _, _                         => Code.halt
  | fuel + 1, first, last, cur, cmpRes, prev =>
    if first < last then do
      let mid := first + (last - first) >>> 1
      let record ← getRecord tree id mid
      let cmpRes ← compFn keys id record key
      if cmpRes = 0 then pure ⟨some record, mid⟩
      else if 0 < cmpRes then searchLoop id key fuel first mid ⟨some record, mid⟩ cmpRes prev
      else searchLoop id key fuel (mid + 1) last ⟨some record, mid⟩ cmpRes ⟨some record, mid⟩
    else pure (if 0 < cmpRes then prev else cur)

-- One round of the loop of btree_find, up to the record of the node. If the first record is above
-- the key or the last one below it, there is no search between them.
def searchBnode (id : Nat) (key : κ) : ReadCode RecordPlace := do
  let recsCount ← field id .recsCount
  if recsCount = 0 then Code.fail .einval
  else do
    let firstRecord ← getRecord tree id 0
    let firstRes ← compFn keys id firstRecord key
    let prev : RecordPlace := if 0 < firstRes then ⟨some firstRecord, 0⟩ else ⟨none, -1⟩
    let first := if 0 < firstRes then recsCount else 0
    let record ← getRecord tree id (recsCount - 1)
    let cmpRes ← compFn keys id record key
    if cmpRes < 0 then pure ⟨some record, recsCount - 1⟩
    else searchLoop tree keys id key (recsCount + 1) first recsCount ⟨some record, -1⟩ cmpRes prev

-- A NULL pointer is not an error pointer.
def childOf (id : Nat) : Option Nat → ReadCode Nat
  | none        => Code.halt
  | some record => getChildBnode tree id record

-- The loop of btree_find, from the node with `n` levels below it down.
def descend (key : κ) : (n id : Nat) → ReadCode (Nat × Int)
  | 0, id     => do
    let place ← searchBnode tree keys id key
    pure (id, place.pos)
  | n + 1, id => do
    let place ← searchBnode tree keys id key
    let child ← childOf tree id place.record
    descend key n child

-- btree_find; `pos` is what *pos is before, and stays if there is no such level.
def btreeFind (key : κ) (level : Nat) (pos : Int) : ReadCode (Nat × Int) := do
  let s ← Code.get
  getBnode s.rootBnodeId
  if s.btreeHeight < level then pure (s.rootBnodeId, pos)
  else descend tree keys key (s.btreeHeight - level) s.rootBnodeId

section Inside

-- Every byte that was read lies within the node.
def Inside (s : NodeReader) : Prop :=
  ∀ span ∈ s.reads, span.1 + span.2 ≤ tree.nodeSizeBytes

-- What an operation reads lies within the nodes, or it returns an error.
def Stays (m : ReadCode α) (s : NodeReader) : Prop :=
  Code.wp m (fun _ => Inside tree) (fun _ _ => True) False { s with reads := [] }

end Inside

end NodeReader

-- The state of the driver until the mount is finished.
def BtreeOps.duringMount (tree : BtreeOps κ) : BtreeOps κ :=
  { tree with isMountFinished := false }

-- A record of a node that get_record gives for an index below recs_count.
structure IsEntry (size : Nat) (d : Store) (i : Nat) : Prop where
  count   : i < DescrField.recsCount.get d
  slot    : bnodeFirstOffset + sizeofBtOff * (i + 1) ≤ size
  correct : slotOf size d i ≠ 0 ∧ slotOf size d i < size

namespace NodeReader

-- emmcfs_get_bnode has no node for an id, whatever the requests do.
def Refuses (s : NodeReader) (id : Nat) : Prop :=
  id = 0 ∨ s.bitmap.testBit id = false ∨ ¬HasMagic (s.nodes id)

-- What can be compared of the key of a record is in the node, and so is the id of a child, unless
-- what is read in its place is refused.
structure Encloses (keys : KeyReader κ) (size : Nat) (s : NodeReader) (id record : Nat) : Prop where
  key   : keys.keyEnd (s.nodes id) record ≤ size
  child : record + keyLenAt (s.nodes id) record + 4 ≤ size ∨
    s.Refuses (childAt (s.nodes id) record)

-- The entries of all nodes with the right magic are enclosed.
def EnclosesAll (keys : KeyReader κ) (size : Nat) (s : NodeReader) : Prop :=
  ∀ id, HasMagic (s.nodes id) → ∀ i, IsEntry size (s.nodes id) i →
    s.Encloses keys size id (slotOf size (s.nodes id) i)

-- The operations on the nodes of a tree with the right magic: get_record for any index, the
-- comparison with a record and the step to its child, and a search down to a level, whatever comes
-- of the requests.
structure ReadsInside (tree : BtreeOps κ) (keys : KeyReader κ) (s : NodeReader) : Prop where
  record : ∀ outcomes id index, HasMagic (s.nodes id) →
    Stays tree (getRecord tree id index) { s with outcomes }
  comp   : ∀ outcomes id index key, HasMagic (s.nodes id) →
    index < DescrField.recsCount.get (s.nodes id) →
    Stays tree (do compFn keys id (← getRecord tree id index) key) { s with outcomes }
  child  : ∀ outcomes id index, HasMagic (s.nodes id) →
    index < DescrField.recsCount.get (s.nodes id) →
    Stays tree (do getChildBnode tree id (← getRecord tree id index)) { s with outcomes }
  find   : ∀ outcomes key level pos, HasMagic (s.nodes s.rootBnodeId) →
    Stays tree (btreeFind tree keys key level pos) { s with outcomes }

end NodeReader

end Emmcfs
