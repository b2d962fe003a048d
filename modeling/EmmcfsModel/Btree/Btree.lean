import EmmcfsModel.Btree.Bnode

namespace Emmcfs

variable (tree : BtreeOps κ)

section Find

-- The binary search of btree_find in the records from `first` to `last`; `fuel` is at least their
-- number. The position of the last record that was met below the key is kept.
def searchLoop (recs : List (BtreeRecord κ ν)) (key : κ) : (fuel first last : Nat) →
    (prevPos : Option Nat) → Option Nat
  | 0, _, _, prevPos               => prevPos
  | fuel + 1, first, last, prevPos =>
    if first < last then
      let mid := first + (last - first) >>> 1
      match recs[mid]? with
      | none   => none
      | some r =>
        if tree.compFn r.key key = 0 then some mid
        else if 0 < tree.compFn r.key key then searchLoop recs key fuel first mid prevPos
        else searchLoop recs key fuel (mid + 1) last (some mid)
    else prevPos

-- The position in a node, after a look at its first and last record.
def searchBnode (recs : List (BtreeRecord κ ν)) (key : κ) : Option Nat :=
  match recs[0]?, recs[recs.length - 1]? with
  | some first, some last =>
    if tree.compFn last.key key < 0 then some (recs.length - 1)
    else if 0 < tree.compFn first.key key then
      if 0 < tree.compFn last.key key then some 0 else none
    else searchLoop tree recs key recs.length 0 recs.length none
  | _, _                  => none

-- One round of the loop of btree_find: the position in a node. A position of -1 would make the
-- caller read outside of the node.
def findInBnode (key : κ) (id : Nat) : BtreeCode κ ν (Nat × Nat) := do
  let b ← bnodeAt id
  if b.recs = [] then Code.fail .einval
  else match searchBnode tree b.recs key with
    | none     => Code.halt
    | some pos => pure (id, pos)

-- The node that the search goes on in: the root, or the child that the last position names.
def nextBnode : List (Nat × Nat) → BtreeCode κ ν Nat
  | []             => do
    let s ← Code.get
    let _ ← getBnode s.rootBnodeId
    pure s.rootBnodeId
  | (id, pos) :: _ => do
    let b ← bnodeAt id
    let r ← getRecord b pos
    getChildBnode tree r

-- btree_find over `n` levels from the root down: the nodes and positions that were passed, the last
-- one first.
def btreeFind (key : κ) : (n : Nat) → BtreeCode κ ν (List (Nat × Nat))
  | 0     => pure []
  | n + 1 => do
    let path ← btreeFind key n
    let id ← nextBnode tree path
    let pos ← findInBnode tree key id
    pure (pos :: path)

-- btree_find down to a level, with the node and position that it ends with.
def btreeFindLevel (key : κ) (level : Nat) :
    BtreeCode κ ν ((Nat × Nat) × List (Nat × Nat)) := do
  let s ← Code.get
  match ← btreeFind tree key (s.btreeHeight + 1 - level) with
  | []          => Code.halt
  | pos :: path => pure (pos, path)

-- emmcfs_btree_find
def emmcfsBtreeFind (key : κ) : BtreeCode κ ν (Nat × Nat) := do
  let (pos, _) ← btreeFindLevel tree key 1
  pure pos

end Find

section Insert

-- EMMCFS_BNODE_RESERVE
def bnodeReserve (s : Btree κ ν) : Nat :=
  s.btreeHeight * 4

-- check_bnode_reserve takes the blocks of the file for pages. If they are too few, it has the node
-- created with which the reserve would be complete, and does nothing else with it.
def checkBnodeReserve : BtreeCode κ ν Unit := do
  let s ← Code.get
  let availableBnodes := s.env.totalBlockCount >>> Nat.log2 (tree.nodeSizeBytes >>> pageCacheShift)
  let usedBnodes := tree.bitsNum - s.freeNum
  let freeBnodes : Int := availableBnodes - usedBnodes
  if (bnodeReserve s : Int) - freeBnodes ≤ 0 then pure () else request

-- The reserve is looked at before a leaf is split only.
def checkReserveAt (level : Nat) : BtreeCode κ ν Unit :=
  if level = 1 then checkBnodeReserve tree else pure ()

-- The index record of a node that has been split is made to name its first part.
def changeNodeId (id index : Nat) : (changingNodeId : Option Nat) → BtreeCode κ ν Unit
  | none        => pure ()
  | some nodeId => setNodeId id index nodeId

-- Two new nodes for the split of a node. The error is -ENOSPC in any case.
def allocPair : BtreeCode κ ν (Nat × Nat) := do
  let id₁ ← Code.onFail (allocNewBnode tree) fun _ => Code.fail .enospc
  let id₂ ← Code.onFail (allocNewBnode tree) fun _ => do
    bugOnError (destroyBnode tree id₁)
    Code.fail .enospc
  pure (id₁, id₂)

-- The loop of btree_insert_at_level, from a level up.
def insertLoop : (path : List (Nat × Nat)) → (level : Nat) → (addingRecord : BtreeRecord κ ν) →
    (changingNodeId : Option Nat) → BtreeCode κ ν Unit
  | [], _, _, _                                              => Code.halt
  | (id, index) :: path, level, addingRecord, changingNodeId => do
    changeNodeId id index changingNodeId
    let b ← bnodeAt id
    if isNodeFull b addingRecord then
      checkReserveAt tree level
      let (id₁, id₂) ← allocPair tree
      splitNode tree id (index + 1) addingRecord id₁ id₂
      let second ← formNewAddingRecord tree id₂
      let s ← Code.get
      if id = s.rootBnodeId then
        let first ← formNewAddingRecord tree id
        updateRootDescriptor tree id first second id₁
      else
        bugOnError (destroyBnode tree id)
        insertLoop path (level + 1) second (some id₁)
    else insertIntoNode id addingRecord (index + 1)

-- The memory is for the path, for the record to add and for the first record of a new root.
def btreeInsertAtLevel (newData : BtreeRecord κ ν) (level : Nat) : BtreeCode κ ν Unit := do
  kmalloc
  let ((id, index), path) ← btreeFindLevel tree newData.key level
  let b ← bnodeAt id
  let record ← getRecord b index
  if tree.compFn record.key newData.key = 0 then Code.fail .eexist
  else
    kmalloc
    kmalloc
    Code.haltOn (tree.maxRecordLen < newData.recordLen)
    insertLoop tree ((id, index) :: path) level newData none

-- emmcfs_btree_insert
def emmcfsBtreeInsert (newData : BtreeRecord κ ν) : BtreeCode κ ν Unit :=
  btreeInsertAtLevel tree newData 1

end Insert

section Remove

-- btree_update_key: the key of `pointTo` at a level is replaced, which may go on further up. The
-- recursion is limited by `fuel`.
def btreeUpdateKey : (fuel : Nat) → (key : κ) → (pointTo level : Nat) → BtreeCode κ ν κ
  | 0, _, _, _                   => Code.halt
  | fuel + 1, key, pointTo, level => do
    kmalloc
    let newData ← formNewAddingRecord tree pointTo
    btreeInsertAtLevel tree newData level
    let ((id, pos), _) ← Code.onFail (btreeFindLevel tree key level) fun _ => Code.fail .einval
    deleteFromNode tree id pos
    let s ← Code.get
    if pos = 0 ∧ level < s.btreeHeight then
      let _ ← btreeUpdateKey fuel key id (level + 1)
      pure newData.key
    else pure newData.key

def usedSpace (recs : List (BtreeRecord κ ν)) : Nat :=
  (recs.map fun r => r.recordLen + sizeofBtOff).sum

-- btree_merge, where `remove` is btree_remove one level up. It writes to the memory for the key
-- without a look at the outcome of the request.
def btreeMerge (remove : κ → BtreeCode κ ν Unit) (leftId rightId : Nat) : BtreeCode κ ν Unit := do
  let _ ← getBnode leftId
  let right ← getBnode rightId
  updateBnode leftId fun left => { left with
    recs       := left.recs ++ right.recs
    freeSpace  := u16 (left.freeSpace + 2 ^ 16 - usedSpace right.recs)
    nextNodeId := right.nextNodeId }
  if right.nextNodeId ≠ 0 then
    let _ ← getBnode right.nextNodeId
    updateBnode right.nextNodeId fun b => { b with prevNodeId := leftId }
  match right.recs[0]? with
  | none   => Code.halt
  | some r => do
    bugOnError request
    destroyBnode tree rightId
    remove r.key

def rebalance (remove : κ → BtreeCode κ ν Unit) (key : κ) (level id freeSpace : Nat) :
    BtreeCode κ ν Unit := do
  let ((parentId, pos), _) ← btreeFindLevel tree key (level + 1)
  let parent ← bnodeAt parentId
  let cur ← getBnode id
  if 0 < pos then
    let neigh ← getBnode cur.prevNodeId
    if tree.nodeSizeBytes ≤ freeSpace + neigh.freeSpace then
      btreeMerge tree remove cur.prevNodeId id
  else if pos + 1 < parent.recs.length then
    let neigh ← getBnode cur.nextNodeId
    if tree.nodeSizeBytes ≤ freeSpace + neigh.freeSpace then
      btreeMerge tree remove id cur.nextNodeId
  else Code.halt

-- The only child of the root becomes the new root.
def dropRoot (id : Nat) : BtreeCode κ ν Unit := do
  let root ← bnodeAt id
  let r ← getRecord root 0
  let child ← getChildBnode tree r
  btreeSetRootId child
  btreeDecHeight
  destroyBnode tree id

-- The end of btree_remove, which looks whether the node has become too empty.
def afterRemove (remove : κ → BtreeCode κ ν Unit) (key : κ) (level id : Nat) :
    BtreeCode κ ν Unit := do
  let s ← Code.get
  let node := s.bnode id
  if tree.nodeSizeBytes / 3 < node.freeSpace then
    if level < s.btreeHeight then
      Code.onFail (rebalance tree remove key level id node.freeSpace) (faultOrBug tree)
    else if node.recs.length = 1 ∧ 1 < s.btreeHeight then dropRoot tree id
    else pure ()
  else pure ()

def btreeRemove : (fuel : Nat) → (level : Nat) → (key : κ) → BtreeCode κ ν Unit
  | 0, _, _              => Code.halt
  | fuel + 1, level, key => do
    let s ← Code.get
    Code.haltOn (s.btreeHeight < level)
    let ((id, pos), _) ← btreeFindLevel tree key level
    let b ← bnodeAt id
    let record ← getRecord b pos
    if level = 1 ∧ tree.compFn record.key key ≠ 0 then Code.fail .enoent
    else
      deleteFromNode tree id pos
      let s ← Code.get
      let node := s.bnode id
      if node.recs = [] then
        setNextOf node.prevNodeId node.nextNodeId
        setPrevOf node.nextNodeId node.prevNodeId
        Code.onFail (destroyBnode tree id) (faultOrBug tree)
        btreeRemove fuel (level + 1) key
      else if pos = 0 ∧ level < s.btreeHeight then
        let newKey ← btreeUpdateKey tree fuel key id (level + 1)
        afterRemove tree (btreeRemove fuel (level + 1)) newKey level id
      else afterRemove tree (btreeRemove fuel (level + 1)) key level id

-- emmcfs_btree_remove. Every level that a call goes up, and every node that it takes into use or
-- gives back, uses up some of the fuel.
def emmcfsBtreeRemove (key : κ) : BtreeCode κ ν Unit := do
  let s ← Code.get
  btreeRemove tree (2 * s.btreeHeight + s.freeNum + 1) 1 key

end Remove

-- The calls that change a tree, and a sequence of them.
inductive BtreeCall (κ ν : Type)
  | insert (newData : BtreeRecord κ ν)
  | remove (key : κ)

def BtreeCall.run : BtreeCall κ ν → BtreeCode κ ν Unit
  | insert newData => emmcfsBtreeInsert tree newData
  | remove key     => emmcfsBtreeRemove tree key

def btreeCalls (calls : List (BtreeCall κ ν)) : BtreeCode κ ν Unit :=
  calls.forM (BtreeCall.run tree)

end Emmcfs
