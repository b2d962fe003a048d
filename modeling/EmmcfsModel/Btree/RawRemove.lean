import EmmcfsModel.Btree.Raw

namespace Emmcfs.RawBtree

open Store

variable (tree : BtreeOps κ)

section Delete

-- The two loops of delete_from_node. recs_count is a __le16, so that there are less than 2 ^ 16 turns.
def maxTurns : Nat := 2 ^ 16

-- The offsets that are larger than the one of the deleted record become smaller.
def decreaseOffsets (id delOffset recLen : Nat) : (turns i : Nat) → RawCode Unit
  | 0, _         => pure ()
  | turns + 1, i => do
    let recsCount ← field id .recsCount
    if i < recsCount then do
      let curOffs ← getOffset tree id i
      if delOffset < curOffs then checkSetOffset tree id i (u32Sub curOffs recLen) else pure ()
      decreaseOffsets id delOffset recLen turns (i + 1)
    else pure ()

-- Each offset behind the deleted one is moved up by one place.
def shiftOffsets (id : Nat) : (turns i : Nat) → RawCode Unit
  | 0, _         => pure ()
  | turns + 1, i => do
    let recsCount ← field id .recsCount
    if i < recsCount then do
      let nextOffset ← getOffset tree id (i + 1)
      checkSetOffset tree id i nextOffset
      shiftOffsets id turns (i + 1)
    else pure ()

-- With CONFIG_EMMCFS_DEBUG the free space is checked and overwritten.
def fillFreeSpace (id : Nat) : RawCode Unit := do
  let recsCount ← field id .recsCount
  let addr ← getOffsetAddr tree recsCount
  let bytes ← load id addr sizeofBtOff
  if IsOffsetCorrect tree (ofLe bytes) then do
    let freeSpace ← field id .freeSpace
    Code.haltOn (ofLe bytes + freeSpace ≠ addr)
    store id ⟨ofLe bytes, List.replicate freeSpace 0xA5#8⟩
  else Code.fail .efault

-- What delete_from_node does with the offsets that it has found.
def deleteAt (debug : Bool) (id delIndex delKey recLen freeSpaceOffset delOffset : Nat) :
    RawCode Unit := do
  let bytes ← load id (delKey + recLen) (u32Sub (u32Sub freeSpaceOffset delOffset) recLen)
  store id ⟨delKey, bytes⟩
  decreaseOffsets tree id delOffset recLen maxTurns 0
  shiftOffsets tree id maxTurns delIndex
  let recsCount ← field id .recsCount
  store id (DescrField.recsCount.set (recsCount + 2 ^ 16 - 1))
  let freeSpace ← field id .freeSpace
  store id (DescrField.freeSpace.set (freeSpace + (recLen + sizeofBtOff)))
  let recsCount ← field id .recsCount
  checkSetOffset tree id recsCount (u32Sub freeSpaceOffset recLen)
  if debug then fillFreeSpace tree id else pure ()

def deleteFromNode (debug : Bool) (id delIndex : Nat) : RawCode Unit := do
  let delKey ← Code.onFail (getRecord tree id delIndex) fun _ => faultOrBug tree .efault
  let s ← Code.get
  let recLen := recordLen fun a => s.nodes id (delKey + a)
  let recsCount ← field id .recsCount
  let freeSpaceOffset ← getOffset tree id recsCount
  let delOffset ← getOffset tree id delIndex
  if IsOffsetCorrect tree freeSpaceOffset ∧ IsOffsetCorrect tree delOffset then
    deleteAt tree debug id delIndex delKey recLen freeSpaceOffset delOffset
  else faultOrBug tree .efault

end Delete

section Merge

-- The loop of check_bnode_offset_area, true if all offsets are correct.
def checkOffsets (id : Nat) : (left i : Nat) → RawCode Bool
  | 0, _        => pure true
  | left + 1, i => do
    let offset ← getOffset tree id i
    if IsOffsetCorrect tree offset then checkOffsets id left (i + 1) else pure false

def checkBnodeOffsetArea (id : Nat) : RawCode Bool := do
  let recsCount ← field id .recsCount
  checkOffsets tree id recsCount 0

-- The loop of btree_merge over the offsets of the right node, the one of its free space included.
def mergeOffsets (left right startOffset : Nat) : (turns i : Nat) → RawCode Unit
  | 0, _         => pure ()
  | turns + 1, i => do
    let recsCount ← field right .recsCount
    if i ≤ recsCount then do
      let leftCount ← field left .recsCount
      let offset ← getOffset tree right i
      bugOnError (checkSetOffset tree left (i + leftCount)
        (u32Sub (startOffset + offset) sizeofNodeDescr))
      mergeOffsets left right startOffset turns (i + 1)
    else pure ()

-- The bytes of the right node's records; the difference is a size_t.
def mergeBytes (left right leftFreeSpace : Nat) : RawCode Unit := do
  let recsCount ← field right .recsCount
  let rightEnd ← getOffset tree right recsCount
  let bytes ← load right sizeofNodeDescr (u64Sub rightEnd sizeofNodeDescr)
  store left ⟨leftFreeSpace, bytes⟩

-- The fields of the left node. free_space is a __le16.
def mergeFields (left right : Nat) : RawCode Unit := do
  let freeSpace ← field left .freeSpace
  let rightCount ← field right .recsCount
  let rightEnd ← getOffset tree right rightCount
  store left (DescrField.freeSpace.set (u64Sub freeSpace
    (u64Sub rightEnd sizeofNodeDescr + rightCount * sizeofBtOff)))
  let leftCount ← field left .recsCount
  store left (DescrField.recsCount.set (leftCount + rightCount))
  let next ← field right .nextNodeId
  store left (DescrField.nextNodeId.set next)

-- btree_merge as far as it moves the records of the right node into the left one.
def mergeNodes (left right : Nat) : RawCode Unit := do
  let correct ← checkBnodeOffsetArea tree left
  let correct ← if correct then checkBnodeOffsetArea tree right else pure false
  if correct then do
    let recsCount ← field left .recsCount
    let addr ← getOffsetAddr tree recsCount
    let bytes ← load left addr sizeofBtOff
    mergeBytes tree left right (ofLe bytes)
    let recsCount ← field left .recsCount
    let startOffset ← getOffset tree left recsCount
    mergeOffsets tree left right startOffset (maxTurns + 1) 0
    mergeFields tree left right
  else faultOrBug tree .efault

end Merge

end Emmcfs.RawBtree
