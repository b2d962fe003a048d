import EmmcfsModel.Fsm.Btree

namespace Emmcfs

open FsmNode

section Chunks

-- What fsm_btree_free finds on its way down along the last children: nothing, a chunk that ends
-- where the freed one starts, which has grown in place and may have reached the chunk behind it in
-- the same node, or a chunk that starts where the freed one ends.
inductive FreeWalk
  | nothing
  | grown (node : FsmNode FsmBtreeKey) (next : Option FsmBtreeKey)
  | before (key : FsmBtreeKey)

def growKey (node : FsmNode FsmBtreeKey) (i : Nat) (key : FsmBtreeKey) (length : Nat) : FreeWalk :=
  let key := { key with length := key.length + length }
  let put (key : FsmBtreeKey) := mk node.level node.type (node.keyVals.set i key) node.children
  match node.keyVals[i + 1]? with
  | none      => .grown (put key) none
  | some next =>
    if next.blockOffset = key.blockOffset + key.length then
      .grown (put { key with length := key.length + next.length }) (some next)
    else .grown (put key) none

def freeWalk (blockOffset length : Nat) : Nat → FsmNode FsmBtreeKey → FreeWalk
  | 0, _           => .nothing
  | fuel + 1, node =>
    let i := node.keyVals.findIdx fun key =>
      blockOffset = key.blockOffset + key.length ∨ blockOffset + length = key.blockOffset
    match node.keyVals[i]? with
    | some key =>
      if blockOffset = key.blockOffset + key.length then growKey node i key length else .before key
    | none =>
      match node.type with
      | .leaf  => .nothing
      | .index =>
        match node.children[i]? with
        | none       => .nothing
        | some child =>
          match freeWalk blockOffset length fuel child with
          | .grown child next => .grown (node.setChild i child) next
          | found             => found

-- fsm_btree_free; its callers do not look at the result.
def fsmBtreeFree (btree : FsmBtree FsmBtreeKey) (blockOffset length : Nat) :
    FsmBtree FsmBtreeKey :=
  match btree.root with
  | none      => (fsmBtreeInsert fsmBtreeCmpFn btree ⟨blockOffset, length⟩).1
  | some root =>
    match freeWalk blockOffset length (root.level + 1) root with
    | .nothing                => (fsmBtreeInsert fsmBtreeCmpFn btree ⟨blockOffset, length⟩).1
    | .grown root none        => { btree with root := some root }
    | .grown root (some next) => fsmBtreeDelete fsmBtreeCmpFn { btree with root := some root } next
    | .before key             =>
      (fsmBtreeInsert fsmBtreeCmpFn (fsmBtreeDelete fsmBtreeCmpFn btree key)
        ⟨blockOffset, length + key.length⟩).1

-- The search for a chunk that starts at the wanted block.
def lookupAt (blockOffset length : Nat) : Nat → FsmNode FsmBtreeKey → Option FsmBtreeKey
  | 0, _           => none
  | fuel + 1, node =>
    let i := node.keyVals.findIdx fun key => blockOffset ≤ key.blockOffset
    match node.keyVals[i]?.filter fun key => blockOffset = key.blockOffset ∧ length ≤ key.length with
    | some key => some key
    | none     =>
      match node.type with
      | .leaf  => none
      | .index => node.children[i]?.bind (lookupAt blockOffset length fuel)

-- The breadth-first search for any chunk that is long enough. The nodes linked by their `next`
-- pointers are the queue.
def lookupAny (length : Nat) : Nat → List (FsmNode FsmBtreeKey) → Option FsmBtreeKey
  | 0, _                    => none
  | _ + 1, []               => none
  | fuel + 1, node :: queue =>
    match node.keyVals.find? fun key => length ≤ key.length with
    | some key => some key
    | none     =>
      match node.type with
      | .leaf  => lookupAny length fuel queue
      | .index => lookupAny length fuel (queue ++ node.children.take (node.nrActive + 1))

def nodeCount : Nat → FsmNode κ → Nat
  | 0, _        => 1
  | h + 1, node => 1 + (node.children.map (nodeCount h)).sum

-- The chunk gives its first blocks away and what is left of it goes back into the tree.
def takeChunk (btree : FsmBtree FsmBtreeKey) (key : FsmBtreeKey) (length : Nat) :
    FsmBtree FsmBtreeKey × Option Errno :=
  let btree := fsmBtreeDelete fsmBtreeCmpFn btree key
  if length < key.length then
    fsmBtreeInsert fsmBtreeCmpFn btree ⟨key.blockOffset + length, key.length - length⟩
  else (btree, none)

-- fsm_btree_lookup: the first block of the chunk, or 0.
def fsmBtreeLookup (btree : FsmBtree FsmBtreeKey) (blockOffset length : Nat) :
    FsmBtree FsmBtreeKey × Nat :=
  match btree.root with
  | none      => (btree, 0)
  | some root =>
    match lookupAt blockOffset length (root.level + 1) root with
    | some key =>
      match takeChunk btree key length with
      | (btree, none)   => (btree, blockOffset)
      | (btree, some _) => (btree, 0)
    | none =>
      match lookupAny length (nodeCount root.level root) [root] with
      | some key => ((takeChunk btree key length).1, key.blockOffset)
      | none     => (btree, 0)

end Chunks

-- The free space manager, with the fields of the superblock information that it uses. The pages of
-- the LEB bitmap are mapped as an array of 32-bit words.
structure FsmInfo where
  tree            : FsmBtree FsmBtreeKey
  data            : Nat → BitVec 32
  lengthInBytes   : Nat
  pageCount       : Nat
  freeBlocksCount : Nat
  totalLebCount   : Nat
  logBlocksInLeb  : Nat
  isMountFinished : Bool

section Bits

variable (data : Nat → BitVec 32) (x : Nat)

def testBit : Bool :=
  (data (x / 32)).getLsbD (x % 32)

def setBit : Nat → BitVec 32 :=
  fun i => if i = x / 32 then data i ||| BitVec.twoPow 32 (x % 32) else data i

def clearBit : Nat → BitVec 32 :=
  fun i => if i = x / 32 then data i &&& ~~~BitVec.twoPow 32 (x % 32) else data i

end Bits

namespace FsmInfo

-- fsm->length_in_bytes << 3, with an unsigned int on the left.
def bitLimit (fsm : FsmInfo) : Nat :=
  u32 (fsm.lengthInBytes <<< 3)

def totalBlocks (fsm : FsmInfo) : Nat :=
  u64 (fsm.totalLebCount <<< fsm.logBlocksInLeb)

-- The bitmap pages of the first block of a chunk and of the one behind its last block.
def OffPages (fsm : FsmInfo) (blockOffset length : Nat) : Prop :=
  fsm.pageCount ≤ blockOffset >>> (pageCacheShift + 3) ∨
  fsm.pageCount ≤ (blockOffset + length) >>> (pageCacheShift + 3)

instance : Decidable (OffPages fsm blockOffset length) := by
  unfold OffPages
  infer_instance

end FsmInfo

-- The loop of emmcfs_fsm_get_free_block over the blocks from `x` on.
def takeBits (x : Nat) : Nat → Driver FsmInfo Unit
  | 0     => pure ()
  | n + 1 => do
    let fsm ← Code.get
    Code.haltOn (fsm.bitLimit ≤ x)
    Code.haltOn (testBit fsm.data x)
    Code.modify fun fsm => { fsm with data := setBit fsm.data x }
    takeBits (x + 1) n

-- emmcfs_fsm_get_free_block. FSM_PREALLOC_DELTA is 0, so that no file has preallocated blocks. The
-- bitmap pages are added to the transaction before they are changed, which is assumed to succeed.
def fsmGetFreeBlock (blockOffset lengthInBlocks : Nat) : Driver FsmInfo Nat := do
  let fsm ← Code.get
  if fsm.totalBlocks ≤ u64 (blockOffset + lengthInBlocks) then pure 0
  else
    let (tree, blockOffset) := fsmBtreeLookup fsm.tree blockOffset lengthInBlocks
    Code.modify fun fsm => { fsm with tree := tree }
    if blockOffset = 0 then pure 0
    else do
      Code.haltOn (fsm.OffPages blockOffset lengthInBlocks)
      Code.modify fun fsm => { fsm with
        freeBlocksCount := u64Sub fsm.freeBlocksCount lengthInBlocks
      }
      takeBits blockOffset lengthInBlocks
      pure blockOffset

-- The end of a call that finds the bitmap wrong.
def efaultOrBug (fsm : FsmInfo) : Driver FsmInfo Unit :=
  if fsm.isMountFinished then Code.halt else Code.fail .efault

-- The loop of fsm_free_block_chunk over the blocks from `x` on. The index is an unsigned int.
def freeBits (x : Nat) : Nat → Driver FsmInfo Unit
  | 0     => pure ()
  | n + 1 => do
    let fsm ← Code.get
    let index := u32 x
    if fsm.bitLimit ≤ index then efaultOrBug fsm
    else if !testBit fsm.data index then efaultOrBug fsm
    else do
      Code.modify fun fsm => { fsm with data := clearBit fsm.data index }
      freeBits (x + 1) n

def fsmFreeBlockChunk (blockOffset lengthInBlocks : Nat) : Driver FsmInfo Unit := do
  let fsm ← Code.get
  Code.haltOn (fsm.OffPages blockOffset lengthInBlocks)
  Code.modify fun fsm => { fsm with
    tree            := fsmBtreeFree fsm.tree blockOffset lengthInBlocks
    freeBlocksCount := u64 (fsm.freeBlocksCount + lengthInBlocks)
  }
  freeBits blockOffset lengthInBlocks

-- emmcfs_fsm_put_free_block differs from emmcfs_fsm_free_exttree_extent by the inode, of which it
-- gives up the preallocated blocks.
def fsmPutFreeBlock (blockOffset lengthInBlocks : Nat) : Driver FsmInfo Unit :=
  fsmFreeBlockChunk blockOffset lengthInBlocks

def fsmFreeExttreeExtent (offset length : Nat) : Driver FsmInfo Unit :=
  fsmFreeBlockChunk offset length

section Tree

-- fsm_insert; the -1 that it returns is -EPERM.
def fsmInsert (blockOffset length : Nat) : Driver FsmInfo Unit := do
  let fsm ← Code.get
  let (tree, err) := fsmBtreeInsert fsmBtreeCmpFn fsm.tree ⟨blockOffset, length⟩
  Code.modify fun fsm => { fsm with tree := tree }
  if err.isSome then Code.fail .eperm
  else Code.modify fun fsm => { fsm with freeBlocksCount := u64 (fsm.freeBlocksCount + length) }

def fsmInsertAnyway (blockOffset length : Nat) : Driver FsmInfo Unit :=
  Code.onFail (fsmInsert blockOffset length) fun _ => pure ()

inductive FindMode
  | clearBit | setBit
  deriving DecidableEq

-- The lowest clear bit, and one more than the lowest set bit.
def ffz (word : BitVec 32) : Nat :=
  (List.range 32).findIdx fun i => !word.getLsbD i

def ffs (word : BitVec 32) : Nat :=
  ((List.range 32).findIdx fun i => word.getLsbD i) + 1

-- The scanner between two bits: what it looks for and where the current free chunk starts.
abbrev Scan := FindMode × Nat

-- The inner loop of fsm_get_tree over the bits of word `i`.
def scanWord (i : Nat) (word : BitVec 32) : (fuel off : Nat) → Scan → Driver FsmInfo Scan
  | 0, _, scan                        => pure scan
  | fuel + 1, off, (mode, freeStart)  =>
    if 32 ≤ off then pure (mode, freeStart)
    else
      match mode with
      | .clearBit =>
        if off = 0 then
          if word = BitVec.allOnes 32 then pure (mode, freeStart)
          else
            let off := ffz word
            scanWord i word fuel (off + 1) (.setBit, i <<< 5 + off)
        else if !word.getLsbD off then scanWord i word fuel (off + 1) (.setBit, i <<< 5 + off)
        else scanWord i word fuel (off + 1) (mode, freeStart)
      | .setBit =>
        if off = 0 then
          if word = 0#32 then pure (mode, freeStart)
          else do
            let off := ffs word - 1
            fsmInsert freeStart (i <<< 5 + off - freeStart)
            scanWord i word fuel (off + 1) (.clearBit, freeStart)
        else if word.getLsbD off then do
          fsmInsertAnyway freeStart (i <<< 5 + off - freeStart)
          scanWord i word fuel (off + 1) (.clearBit, freeStart)
        else scanWord i word fuel (off + 1) (mode, freeStart)

def scanWords : (n i : Nat) → Scan → Driver FsmInfo Scan
  | 0, _, scan     => pure scan
  | n + 1, i, scan => do
    let fsm ← Code.get
    let scan ← scanWord i (fsm.data i) 32 0 scan
    scanWords n (i + 1) scan

-- The loop over the bits of the bytes behind the last whole word.
def scanRest (i : Nat) (word : BitVec 32) : (n off : Nat) → Scan → Driver FsmInfo Scan
  | 0, _, scan                    => pure scan
  | n + 1, off, (mode, freeStart) =>
    match mode with
    | .setBit =>
      if word.getLsbD off then do
        fsmInsertAnyway freeStart (i <<< 5 + off - freeStart)
        scanRest i word n (off + 1) (.clearBit, freeStart)
      else scanRest i word n (off + 1) (mode, freeStart)
    | .clearBit =>
      if !word.getLsbD off then scanRest i word n (off + 1) (.setBit, i <<< 5 + off)
      else scanRest i word n (off + 1) (mode, freeStart)

def fsmGetTree : Driver FsmInfo Unit := do
  let fsm ← Code.get
  let size := fsm.lengthInBytes >>> 2
  let restSize := fsm.lengthInBytes - size <<< 2
  Code.modify fun fsm => { fsm with freeBlocksCount := 0 }
  let scan ← scanWords size 0 (.clearBit, 0)
  let (mode, freeStart) ← scanRest size (fsm.data size) (restSize * 8) 0 scan
  if mode = .setBit then fsmInsertAnyway freeStart (size <<< 5 + restSize * 8 - freeStart)
  else pure ()

end Tree

end Emmcfs
