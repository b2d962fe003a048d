import EmmcfsModel.Extents.GetBlock

namespace Emmcfs

-- A page in the page cache by the contents of its blocks, with the number of its buffers that are
-- mapped.
structure CachedPage where
  blocks : List Nat
  mapped : Nat
  deriving DecidableEq, Repr

-- The special file with the inode numbers or that with the hardlinks: its blocks, what is on the
-- device, and its pages in the page cache. The requests for memory end as the outcomes say, one after
-- the other; when there are no more entries they succeed.
structure PagedFile where
  map      : BlockMap
  device   : Nat → Nat
  cache    : Nat → Option CachedPage
  outcomes : List (Option Errno)

abbrev PageCode (α : Type) := Driver PagedFile α

def blocksPerPage (blockSize : BlockSize) : Nat :=
  1 <<< (pageCacheShift - blockSize.shift)

namespace PagedFile

def onMap (m : MapCode α) : PageCode α :=
  Code.zoom (·.map) (fun map s => { s with map }) m

def request : PageCode Unit := do
  let s ← Code.get
  match s.outcomes with
  | []            => pure ()
  | o :: outcomes => do
    Code.modify fun s => { s with outcomes }
    o.elim (pure ()) Code.fail

def setPage (pageIndex : Nat) (page : CachedPage) (s : PagedFile) : PagedFile :=
  { s with cache := fun i => if i = pageIndex then some page else s.cache i }

section Pages

variable (blockSize : BlockSize) (ino : Nat)

-- The blocks of a page that mpage_readpage reads. A block behind the end of the file is a hole, and
-- when emmcfs_get_block fails the page cannot be read.
def readBlocks : (iblock n : Nat) → PageCode (List Nat)
  | _, 0          => pure []
  | iblock, n + 1 => do
    let mapped ← Code.onFail (onMap (BlockMap.getBlock ino iblock false)) fun _ => Code.fail .eio
    let s ← Code.get
    let blocks ← readBlocks (u64 (iblock + 1)) n
    pure (mapped.elim 0 (fun m => s.device m.block) :: blocks)

def firstIblock (pageIndex : Nat) : Nat :=
  u64 (pageIndex <<< (pageCacheShift - blockSize.shift))

-- read_mapping_page
def readMappingPage (pageIndex : Nat) : PageCode (List Nat) := do
  let s ← Code.get
  match s.cache pageIndex with
  | some page => pure page.blocks
  | none      => do
    request
    let blocks ← readBlocks ino (firstIblock blockSize pageIndex) (blocksPerPage blockSize)
    Code.modify (setPage pageIndex ⟨blocks, 0⟩)
    pure blocks

-- The loop of emmcfs_alloc_new_page over the buffers that are not mapped yet. The block that it asks
-- for goes on with these buffers only.
def mapBuffers (pageIndex : Nat) (page : CachedPage) : (iblock n : Nat) → PageCode Unit
  | _, 0          => pure ()
  | iblock, n + 1 => do
    let _ ← onMap (BlockMap.getBlock ino iblock true)
    let page := { page with mapped := page.mapped + 1 }
    Code.modify (setPage pageIndex page)
    mapBuffers pageIndex page (u64 (iblock + 1)) n

-- emmcfs_alloc_new_page; a page that is not in the cache is created full of zeros.
def allocNewPage (pageIndex : Nat) : PageCode (List Nat) := do
  request
  let s ← Code.get
  let page := (s.cache pageIndex).getD ⟨List.replicate (blocksPerPage blockSize) 0, 0⟩
  Code.modify (setPage pageIndex page)
  mapBuffers ino pageIndex page (firstIblock blockSize pageIndex)
    (blocksPerPage blockSize - page.mapped)
  pure page.blocks

-- emmcfs_read_create_page
def readCreatePage (pageIndex : Nat) : PageCode (List Nat) := do
  let s ← Code.get
  let blockIndex := u32 (pageIndex <<< (pageCacheShift - blockSize.shift))
  if (s.map.volume.forks ino).totalBlockCount ≤ blockIndex then
    allocNewPage blockSize ino pageIndex
  else readMappingPage blockSize ino pageIndex

end Pages

def totalBlockCount (ino : Nat) (s : PagedFile) : Nat :=
  (s.map.volume.forks ino).totalBlockCount

def logBlocksInLeb (s : PagedFile) : Nat :=
  s.map.volume.fsm.logBlocksInLeb

-- What happens to the pages of a file: get_free_inode, obtain_hlink_id, get_hlink_value_page and the
-- functions that free a number obtain one and change it, or fail to obtain it.
inductive PageCall
  | obtained (pageIndex : Nat) (blocks : List Nat)
  | failed (pageIndex : Nat)
  | other
  deriving DecidableEq, Repr

def PageCall.page? : PageCall → Option Nat
  | .obtained p _ => some p
  | .failed p     => some p
  | .other        => none

-- In between other files can change, and what is on the device.
inductive PageStep (blockSize : BlockSize) (ino : Nat) : PagedFile → PageCall → PagedFile → Prop
  | obtain : readCreatePage blockSize ino p s = .ok blocks s' → s'.cache p = some page →
    PageStep blockSize ino s (.obtained p blocks) (s'.setPage p { page with blocks := blocks' })
  | error : readCreatePage blockSize ino p s = .fail errno s' →
    PageStep blockSize ino s (.failed p) s'
  | other : s'.totalBlockCount ino = s.totalBlockCount ino →
    s'.logBlocksInLeb = s.logBlocksInLeb → s'.cache = s.cache → PageStep blockSize ino s .other s'

-- A file when the volume has been mounted: it consists of whole LEBs, and pages behind its end are
-- not in the cache. The number of blocks in a LEB is an int.
structure Mounted (blockSize : BlockSize) (ino : Nat) (s : PagedFile) : Prop where
  log   : s.logBlocksInLeb < 31
  total : 2 ^ s.logBlocksInLeb ∣ s.totalBlockCount ino
  cache : ∀ p page, s.cache p = some page → p * blocksPerPage blockSize < s.totalBlockCount ino

-- No other page has been asked for that ends in the LEB in which page `p` starts, or in a later one.
def Ahead (blockSize : BlockSize) (g : Nat) (calls : List PageCall) (p : Nat) : Prop :=
  ∀ call ∈ calls, ∀ q ∈ call.page?, q ≠ p →
    Expansion.lebEnd g ((q + 1) * blocksPerPage blockSize) ≤ p * blocksPerPage blockSize

-- Every call gets its page, and total_block_count can hold the length of the file.
def Undisturbed (blockSize : BlockSize) (g : Nat) (calls : List PageCall) : Prop :=
  ∀ call ∈ calls, ∀ q ∈ call.page?, (∃ blocks, call = .obtained q blocks) ∧
    Expansion.lebEnd g ((q + 1) * blocksPerPage blockSize) < 2 ^ 32

end PagedFile

end Emmcfs
