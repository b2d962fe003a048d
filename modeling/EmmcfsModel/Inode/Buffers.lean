import EmmcfsModel.Extents.Append
import EmmcfsModel.Inode.Pages

namespace Emmcfs

-- A page of a file by its buffers, in the order of b_this_page, with the blocks that they are mapped
-- to. Those of a page that is not in the page cache, or has no buffers yet, are not mapped. `memory`
-- tells whether find_or_create_page returns the page.
structure BufferedPage (blockSize : BlockSize) where
  map     : BlockMap
  buffers : Fin (blocksPerPage blockSize) → Option Nat
  memory  : Bool

abbrev BufferCode (blockSize : BlockSize) (α : Type) := Driver (BufferedPage blockSize) α

namespace BufferedPage

variable {blockSize : BlockSize}

def onMap (m : MapCode α) : BufferCode blockSize α :=
  Code.zoom (·.map) (fun map s => { s with map }) m

def setBuffer (bh : Fin (blocksPerPage blockSize)) (block : Option Nat) (s : BufferedPage blockSize) :
    BufferedPage blockSize :=
  { s with buffers := Function.update s.buffers bh block }

-- The loop of emmcfs_alloc_new_page. Only a buffer that is not mapped takes a block from `iblock`.
def mapBuffers (ino : Nat) : List (Fin (blocksPerPage blockSize)) → (iblock : Nat) →
    BufferCode blockSize Unit
  | [], _             => pure ()
  | bh :: bhs, iblock => do
    let s ← Code.get
    if (s.buffers bh).isSome then mapBuffers ino bhs iblock
    else do
      let mapped ← onMap (BlockMap.getBlock ino iblock true)
      Code.modify (setBuffer bh (mapped.map (·.block)))
      mapBuffers ino bhs (u64 (iblock + 1))

-- emmcfs_alloc_new_page
def allocNewPage (ino pageIndex : Nat) : BufferCode blockSize Unit := do
  let s ← Code.get
  if s.memory then
    mapBuffers ino (List.finRange _) (PagedFile.firstIblock blockSize pageIndex)
  else Code.fail .enomem

-- The logical block of the file that a buffer is for.
def logicalBlock (pageIndex : Nat) (k : Fin (blocksPerPage blockSize)) : Nat :=
  pageIndex * blocksPerPage blockSize + k

section Mapping

variable (ino pageIndex : Nat) (s : BufferedPage blockSize)

-- The buffers that are mapped are mapped to the physical blocks of their own logical blocks.
def RightlyMapped : Prop :=
  ∀ k b, s.buffers k = some b → s.map.volume.IsBlock ino (logicalBlock pageIndex k) b

-- All of them are.
def FullyMapped : Prop :=
  ∀ k, ∃ b, s.buffers k = some b ∧ s.map.volume.IsBlock ino (logicalBlock pageIndex k) b

-- No buffer that is mapped stands before one that is not.
def MappedAtEnd : Prop :=
  ∀ i j, i < j → (s.buffers i).isSome → (s.buffers j).isSome

-- The file has the first block of the page, or is expanded up to it.
def Reaches : Prop :=
  let iblock := pageIndex * blocksPerPage blockSize
  iblock < (s.map.volume.forks ino).totalBlockCount ∨
    (iblock < 2 ^ 64 ∧ Expansion.Covers ino iblock s.map.volume)

end Mapping

end BufferedPage

end Emmcfs
