import EmmcfsModel.Inode.Basic
import EmmcfsModel.Lib.Table
import EmmcfsModel.Lib.Bitmap

namespace Emmcfs

-- EMMCFS_LOG_BITS_PER_PAGE and what EMMCFS_BITMAP_PAGE_MASK keeps of a number.
def logBitsPerPage : Nat := 3 + pageCacheShift
def bitsPerPage : Nat := 2 ^ logBitsPerPage

-- A special file with a bitmap, and the number that is remembered beside it. A page is a row of
-- bits, and a page that is touched for the first time is empty. The requests for pages and for room
-- in the transaction end as the outcomes say, one after the other; when there are no more entries
-- they succeed.
structure BitmapFile where
  pages    : Table Nat
  lastUsed : Nat
  outcomes : List (Option Errno)
  deriving DecidableEq, Repr

namespace BitmapFile

def request : Driver BitmapFile Unit := do
  let s ← Code.get
  match s.outcomes with
  | []            => pure ()
  | o :: outcomes => do
    Code.modify fun s => { s with outcomes }
    o.elim (pure ()) Code.fail

-- emmcfs_read_create_page
def readCreatePage (pageIndex : Nat) : Driver BitmapFile Nat := do
  request
  Code.gets (·.pages.get pageIndex)

-- The loop of get_free_inode, none while it still searches. An inode number of 0 stands for "not
-- found", and with it the loop goes on.
def getFreeInodeLoop : (fuel pageIndex idOffset findFrom : Nat) → Driver BitmapFile (Option Nat)
  | 0, _, _, _                               => pure none
  | fuel + 1, pageIndex, idOffset, findFrom => do
    let data ← readCreatePage pageIndex
    request
    let pageIndex' := u32 (pageIndex + 1)
    let next := getFreeInodeLoop fuel pageIndex' (u32 (pageIndex' <<< logBitsPerPage)) 0
    let bit := findNextZeroBit data (bitsPerPage - findFrom) findFrom
    if bit < bitsPerPage then do
      Code.haltOn (bit + idOffset < firstFileIno)
      Code.haltOn (data.testBit bit = true)
      -- both are below 2 ^ 32
      let ino := bit + idOffset
      Code.modify fun s => { s with
        pages    := s.pages.set pageIndex (data ||| 1 <<< bit)
        lastUsed := ino }
      if ino = 0 then next else pure (some ino)
    else next

-- get_free_inode; so many pages hold the bits of all numbers below 2 ^ 32.
def getFreeInode : Driver BitmapFile (Option Nat) := do
  let s ← Code.get
  let idOffset := u32 (s.lastUsed - s.lastUsed % bitsPerPage)
  getFreeInodeLoop (2 ^ 17) (u32 (s.lastUsed >>> logBitsPerPage)) idOffset
    (u64Sub s.lastUsed idOffset)

-- emmcfs_free_inode_n
def freeInodeN (inodeN : Nat) : Driver BitmapFile Unit := do
  let pageIndex := u32 (inodeN >>> logBitsPerPage)
  let bit := u64Sub inodeN (u32 (inodeN - inodeN % bitsPerPage))
  let data ← readCreatePage pageIndex
  request
  Code.haltOn (data.testBit bit = false)
  Code.modify fun s => { s with
    pages    := s.pages.set pageIndex (data ^^^ 1 <<< bit)
    lastUsed := if inodeN < s.lastUsed then inodeN else s.lastUsed }

-- The bit of an inode number.
def inUse (s : BitmapFile) (ino : Nat) : Bool :=
  Bitmap.bit bitsPerPage s.pages.get ino

-- The inode numbers that can be given out.
def freeInos (s : BitmapFile) : Set Nat :=
  { ino | firstFileIno ≤ ino ∧ s.inUse ino = false }

-- Calls of the two functions that have come to an end, with what get_free_inode returned. The numbers
-- stay below 2 ^ 32: one of them is free for each call of get_free_inode.
inductive InoCall
  | get (ino : Nat)
  | free (ino : Nat)
  | error (errno : Errno)
  deriving DecidableEq, Repr

inductive InoStep : BitmapFile → InoCall → BitmapFile → Prop
  | get : (∃ i ∈ s.freeInos, i < 2 ^ 32) → getFreeInode s = .ok (some ino) s' →
    InoStep s (.get ino) s'
  | getError : (∃ i ∈ s.freeInos, i < 2 ^ 32) → getFreeInode s = .fail errno s' →
    InoStep s (.error errno) s'
  | free : firstFileIno ≤ ino → ino < 2 ^ 32 → s.inUse ino = true → freeInodeN ino s = .ok () s' →
    InoStep s (.free ino) s'
  | freeError : firstFileIno ≤ ino → ino < 2 ^ 32 → s.inUse ino = true →
    freeInodeN ino s = .fail errno s' → InoStep s (.error errno) s'

end BitmapFile

end Emmcfs
