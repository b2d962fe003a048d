import EmmcfsModel.Inode.Numbers

namespace Emmcfs.BitmapFile

-- EMMCFS_LOG_HLINKS_PER_PAGE, EMMCFS_LOG_ONE_HLINK_DATA_SZ and INVALID_HLINK_ID
def logHlinksPerPage : Nat := 2
def logOneHlinkDataSz : Nat := pageCacheShift - logHlinksPerPage
def invalidHlinkId : Nat := 2 ^ 64 - 1

-- The page with the record of a hardlink and where the record begins in it. The chunk number is an
-- int that ids below 2 ^ 31 keep small.
def hlinkValuePage (hlinkId : Nat) : Nat × Nat :=
  let chunkN := u32 (hlinkId >>> logBitsPerPage)
  let pageIndex := (chunkN <<< (logBitsPerPage - logHlinksPerPage)) + chunkN + 1 +
    (hlinkId % bitsPerPage) >>> logHlinksPerPage
  let pageOffset := (hlinkId % 2 ^ logHlinksPerPage) <<< logOneHlinkDataSz
  (pageIndex, pageOffset % 2 ^ 16)

-- EMMCFS_BUG_ON around a request.
def bugOnRequest : Driver BitmapFile Unit :=
  Code.onFail request fun _ => Code.halt

-- A page whose loss is noticed by the caller.
def tryPage (pageIndex : Nat) : Driver BitmapFile (Option Nat) :=
  Code.onFail (do
    let data ← readCreatePage pageIndex
    pure (some data)) fun _ => pure none

-- The loop of obtain_hlink_id, none while it still searches. The bitmap of a chunk is its first page.
def obtainHlinkIdLoop : (fuel findFrom chunkN : Nat) → Driver BitmapFile (Option Nat)
  | 0, _, _                   => pure none
  | fuel + 1, findFrom, chunkN => do
    let pageIndex := u64 (u64 (chunkN <<< (logBitsPerPage - logHlinksPerPage)) + chunkN)
    let idOffset := u64 (chunkN <<< logBitsPerPage)
    match ← tryPage pageIndex with
    | none      => pure (some invalidHlinkId)
    | some data => do
      let next := obtainHlinkIdLoop fuel 0 (u64 (chunkN + 1))
      let res := findNextZeroBit data (bitsPerPage - findFrom) findFrom
      if res < bitsPerPage then do
        bugOnRequest
        Code.haltOn (data.testBit res = true)
        let id := u64 (res + idOffset)
        Code.modify fun s => { s with
          pages    := s.pages.set pageIndex (data ||| 1 <<< res)
          lastUsed := id }
        if id = invalidHlinkId then next else pure (some id)
      else next

-- obtain_hlink_id; so many chunks hold the ids below 2 ^ 31.
def obtainHlinkId : Driver BitmapFile (Option Nat) := do
  let s ← Code.get
  obtainHlinkIdLoop (2 ^ 16) (s.lastUsed % bitsPerPage) (s.lastUsed >>> logBitsPerPage)

-- memcpy of `len` bits into a page.
def copyBits (page start len data : Nat) : Nat :=
  page % 2 ^ start ||| (data % 2 ^ len) <<< start ||| (page >>> (start + len)) <<< (start + len)

def cloneDataIntoHlinkArea (size : Nat) (data : BitVec (8 * size)) :
    Driver BitmapFile (Option Nat) := do
  match ← obtainHlinkId with
  | none        => pure none
  | some result =>
    if result = invalidHlinkId then pure (some invalidHlinkId)
    else do
      let (pageIndex, pageOffset) := hlinkValuePage result
      match ← tryPage pageIndex with
      | none   => pure (some invalidHlinkId)
      | some _ => do
        bugOnRequest
        Code.haltOn (1 <<< logOneHlinkDataSz < size)
        Code.modify fun s => { s with
          pages := s.pages.set pageIndex
            (copyBits (s.pages.get pageIndex) (8 * pageOffset) (8 * size) data.toNat) }
        pure (some result)

def freeHlinkData (hlinkId : Nat) : Driver BitmapFile Unit := do
  let chunkN := u32 (hlinkId >>> logBitsPerPage)
  let pageIndex := (chunkN <<< (logBitsPerPage - logHlinksPerPage)) + chunkN
  let bit := u64Sub hlinkId (chunkN <<< logBitsPerPage)
  let data ← readCreatePage pageIndex
  request
  Code.haltOn (data.testBit bit = false)
  Code.modify fun s => { s with
    pages    := s.pages.set pageIndex (data ^^^ 1 <<< bit)
    lastUsed := if hlinkId < s.lastUsed then hlinkId else s.lastUsed }

-- What the file holds. A chunk is a page with the bits of its ids and 8192 pages with their records.
def hlinkBitmap (s : BitmapFile) (chunkN : Nat) : Nat :=
  s.pages.get (8193 * chunkN)

def hlinkUsed (s : BitmapFile) (id : Nat) : Bool :=
  Bitmap.bit bitsPerPage s.hlinkBitmap id

def hlinkRecord (s : BitmapFile) (id : Nat) : Nat :=
  (s.pages.get (hlinkValuePage id).1 >>> (8 * (hlinkValuePage id).2)) % 2 ^ (8 * 1024)

-- The records of the hardlinks by their ids.
def hlinks (s : BitmapFile) (id : Nat) : Option Nat :=
  if id < 2 ^ 31 ∧ s.hlinkUsed id then some (s.hlinkRecord id) else none

-- The bytes of the file that belong to an id.
def hlinkSlot (id : Nat) : Set (Nat × Nat) :=
  { place | place.1 = (hlinkValuePage id).1 ∧ (hlinkValuePage id).2 ≤ place.2 ∧
    place.2 < (hlinkValuePage id).2 + 1024 }

-- A call that has come to an end, with the id that it returned.
inductive HlinkCall
  | obtain (i : Nat)
  | clone (i size : Nat) (data : BitVec (8 * size))
  | free (i : Nat)
  | error

-- The ids stay below 2 ^ 31: one of them is free for each call that needs an id.
def hasFreeHlink (s : BitmapFile) : Prop :=
  ∃ i < 2 ^ 31, s.hlinkUsed i = false

inductive HlinkStep : BitmapFile → HlinkCall → BitmapFile → Prop
  | obtain : s.hasFreeHlink → obtainHlinkId s = .ok (some i) s' → i ≠ invalidHlinkId →
    HlinkStep s (.obtain i) s'
  | obtainError : s.hasFreeHlink → obtainHlinkId s = .ok (some invalidHlinkId) s' →
    HlinkStep s .error s'
  | clone : s.hasFreeHlink → cloneDataIntoHlinkArea size data s = .ok (some i) s' →
    i ≠ invalidHlinkId → HlinkStep s (.clone i size data) s'
  | cloneError : s.hasFreeHlink →
    cloneDataIntoHlinkArea size data s = .ok (some invalidHlinkId) s' → HlinkStep s .error s'
  | free : i < 2 ^ 31 → freeHlinkData i s = .ok () s' → HlinkStep s (.free i) s'
  | freeError : i < 2 ^ 31 → freeHlinkData i s = .fail errno s' → HlinkStep s .error s'

-- The same calls on a map from ids to records. An id that is lost when the page of its record cannot
-- be read stays in use.
inductive RecordStep : (Nat → Option Nat) → HlinkCall → (Nat → Option Nat) → Prop
  | obtain : m i = none → RecordStep m (.obtain i) (Function.update m i (some r))
  | clone {data : BitVec (8 * size)} : m i = none → r % 2 ^ (8 * size) = data.toNat →
    RecordStep m (.clone i size data) (Function.update m i (some r))
  | free : m i = some r → RecordStep m (.free i) (Function.update m i none)
  | lost : m i = none → RecordStep m .error (Function.update m i (some r))
  | error : RecordStep m .error m

-- The ids that have been returned and not freed, the last one first.
def liveAfter (ids : List Nat) : HlinkCall → List Nat
  | .obtain i    => i :: ids
  | .clone i _ _ => i :: ids
  | .free i      => ids.erase i
  | .error       => ids

def liveIds (calls : List HlinkCall) : List Nat :=
  calls.foldl liveAfter []

end Emmcfs.BitmapFile
