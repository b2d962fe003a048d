import EmmcfsModel.Basic

namespace Emmcfs

-- BIO_MAX_PAGES
def bioMaxPages : Nat := 256

inductive TransferDir
  | read | write
  deriving DecidableEq, Repr

-- A page of the caller that a bio has moved from or to a sector.
structure PageTransfer where
  dir    : TransferDir
  page   : Nat
  sector : Nat
  deriving DecidableEq, Repr

-- The number of sectors of a block device, whose i_size is a loff_t, and for each bio, one after the
-- other, how many pages bio_add_page puts into it, or none if bio_alloc returns NULL. When there are no
-- more entries a bio takes as many pages as it has vectors. What was transferred is kept.
structure BioQueue where
  sectorCount : Nat
  sectors_lt  : sectorCount < 2 ^ 54
  limits      : List (Option Nat)
  transferred : List PageTransfer
  deriving DecidableEq, Repr

abbrev BioCode (α : Type) := Driver BioQueue α

namespace BioQueue

-- allocate_new_bio; the number of pages that the bio takes, none for NULL. A task that may use the
-- reserves can get a bio with fewer vectors than it wants.
def allocateNewBio (firstSector nrVecs : Nat) : BioCode (Option Nat) := do
  let s ← Code.get
  if s.sectorCount < firstSector ∨ s.sectorCount < u64 (firstSector + nrVecs) then
    Code.fail .efault
  else match s.limits with
    | []          => pure (some nrVecs)
    | o :: limits => do
      Code.modify fun s => { s with limits }
      pure (o.map (min nrVecs))

-- submit_bio with `added` pages from the page `count` on, which lie one behind the other on the
-- device.
def submitBio (dir : TransferDir) (sector count added : Nat) : BioCode Unit :=
  Code.modify fun s => { s with
    transferred := s.transferred ++ (List.range added).map fun i =>
      ⟨dir, count + i, sector + sectorPerPage * i⟩ }

section Pages

variable (dir : TransferDir) (pageCount : Nat)

def nrVectr : Nat :=
  if pageCount < bioMaxPages then pageCount else bioMaxPages

-- The code behind the label `again`, with the sector and the number of pages that have been dealt
-- with. PTR_ERR of NULL is 0. Every round but the last one deals with a page or more.
def transferFrom : (rounds startSector count : Nat) → BioCode Unit
  | 0, _, _                          => Code.halt
  | rounds + 1, startSector, count => do
    match ← allocateNewBio startSector (nrVectr pageCount) with
    | none       => pure ()
    | some limit =>
      let added := min limit (pageCount - count)
      if count + added < pageCount then
        if added = 0 then Code.fail .efault
        else do
          submitBio dir startSector count added
          transferFrom rounds
            (u64 (startSector + u32 ((count + added) <<< (pageCacheShift - sectorSizeShift))))
            (count + added)
      else submitBio dir startSector count added

def transferPages (startSector : Nat) : BioCode Unit :=
  transferFrom dir pageCount (pageCount + 1) startSector 0

end Pages

-- emmcfs_write_snapshot_pages; its mode decides who waits for the end of the writes only.
def writeSnapshotPages (startSector pageCount : Nat) : BioCode Unit :=
  transferPages .write pageCount startSector

-- emmcfs_read_pages
def readPages (sectorAddr pageCount : Nat) : BioCode Unit :=
  transferPages .read pageCount sectorAddr

-- Every page once, the page `k` at the sector `start + 8 * k`.
def inPlace (dir : TransferDir) (start pageCount : Nat) : List PageTransfer :=
  (List.range pageCount).map fun k => ⟨dir, k, start + sectorPerPage * k⟩

def TransfersInPlace (m : BioCode Unit) (dir : TransferDir) (start pageCount : Nat)
    (s : BioQueue) : Prop :=
  ∃ s', m s = .ok () s' ∧ s'.transferred = s.transferred ++ inPlace dir start pageCount

-- Every bio is allocated and takes a page.
def Accepts (s : BioQueue) : Prop :=
  ∀ o ∈ s.limits, ∃ n > 0, o = some n

-- The pages that the bio `i` of a transfer takes at most.
def room (s : BioQueue) (pageCount i : Nat) : Nat :=
  (s.limits[i]?.map fun o => min (nrVectr pageCount) (o.getD 0)).getD (nrVectr pageCount)

-- Two bios take all pages, and both are at places where allocate_new_bio sees room for the whole
-- transfer's vectors.
structure InTwoBios (start pageCount : Nat) (s : BioQueue) : Prop where
  first  : start + nrVectr pageCount ≤ s.sectorCount
  second : s.room pageCount 0 < pageCount →
    start + sectorPerPage * s.room pageCount 0 + nrVectr pageCount ≤ s.sectorCount ∧
    pageCount ≤ s.room pageCount 0 + s.room pageCount 1

end BioQueue

end Emmcfs
