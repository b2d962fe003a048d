import EmmcfsModel.Basic
import EmmcfsModel.Catalog.Key

namespace Emmcfs

deriving instance DecidableEq for CattreeKey

-- What filldir is given.
inductive DirEntry
  | dot | dotDot
  | child (key : CattreeKey)
  deriving DecidableEq

-- The part of an open directory that readdir keeps: f_pos, and the key in private_data with which
-- the next call goes on.
structure DirFile where
  fPos        : Nat
  privateData : Option CattreeKey
  deriving DecidableEq

-- The leaf records of the catalog tree, in the order of the tree.
abbrev CatalogRecords := List CattreeKey

namespace CatalogRecords

-- emmcfs_btree_find: the place of the last record that is not above the key, the first one if there
-- is none. An empty tree has -EINVAL.
def btreeFind (fold : BitVec 8 → BitVec 8) (recs : CatalogRecords) (key : CattreeKey) :
    Except Errno Nat :=
  if recs = [] then .error .einval
  else .ok (recs.countP (cattreeCmp fold · key ≤ 0) - 1)

-- The search key of emmcfs_find_first_catalog_child.
def firstKey (ino : BitVec 64) : CattreeKey := ⟨ino, [], Nat.zero_le _⟩

def findFirstCatalogChild (fold : BitVec 8 → BitVec 8) (recs : CatalogRecords) (ino : BitVec 64) :
    Except Errno Nat := do
  let pos ← recs.btreeFind fold (firstKey ino)
  if recs[pos]?.map (·.parentId) = some ino then return pos
  -- the next record, if there is one
  if recs[pos + 1]?.map (·.parentId) = some ino then return pos + 1
  else throw .enoent

end CatalogRecords

-- How the loop of readdir ends: at a record that is not in the directory, at an entry that filldir
-- refuses, or after the last entry.
inductive ScanEnd
  | leftDirectory
  | refused (key : CattreeKey)
  | finished

-- The loop of emmcfs_readdir at a record, with those that follow. `accepts n` is whether the n-th
-- call of filldir, counted from 0 in each readdir, takes its entry.
def scanLoop (ino : BitVec 64) (accepts : Nat → Bool) :
    Nat → CattreeKey → CatalogRecords → List DirEntry × ScanEnd
  | n, key, rest =>
    if key.parentId ≠ ino then ([], .leftDirectory)
    else if !accepts n then ([], .refused key)
    else match rest with
      | []           => ([.child key], .finished)
      | next :: rest =>
        if next.parentId ≠ ino then ([.child key], .finished)
        else
          let (listed, last) := scanLoop ino accepts (n + 1) next rest
          (.child key :: listed, last)

-- Whether the buffer has to be allocated anew for a key.
def bufferTooSmall (privateData : Option CattreeKey) (key : CattreeKey) : Bool :=
  match privateData with
  | none     => true
  | some old => old.name.length ≤ key.name.length

structure ReaddirResult where
  ret    : Except Errno Unit
  file   : DirFile
  listed : List DirEntry

-- What is left of emmcfs_readdir after its loop. `allocates` is the outcome of kmalloc.
def finishScan (file : DirFile) (allocates : Bool) (listed : List DirEntry) :
    ScanEnd → ReaddirResult
  | .leftDirectory => ⟨.ok (), file, listed⟩
  | .finished      => ⟨.ok (), { file with privateData := none }, listed⟩
  | .refused key   =>
    if bufferTooSmall file.privateData key && !allocates then
      ⟨.error .enomem, { file with privateData := none }, listed⟩
    else ⟨.ok (), { file with privateData := some key }, listed⟩

-- Where a call of readdir goes on.
def startPos (fold : BitVec 8 → BitVec 8) (ino : BitVec 64) (recs : CatalogRecords) :
    Option CattreeKey → Except Errno Nat
  | none     => recs.findFirstCatalogChild fold ino
  | some key => recs.btreeFind fold key

-- emmcfs_readdir from the lock on, with the number of calls of filldir before.
def readChildren (fold : BitVec 8 → BitVec 8) (ino : BitVec 64) (recs : CatalogRecords)
    (accepts : Nat → Bool) (allocates : Bool) (n : Nat) (file : DirFile) : ReaddirResult :=
  match startPos fold ino recs file.privateData with
  | .error err => ⟨.error err, file, []⟩
  | .ok pos    =>
    match recs.drop pos with
    | []          => ⟨.error .einval, file, []⟩
    | key :: rest =>
      let (listed, last) := scanLoop ino accepts n key rest
      finishScan file allocates listed last

namespace ReaddirResult

def after (entry : DirEntry) (result : ReaddirResult) : ReaddirResult :=
  { result with listed := entry :: result.listed }

end ReaddirResult

-- emmcfs_readdir of the directory `ino`. f_pos is advanced before filldir has answered.
def readdir (fold : BitVec 8 → BitVec 8) (ino : BitVec 64) (recs : CatalogRecords)
    (accepts : Nat → Bool) (allocates : Bool) (file : DirFile) : ReaddirResult :=
  let children := readChildren fold ino recs accepts allocates
  match file.fPos with
  | 0 =>
    if !accepts 0 then ⟨.ok (), { file with fPos := 1 }, []⟩
    else if !accepts 1 then ⟨.ok (), { file with fPos := 2 }, [.dot]⟩
    else children 2 { file with fPos := 2 } |>.after .dotDot |>.after .dot
  | 1 =>
    if !accepts 0 then ⟨.ok (), { file with fPos := 2 }, []⟩
    else children 1 { file with fPos := 2 } |>.after .dotDot
  | _ =>
    if file.privateData = none then ⟨.ok (), file, []⟩
    else children 0 file

-- A scan of a directory: the catalog, the open file, and the entries that filldir has taken.
structure DirScan where
  recs   : CatalogRecords
  file   : DirFile
  listed : List DirEntry

-- A call of readdir with what filldir and kmalloc do in it, or the removal of a name.
inductive ScanEvent
  | readdir (accepts : Nat → Bool) (allocates : Bool)
  | unlink (key : CattreeKey)

namespace DirScan

def start (recs : CatalogRecords) : DirScan := ⟨recs, ⟨0, none⟩, []⟩

def step (fold : BitVec 8 → BitVec 8) (ino : BitVec 64) (s : DirScan) : ScanEvent → DirScan
  | .readdir accepts allocates =>
    let result := readdir fold ino s.recs accepts allocates s.file
    { s with file := result.file, listed := s.listed ++ result.listed }
  | .unlink key => { s with recs := s.recs.filter (cattreeCmp fold · key ≠ 0) }

-- The next readdir reports the end.
def AtEnd (s : DirScan) : Prop := 2 ≤ s.file.fPos ∧ s.file.privateData = none

instance : DecidablePred AtEnd := fun _ => inferInstanceAs (Decidable (_ ∧ _))

end DirScan

end Emmcfs
