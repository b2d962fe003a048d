import EmmcfsModel.Namespace.Basic

namespace Emmcfs

-- A call while it runs: the transactions that are open, and what was on the volume when the
-- outermost one was closed, the last time first.
structure CallState where
  mount      : Mount
  level      : Nat
  boundaries : List Metadata

namespace CallState

-- EMMCFS_START_TRANSACTION and EMMCFS_STOP_TRANSACTION
def started (s : CallState) : CallState :=
  { s with level := s.level + 1 }

def stopped (s : CallState) : CallState :=
  { s with
    level      := s.level - 1
    boundaries := if s.level = 1 then s.mount.disk :: s.boundaries else s.boundaries }

end CallState

abbrev Namei (α : Type) := Driver CallState α

namespace Namei

-- An allocation, or an operation on a tree or a page, with the outcome that it has.
def attempt : Option Errno → Namei Unit
  | none   => pure ()
  | some e => Code.fail e

def failOn (c : Prop) [Decidable c] (e : Errno) : Namei Unit :=
  if c then Code.fail e else pure ()

-- A call whose result is not looked at.
def ignoring (m : Namei Unit) : Namei Unit :=
  Code.onFail m fun _ => pure ()

def bugOnFail (m : Namei α) : Namei α :=
  Code.onFail m fun _ => Code.halt

def disk : Namei Metadata :=
  Code.gets (·.mount.disk)

def modifyDisk (f : Metadata → Metadata) : Namei Unit :=
  Code.modify fun s => { s with mount.disk := f s.mount.disk }

-- An inode that the caller has a pointer to.
def inode (ino : Nat) : Namei VfsInode := fun s =>
  match s.mount.inodes ino with
  | some inode => .ok inode s
  | none       => .halt

def setInode (ino : Nat) (inode : Option VfsInode) : Namei Unit :=
  Code.modify fun s => { s with mount.inodes := Function.update s.mount.inodes ino inode }

def modifyInode (ino : Nat) (f : VfsInode → VfsInode) : Namei Unit := do
  setInode ino (some (f (← inode ino)))

-- A function's body in a transaction, which `goto exit` after a failure closes too.
def transaction (m : Namei α) : Namei α := do
  Code.modify CallState.started
  Code.onFail (do let a ← m; Code.modify CallState.stopped; pure a) fun e => do
    Code.modify CallState.stopped
    Code.fail e

end Namei

open Namei

section Records

def cattreeFind (outcome : Option Errno) (key : NameKey) : Namei NameRecord := do
  attempt outcome
  match (← disk).catalog.lookup key with
  | some r => pure r
  | none   => Code.fail .enoent

-- emmcfs_btree_insert and emmcfs_btree_remove on the catalog tree, which change nothing if they
-- fail.
def cattreeInsert (outcome : Option Errno) (key : NameKey) (r : NameRecord) : Namei Unit := do
  attempt outcome
  failOn (key ∈ (← disk).catalog) .eexist
  modifyDisk fun d => { d with catalog := d.catalog.insert key r }

def cattreeRemove (outcome : Option Errno) (key : NameKey) : Namei Unit := do
  attempt outcome
  failOn (key ∉ (← disk).catalog) .enoent
  modifyDisk fun d => { d with catalog := d.catalog.erase key }

-- `alloc` is the outcome of emmcfs_alloc_cattree_key.
def addNewCattreeObject (alloc insert : Option Errno) (ino : Nat) (key : NameKey) :
    Namei Unit := do
  Code.haltOn (ino < firstFileIno)
  let inode ← inode ino
  attempt alloc
  match inode.hlinkId with
  | none    => cattreeInsert insert key (.object (inode.fillCattreeValue ino))
  | some id => cattreeInsert insert key (.hlink id)

-- A slot whose bit is clear can be written too, but is not read before it is used again.
def writeHlinkSlot (id : Nat) (data : ObjectData) : Namei Unit :=
  modifyDisk fun d =>
    if id ∈ d.hardLinks then { d with hardLinks := d.hardLinks.insert id data } else d

-- The record that is overwritten is the one under the inode's parent_id and name.
def writeInodeToBnode (outcome : Option Errno) (ino : Nat) : Namei Unit := do
  if ino < firstFileIno then return ()
  let inode ← inode ino
  attempt outcome
  match inode.hlinkId, inode.name with
  | some id, _        => writeHlinkSlot id (inode.fillCattreeValue ino)
  | none,    none     => Code.halt
  | none,    some name =>
    let key := ⟨inode.parentId, name⟩
    failOn (key ∉ (← disk).catalog) .enoent
    modifyDisk fun d =>
      { d with catalog := d.catalog.insert key (.object (inode.fillCattreeValue ino)) }

-- emmcfs_free_inode_n
def freeInodeN (outcome : Option Errno) (ino : Nat) : Namei Unit := do
  attempt outcome
  Code.haltOn (ino ∉ (← disk).inodeBitmap)
  modifyDisk fun d => { d with inodeBitmap := d.inodeBitmap.erase ino }

end Records

section Create

structure CreateOutcomes where
  getFreeInode : Option Errno
  newInode     : Option Errno
  saveName     : Option Errno
  allocRecord  : Option Errno
  insert       : Option Errno
  freeInode    : Option Errno
  writeDir     : Option Errno

-- emmcfs_new_inode, where `ino` is the number that get_free_inode finds in the bitmap.
def newInode (o : CreateOutcomes) (kind : FileKind) (ino : Nat) : Namei Unit := do
  attempt o.getFreeInode
  Code.haltOn (ino < firstFileIno ∨ ino ∈ (← disk).inodeBitmap)
  modifyDisk fun d => { d with inodeBitmap := insert ino d.inodeBitmap }
  attempt o.newInode
  setInode ino (some ⟨kind, 1, 0, none, 0, none⟩)

-- EMMCFS_UNICODE_STRING_MAX_LEN, EMMCFS_FULL_PATH_LEN and EMMCFS_LINK_MAX
def unicodeStringMaxLen : Nat := 255
def fullPathLen : Nat := 1023
def linkMax : Nat := 32

-- emmcfs_create in the folder `dir`.
def create (o : CreateOutcomes) (dir : Nat) (name : List (BitVec 8)) (kind : FileKind)
    (ino : Nat) : Namei Unit := do
  failOn (unicodeStringMaxLen < name.length) .enametoolong
  transaction do
    newInode o kind ino
    attempt o.saveName
    modifyInode ino fun inode =>
      { inode with name := some name, parentId := dir, hlinkId := none }
    Code.onFail (addNewCattreeObject o.allocRecord o.insert ino ⟨dir, name⟩) fun e => do
      ignoring (freeInodeN o.freeInode ino)
      Code.fail e
    modifyInode dir fun inode => { inode with size := inode.size + 1 }
    writeInodeToBnode o.writeDir dir

def mkdir (o : CreateOutcomes) (dir : Nat) (name : List (BitVec 8)) (ino : Nat) : Namei Unit :=
  create o dir name .dir ino

-- `validDev` is the result of new_valid_dev. The device number is left out.
def mknod (o : CreateOutcomes) (writeInode : Option Errno) (validDev : Bool) (dir : Nat)
    (name : List (BitVec 8)) (kind : FileKind) (ino : Nat) : Namei Unit :=
  transaction do
    failOn (validDev = false) .einval
    create o dir name kind ino
    writeInodeToBnode writeInode ino

-- page_symlink writes the target's name into the new file.
def symlink (o : CreateOutcomes) (pageSymlink : Option Errno) (dir : Nat)
    (name symname : List (BitVec 8)) (ino : Nat) : Namei Unit := do
  failOn (fullPathLen < symname.length ∨ catMaxName < name.length) .enametoolong
  transaction do
    create o dir name .lnk ino
    attempt pageSymlink
    modifyDisk fun d => { d with forks := insert ino d.forks }

end Create

section Link

structure LinkOutcomes where
  findNew    : Option Errno
  findOld    : Option Errno
  getRecord  : Option Errno
  clone      : Option Errno
  allocKey   : Option Errno
  remove     : Option Errno
  addOld     : Option Errno
  addNew     : Option Errno
  writeDir   : Option Errno
  writeInode : Option Errno

-- clone_data_into_hlink_area, where `id` is the slot that obtain_hlink_id finds.
def cloneDataIntoHlinkArea (outcome : Option Errno) (id : Nat) (data : ObjectData) :
    Namei Unit := do
  Code.onFail (attempt outcome) fun _ => Code.fail .eio
  Code.haltOn (id ∈ (← disk).hardLinks)
  modifyDisk fun d => { d with hardLinks := d.hardLinks.insert id data }

-- The first link to an inode moves its record to the hardlink area.
def moveToHlinkArea (o : LinkOutcomes) (key : NameKey) (ino : Nat) (data : ObjectData) (id : Nat) :
    Namei Unit := do
  cloneDataIntoHlinkArea o.clone id data
  attempt o.allocKey
  cattreeRemove o.remove key
  bugOnFail (cattreeInsert o.addOld key (.hlink id))
  modifyInode ino fun inode => { inode with name := none, hlinkId := some id }

def obtainHlinkId (o : LinkOutcomes) (key : NameKey) (ino id : Nat) : NameRecord → Namei Nat
  | .object data => do moveToHlinkArea o key ino data id; pure id
  | .hlink id    => pure id

-- The results of the last two calls are not looked at.
def addLink (o : LinkOutcomes) (key : NameKey) (ino id : Nat) : Namei Unit := do
  cattreeInsert o.addNew key (.hlink id)
  modifyInode ino fun inode => { inode with nlink := inode.nlink + 1 }
  modifyInode key.parentId fun inode => { inode with size := inode.size + 1 }
  ignoring (writeInodeToBnode o.writeDir key.parentId)
  ignoring (writeInodeToBnode o.writeInode ino)

-- emmcfs_link: the inode `ino`, which has the name `old`, gets a name in the folder `dir`.
def link (o : LinkOutcomes) (old : NameKey) (ino dir : Nat) (name : List (BitVec 8)) (id : Nat) :
    Namei Unit := do
  failOn (catMaxName < name.length) .enametoolong
  let inode ← inode ino
  Code.haltOn (inode.kind = .dir)
  failOn (linkMax ≤ inode.nlink) .emlink
  failOn (o.findNew.isSome ∨ ⟨dir, name⟩ ∈ (← disk).catalog) .eexist
  transaction do
    let r ← cattreeFind o.findOld old
    attempt o.getRecord
    let hlinkId ← obtainHlinkId o old ino id r
    addLink o ⟨dir, name⟩ ino hlinkId

end Link

section Unlink

structure UnlinkOutcomes where
  allocKey    : Option Errno
  remove      : Option Errno
  writeDir    : Option Errno
  writeInode  : Option Errno
  freeHlink   : Option Errno
  freeFork    : Option Errno
  addOrphan   : Option Errno
  freeInode   : Option Errno
  freeExttree : Option Errno

-- free_hlink_data, which is called for hard-linked inodes only.
def freeHlinkData (outcome : Option Errno) : Option Nat → Namei Unit
  | some id => do
    attempt outcome
    Code.haltOn (id ∉ (← disk).hardLinks)
    modifyDisk fun d => { d with hardLinks := d.hardLinks.erase id }
  | none    => pure ()

-- emmcfs_fsm_free_runtime_fork; the blocks that are then left are those in the extents tree.
def fsmFreeRuntimeFork (o : UnlinkOutcomes) (ino : Nat) : Namei Bool := do
  attempt o.freeFork
  modifyDisk fun d => { d with forks := d.forks.erase ino }
  if ino ∈ (← disk).exttree then
    attempt o.addOrphan
    modifyDisk fun d => { d with orphans := insert ino d.orphans }
    return true
  else
    freeInodeN o.freeInode ino
    return false

-- emmcfs_fsm_free_exttree removes the inode's records one by one, each in a transaction of its own.
-- They are gone after the last of these, and the orphan record after one more.
def fsmFreeExttree (o : UnlinkOutcomes) (ino : Nat) : Namei Unit := do
  transaction do
    attempt o.freeExttree
    modifyDisk fun d => { d with exttree := d.exttree.erase ino }
  transaction do
    attempt o.freeExttree
    modifyDisk fun d => { d with orphans := d.orphans.erase ino }
    freeInodeN o.freeInode ino

-- The rest of the transaction once i_nlink is 0. The result is whether the extents tree still has
-- blocks of the inode, which is no longer found by its number.
def deleteInode (o : UnlinkOutcomes) (ino : Nat) (inode : VfsInode) : Namei Bool := do
  freeHlinkData o.freeHlink inode.hlinkId
  setInode ino none
  if inode.kind = .reg ∨ inode.kind = .lnk then
    fsmFreeRuntimeFork o ino
  else
    bugOnFail (freeInodeN o.freeInode ino)
    return false

-- What follows when the name has been removed.
def dropLink (o : UnlinkOutcomes) (key : NameKey) (ino : Nat) : Namei Bool := do
  modifyInode key.parentId fun inode => { inode with size := inode.size - 1 }
  modifyInode ino fun inode => { inode with nlink := inode.nlink - 1 }
  ignoring (writeInodeToBnode o.writeDir key.parentId)
  let inode ← inode ino
  if inode.nlink ≠ 0 then
    ignoring (writeInodeToBnode o.writeInode ino)
    return false
  else
    deleteInode o ino inode

def unlinkName (o : UnlinkOutcomes) (key : NameKey) (ino : Nat) : Namei Bool := do
  cattreeRemove o.remove key
  dropLink o key ino

-- emmcfs_unlink of a name and its inode.
def unlink (o : UnlinkOutcomes) (key : NameKey) (ino : Nat) : Namei Unit := do
  attempt o.allocKey
  let inode ← inode ino
  let left ← transaction (unlinkName o key ino)
  if inode.kind = .reg ∧ left then bugOnFail (fsmFreeExttree o ino) else pure ()

def rmdir (o : UnlinkOutcomes) (key : NameKey) (ino : Nat) : Namei Unit := do
  let inode ← inode ino
  failOn (inode.size ≠ 0) .enotempty
  unlink o key ino

end Unlink

section Rename

structure RenameOutcomes where
  target      : UnlinkOutcomes
  find        : Option Errno
  getRecord   : Option Errno
  allocKey    : Option Errno
  allocRecord : Option Errno
  insert      : Option Errno
  remove      : Option Errno
  saveName    : Option Errno
  writeOldDir : Option Errno
  writeNewDir : Option Errno

-- An existing target goes first, in transactions of its own.
def unlinkTarget (o : UnlinkOutcomes) (key : NameKey) : Option Nat → Namei Unit
  | some target => do
    let inode ← inode target
    failOn (inode.kind = .dir ∧ 0 < inode.size) .enotempty
    unlink o key target
  | none        => pure ()

-- The name by which emmcfs_write_inode_to_bnode finds the record of an inode that is not
-- hard-linked. The old one is freed before the new one is allocated.
def changeName (saveName : Option Errno) (new : NameKey) (ino : Nat) : Namei Unit := do
  if (← inode ino).hlinkId = none then
    modifyInode ino fun inode => { inode with parentId := new.parentId, name := none }
    attempt saveName
    modifyInode ino fun inode => { inode with name := some new.name }

def moveName (o : RenameOutcomes) (old new : NameKey) (mvInode : Nat) : Namei Unit := do
  let _ ← cattreeFind o.find old
  attempt o.getRecord
  attempt o.allocKey
  addNewCattreeObject o.allocRecord o.insert mvInode new
  bugOnFail (cattreeRemove o.remove old)
  modifyInode old.parentId fun inode => { inode with size := inode.size - 1 }
  modifyInode new.parentId fun inode => { inode with size := inode.size + 1 }
  changeName o.saveName new mvInode
  writeInodeToBnode o.writeOldDir old.parentId
  writeInodeToBnode o.writeNewDir new.parentId

-- emmcfs_rename of `mvInode`; `target` is the inode of the new dentry, if it has one.
def rename (o : RenameOutcomes) (old new : NameKey) (mvInode : Nat) (target : Option Nat) :
    Namei Unit := do
  failOn (catMaxName < new.name.length) .enametoolong
  unlinkTarget o.target new target
  transaction (moveName o old new mvInode)

end Rename

end Emmcfs
