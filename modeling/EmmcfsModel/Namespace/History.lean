import EmmcfsModel.Namespace.Operations

namespace Emmcfs

open Namei

def Namei.inMemory (ino : Nat) : Namei Bool :=
  Code.gets fun s => (s.mount.inodes ino).isSome

-- emmcfs_read_inode from the record `r` under `key`, or from its slot. The size of a file, which
-- the record has in its fork, is not told apart from total_items_count.
def readVfsInode (key : NameKey) (r : NameRecord) (data : ObjectData) : VfsInode where
  kind     := data.kind
  nlink    := data.linksCount
  size     := data.totalItemsCount
  hlinkId  := match r with | .object _ => none | .hlink id => some id
  parentId := key.parentId
  name     := match r with | .object _ => some key.name | .hlink _ => none

-- emmcfs_lookup and emmcfs_iget: an inode that is in memory is not read again.
def lookup (outcome : Option Errno) (key : NameKey) : Namei Unit := do
  let r ← cattreeFind outcome key
  match (← disk).objectOf r with
  | none      => Code.halt
  | some data =>
    if (← inMemory data.objectId) then pure ()
    else setInode data.objectId (some (readVfsInode key r data))

-- The calls of the VFS, and what else happens to names, inodes and blocks in between: an inode
-- leaves the memory, and a file is written, so that it gets blocks in its fork or, if that is full,
-- in the extents tree.
inductive NamespaceCall
  | create (o : CreateOutcomes) (dir : Nat) (name : List (BitVec 8)) (ino : Nat)
  | mkdir (o : CreateOutcomes) (dir : Nat) (name : List (BitVec 8)) (ino : Nat)
  | mknod (o : CreateOutcomes) (writeInode : Option Errno) (validDev : Bool) (dir : Nat)
    (name : List (BitVec 8)) (kind : FileKind) (ino : Nat)
  | symlink (o : CreateOutcomes) (pageSymlink : Option Errno) (dir : Nat)
    (name symname : List (BitVec 8)) (ino : Nat)
  | link (o : LinkOutcomes) (old : NameKey) (ino dir : Nat) (name : List (BitVec 8)) (id : Nat)
  | unlink (o : UnlinkOutcomes) (key : NameKey) (ino : Nat)
  | rmdir (o : UnlinkOutcomes) (key : NameKey) (ino : Nat)
  | rename (o : RenameOutcomes) (old new : NameKey) (mvInode : Nat) (target : Option Nat)
  | lookup (outcome : Option Errno) (key : NameKey)
  | evict (ino : Nat)
  | write (ino : Nat) (full : Bool)

namespace Mount

-- A call begins outside of any transaction.
def start (m : Mount) : CallState := ⟨m, 0, []⟩

def IsDir (m : Mount) (ino : Nat) : Prop :=
  (m.inodes ino).map (·.kind) = some .dir

-- A dentry and its inode. The root folder, and the inodes that are not files, have none.
def Dentry (m : Mount) (key : NameKey) (ino : Nat) : Prop :=
  m.disk.resolve key = some ino ∧ firstFileIno ≤ ino ∧ (m.inodes ino).isSome ∧ m.IsDir key.parentId

end Mount

namespace NamespaceCall

def code : NamespaceCall → Namei Unit
  | create o dir name ino                        => Emmcfs.create o dir name .reg ino
  | mkdir o dir name ino                         => Emmcfs.mkdir o dir name ino
  | mknod o writeInode validDev dir name kind ino =>
    Emmcfs.mknod o writeInode validDev dir name kind ino
  | symlink o pageSymlink dir name symname ino   =>
    Emmcfs.symlink o pageSymlink dir name symname ino
  | link o old ino dir name id                   => Emmcfs.link o old ino dir name id
  | unlink o key ino                             => Emmcfs.unlink o key ino
  | rmdir o key ino                              => Emmcfs.rmdir o key ino
  | rename o old new mvInode target              => Emmcfs.rename o old new mvInode target
  | lookup outcome key                           => Emmcfs.lookup outcome key
  | evict ino                                    => setInode ino none
  | write ino full                               => modifyDisk fun d =>
    if full then { d with exttree := insert ino d.exttree }
    else { d with forks := insert ino d.forks }

-- What the VFS sees to: a name is created in a folder, unlink is for what is not a folder, and a
-- folder is not moved into itself.
def Allowed (m : Mount) : NamespaceCall → Prop
  | create _ dir _ _ | mkdir _ dir _ _ | mknod _ _ _ dir _ _ _ | symlink _ _ dir _ _ _ =>
    m.IsDir dir
  | link _ old ino dir _ _              => m.Dentry old ino ∧ m.IsDir dir
  | unlink _ key ino                    => m.Dentry key ino ∧ ¬m.IsDir ino
  | rmdir _ key ino                     => m.Dentry key ino ∧ m.IsDir ino
  | rename _ old new mvInode target     =>
    m.Dentry old mvInode ∧ m.IsDir new.parentId ∧ mvInode ≠ old.parentId ∧
    mvInode ≠ new.parentId ∧ ∀ ino, target = some ino → m.Dentry new ino
  | lookup _ _                          => True
  | evict ino                           => firstFileIno ≤ ino
  | write ino _                         =>
    firstFileIno ≤ ino ∧ (m.inodes ino).map (·.kind) = some .reg

-- No write-back fails whose result is not looked at.
def WritesBack : NamespaceCall → Prop
  | link o _ _ _ _ _             => o.writeDir = none ∧ o.writeInode = none
  | unlink o _ _ | rmdir o _ _   => o.writeDir = none ∧ o.writeInode = none
  | rename o _ _ _ _             => o.target.writeDir = none ∧ o.target.writeInode = none
  | _                            => True

end NamespaceCall

-- A call that is allowed and successful.
def Mount.Step (m : Mount) (call : NamespaceCall) (m' : Mount) : Prop :=
  call.Allowed m ∧ ∃ s, call.code m.start = .ok () s ∧ s.mount = m'

end Emmcfs
