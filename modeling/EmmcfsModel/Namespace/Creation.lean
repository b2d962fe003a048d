import EmmcfsModel.Inode.Numbers
import EmmcfsModel.Lib.Outcomes
import EmmcfsModel.Namespace.Operations

namespace Emmcfs

-- What emmcfs_create works on: the catalog tree, the bitmap of the inode numbers page by page, the
-- inodes in memory and files_count.
structure Creation where
  catalog    : AList (fun _ : NameKey => NameRecord)
  numbers    : BitmapFile
  inodes     : Nat → Option VfsInode
  filesCount : Nat

-- The failures of a call: no memory for the inode, for the saved name or for the record, an error of
-- emmcfs_btree_insert with the catalog that it leaves, and one of the write of the parent. The
-- requests for pages of the bitmap fail as the outcomes in `numbers` say.
structure CreateFailures where
  newInode    : Bool
  saveName    : Bool
  allocRecord : Bool
  insert      : Option (Errno × AList (fun _ : NameKey => NameRecord))
  writeDir    : Option Errno

abbrev CreationCode (α : Type) := Driver Creation α

namespace Creation

def onNumbers (m : Driver BitmapFile α) : CreationCode α :=
  Code.zoom (·.numbers) (fun numbers s => { s with numbers }) m

def setCatalog (catalog : AList (fun _ : NameKey => NameRecord)) : CreationCode Unit :=
  Code.modify fun s => { s with catalog }

def setInode (ino : Nat) (inode : VfsInode) : CreationCode Unit :=
  Code.modify fun s => { s with inodes := Function.update s.inodes ino (some inode) }

-- An inode that the caller has a pointer to.
def inode (ino : Nat) : CreationCode VfsInode := fun s =>
  match s.inodes ino with
  | some inode => .ok inode s
  | none       => .halt

def modifyInode (ino : Nat) (f : VfsInode → VfsInode) : CreationCode Unit := do
  setInode ino (f (← inode ino))

-- emmcfs_free_inode_n where its result is not looked at.
def giveBack (ino : Nat) : CreationCode Unit :=
  Code.onFail (onNumbers (BitmapFile.freeInodeN ino)) fun _ => pure ()

-- emmcfs_new_inode. insert_inode_locked fails if an inode with the number is in memory. A search that
-- goes past the last number ends in a BUG.
def newInode (f : CreateFailures) (kind : FileKind) : CreationCode Nat := do
  match ← onNumbers BitmapFile.getFreeInode with
  | none     => Code.halt
  | some ino => do
    let s ← Code.get
    if f.newInode then Code.fail .enomem
    else if (s.inodes ino).isSome then do
      giveBack ino
      Code.fail .einval
    else do
      setInode ino ⟨kind, 1, 0, none, 0, none⟩
      pure ino

-- emmcfs_btree_insert on the catalog tree
def btreeInsert (f : CreateFailures) (key : NameKey) (r : NameRecord) : CreationCode Unit := do
  let s ← Code.get
  match f.insert with
  | some (e, left) => do
    setCatalog left
    Code.fail e
  | none           =>
    if key ∈ s.catalog then Code.fail .eexist else setCatalog (s.catalog.insert key r)

-- emmcfs_add_new_cattree_object
def addNewCattreeObject (f : CreateFailures) (ino : Nat) (key : NameKey) : CreationCode Unit := do
  Code.haltOn (ino < firstFileIno)
  let inode ← inode ino
  if f.allocRecord then Code.fail .enomem
  else btreeInsert f key (inode.hlinkId.elim (.object (inode.fillCattreeValue ino)) .hlink)

-- emmcfs_write_inode_to_bnode for the parent, which is not hard-linked.
def writeInodeToBnode (f : CreateFailures) (ino : Nat) : CreationCode Unit := do
  if ino < firstFileIno then pure ()
  else do
    let inode ← inode ino
    let s ← Code.get
    match f.writeDir, inode.name with
    | some e, _         => Code.fail e
    | none,   none      => Code.halt
    | none,   some name =>
      let key : NameKey := ⟨inode.parentId, name⟩
      if key ∈ s.catalog then setCatalog (s.catalog.insert key (.object (inode.fillCattreeValue ino)))
      else Code.fail .enoent

-- emmcfs_create. After an error the new inode, whose i_nlink is 1, stays in memory.
def create (f : CreateFailures) (dir : Nat) (name : List (BitVec 8)) (kind : FileKind) :
    CreationCode Unit := do
  if unicodeStringMaxLen < name.length then Code.fail .enametoolong
  else do
    let ino ← newInode f kind
    if f.saveName then Code.fail .enomem
    else do
      modifyInode ino fun inode => { inode with name := some name, parentId := dir, hlinkId := none }
      Code.onFail (addNewCattreeObject f ino ⟨dir, name⟩) fun e => do
        giveBack ino
        Code.fail e
      modifyInode dir fun inode => { inode with size := inode.size + 1 }
      Code.modify fun s => { s with filesCount := s.filesCount + 1 }
      writeInodeToBnode f dir

-- The names, the bits of the inode numbers and the parent's i_size are as before.
structure Unchanged (dir : Nat) (s s' : Creation) : Prop where
  names : ∀ key, key ∈ s'.catalog ↔ key ∈ s.catalog
  bits  : ∀ i, s'.numbers.inUse i = s.numbers.inUse i
  size  : (s'.inodes dir).map (·.size) = (s.inodes dir).map (·.size)

end Creation

namespace BitmapFile

-- The page for a number can be read and gets into the transaction.
def Serves (s : BitmapFile) : Prop :=
  Outcomes.Served 2 s.outcomes

end BitmapFile

namespace Creation

-- The record of the new object cannot be inserted, and the names are as before.
def Refuses (f : CreateFailures) (key : NameKey) (s : Creation) : Prop :=
  f.allocRecord ∨ match f.insert with
    | some (_, left) => ∀ key, key ∈ left ↔ key ∈ s.catalog
    | none           => key ∈ s.catalog

-- An error comes before a number is taken; or after that from insert_inode_locked or from the
-- insertion of the record, and the number can be given back. The bit that get_free_inode has set is
-- not the number's own if it lies behind the first 2 ^ 32.
def Undone (f : CreateFailures) (dir : Nat) (name : List (BitVec 8)) (s : Creation) : Prop :=
  unicodeStringMaxLen < name.length ∨
  (∃ e t, BitmapFile.getFreeInode s.numbers = .fail e t) ∨
  ∃ ino t, BitmapFile.getFreeInode s.numbers = .ok (some ino) t ∧ f.newInode = false ∧
    ((s.inodes ino).isSome ∨ (f.saveName = false ∧ s.Refuses f ⟨dir, name⟩)) ∧
    (s.numbers.inUse ino = false ∧ t.inUse ino = true) ∧ t.Serves

end Creation

end Emmcfs
