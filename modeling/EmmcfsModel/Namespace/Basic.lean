import Mathlib.Data.List.AList
import Mathlib.Data.Finset.Erase
import Mathlib.Data.Finset.Insert
import EmmcfsModel.Catalog.Key
import EmmcfsModel.Inode.Basic

namespace Emmcfs

-- A name in a folder, with its characters as the comparison function of the catalog tree sees them.
structure NameKey where
  parentId : Nat
  name     : List (BitVec 8)
  deriving DecidableEq

-- What the S_IS.. tests tell apart; the special files are those without data.
inductive FileKind
  | dir | reg | lnk | special
  deriving DecidableEq, Repr

-- The fields of a folder or file record that this part of the model uses: the object id, the type,
-- links_count and total_items_count. A slot of the hardlink area has the same layout.
@[ext]
structure ObjectData where
  objectId        : Nat
  kind            : FileKind
  linksCount      : Nat
  totalItemsCount : Nat
  deriving DecidableEq, Repr

-- The value of a catalog record: a folder or file record, or a hardlink record.
inductive NameRecord
  | object (data : ObjectData)
  | hlink (hlinkId : Nat)
  deriving DecidableEq, Repr

-- What the volume holds: the catalog tree, the slots of the hardlink area whose bit is set, the
-- inode numbers whose bit is set, the inodes with blocks in their fork, those with blocks in the
-- extents tree, and those with an orphan record.
structure Metadata where
  catalog     : AList (fun _ : NameKey => NameRecord)
  hardLinks   : AList (fun _ : Nat => ObjectData)
  inodeBitmap : Finset Nat
  forks       : Finset Nat
  exttree     : Finset Nat
  orphans     : Finset Nat

-- An inode in memory. A hard-linked inode has a hlink_id and no name.
structure VfsInode where
  kind     : FileKind
  nlink    : Nat
  size     : Nat
  hlinkId  : Option Nat
  parentId : Nat
  name     : Option (List (BitVec 8))
  deriving DecidableEq

namespace VfsInode

-- emmcfs_fill_cattree_value
def fillCattreeValue (inode : VfsInode) (ino : Nat) : ObjectData where
  objectId        := ino
  kind            := inode.kind
  linksCount      := inode.nlink
  totalItemsCount := inode.size

end VfsInode

namespace Metadata

-- The object that a record stands for: the one in it, or the one in the slot it names.
def objectOf (disk : Metadata) : NameRecord → Option ObjectData
  | .object data => some data
  | .hlink id    => disk.hardLinks.lookup id

-- The inode number that a name resolves to.
def resolve (disk : Metadata) (key : NameKey) : Option Nat :=
  (disk.catalog.lookup key).bind fun r => (disk.objectOf r).map (·.objectId)

-- How many catalog records resolve to an inode, and how many have it as their parent.
def namesOf (disk : Metadata) (ino : Nat) : Nat :=
  disk.catalog.entries.countP fun r => (disk.objectOf r.2).map (·.objectId) = some ino

def itemsOf (disk : Metadata) (ino : Nat) : Nat :=
  disk.catalog.entries.countP fun r => r.1.parentId = ino

end Metadata

-- A mounted volume: the inodes in memory are found by their numbers.
structure Mount where
  disk   : Metadata
  inodes : Nat → Option VfsInode

end Emmcfs
