import EmmcfsModel.Namespace.Operations

namespace Emmcfs

-- Where the data of an object are kept: in the record under its name, or in a slot of the hardlink
-- area.
inductive Place
  | record (key : NameKey)
  | slot (id : Nat)
  deriving DecidableEq

def NameRecord.place (key : NameKey) : NameRecord → Place
  | object _ => .record key
  | hlink id => .slot id

def NameRecord.data? : NameRecord → Option ObjectData
  | object data => some data
  | hlink _     => none

-- Where emmcfs_write_inode_to_bnode writes an inode.
def VfsInode.place (c : VfsInode) : Option Place :=
  match c.hlinkId with
  | some id => some (.slot id)
  | none    => c.name.map fun name => .record ⟨c.parentId, name⟩

-- A mounted volume as a map from names to places and from places to objects. `links` counts the
-- names that lead to a place, and `items` those in a folder.
structure Layout where
  entry   : NameKey → Option Place
  node    : Place → Option ObjectData
  links   : Place → Nat
  items   : Nat → Nat
  inodes  : Nat → Option VfsInode
  used    : Finset Nat
  forks   : Finset Nat
  exttree : Finset Nat
  orphans : Finset Nat

namespace Layout

variable (v : Layout)

def Live (n : Nat) : Prop :=
  ∃ p d, v.node p = some d ∧ d.objectId = n

def Folder (n : Nat) : Prop :=
  ∃ p d, v.node p = some d ∧ d.objectId = n ∧ d.kind = .dir

-- A name is in the root folder, or in a folder that exists.
def HasParent (key : NameKey) : Prop :=
  key.parentId < firstFileIno ∨ v.Folder key.parentId

-- Numbers and blocks belong to the objects that there are.
structure Accounted : Prop where
  used    : ∀ n, firstFileIno ≤ n → (n ∈ v.used ↔ v.Live n)
  forks   : ∀ n ∈ v.forks, ∃ p d, v.node p = some d ∧ d.objectId = n ∧
    (d.kind = .reg ∨ d.kind = .lnk)
  exttree : ∀ n ∈ v.exttree, ∃ p d, v.node p = some d ∧ d.objectId = n ∧ d.kind = .reg
  orphans : v.orphans = ∅

-- The layout of a volume on which the stored link counts are `links` and the stored numbers of items
-- are `items`. The inodes below EMMCFS_1ST_FILE_INO are never written back.
structure Sound (links : Place → Nat) (items : Nat → Nat) : Prop extends v.Accounted where
  records : ∀ k p, v.entry k = some (.record p) → p = k
  held    : ∀ k, (v.node (.record k)).isSome ↔ v.entry k = some (.record k)
  slots   : ∀ k i, v.entry k = some (.slot i) → (v.node (.slot i)).isSome
  unique  : ∀ p q d e, v.node p = some d → v.node q = some e → d.objectId = e.objectId → p = q
  folders : ∀ i d, v.node (.slot i) = some d → d.kind ≠ .dir
  parents : ∀ k, v.entry k ≠ none → v.HasParent k
  links   : ∀ p d, v.node p = some d → firstFileIno ≤ d.objectId →
    d.linksCount = links p ∧ 0 < d.linksCount
  items   : ∀ p d, v.node p = some d → firstFileIno ≤ d.objectId → d.kind = .dir →
    d.totalItemsCount = items d.objectId
  cached  : ∀ n c, firstFileIno ≤ n → v.inodes n = some c →
    ∃ p, c.place = some p ∧ v.node p = some (c.fillCattreeValue n)

-- The counts are those of the names that there are.
def Consistent : Prop :=
  v.Sound v.links v.items

-- What the counts have to do with the names, on any volume.
structure Counted : Prop where
  links_zero : ∀ p, (∀ k, v.entry k ≠ some p) → v.links p = 0
  links_one  : ∀ p k, v.entry k = some p → (∀ q, v.entry q = some p → q = k) → v.links p = 1
  links_two  : ∀ p k q, v.entry k = some p → v.entry q = some p → q ≠ k → 1 < v.links p
  items_zero : ∀ n, (∀ k, v.entry k ≠ none → k.parentId ≠ n) → v.items n = 0
  items_pos  : ∀ k, v.entry k ≠ none → 0 < v.items k.parentId

section Changes

open Function (update)

-- A name is added that leads to a place, or is removed.
@[simps]
def addName (k : NameKey) (p : Place) : Layout :=
  { v with
    entry := update v.entry k (some p)
    links := update v.links p (v.links p + 1)
    items := update v.items k.parentId (v.items k.parentId + 1) }

@[simps]
def dropName (k : NameKey) (p : Place) : Layout :=
  { v with
    entry := update v.entry k none
    links := update v.links p (v.links p - 1)
    items := update v.items k.parentId (v.items k.parentId - 1) }

-- The inode `n` is written back to its place, unless it is below EMMCFS_1ST_FILE_INO.
def flush (n : Nat) : Layout :=
  if n < firstFileIno then v else
    match v.inodes n with
    | none   => v
    | some c =>
      match c.place with
      | some p => { v with node := update v.node p (some (c.fillCattreeValue n)) }
      | none   => v

-- The inode `n` becomes `c`, in memory and where it is written back.
@[simps]
def touch (n : Nat) (c : VfsInode) : Layout :=
  { v with
    inodes := update v.inodes n (some c)
    node   := if n < firstFileIno then v.node else
      match c.place with
      | some p => update v.node p (some (c.fillCattreeValue n))
      | none   => v.node }

-- A new object under the name `k`.
@[simps]
def addObject (k : NameKey) (n : Nat) (c : VfsInode) : Layout :=
  { v.addName k (.record k) with
    node   := update v.node (.record k) (some (c.fillCattreeValue n))
    inodes := update v.inodes n (some c)
    used   := insert n v.used }

-- The data of the inode `n` move from the record `k` to the place `p`, and the name with them.
@[simps]
def relocate (k k' : NameKey) (p : Place) (n : Nat) (c : VfsInode) : Layout :=
  { (v.dropName k (.record k)).addName k' p with
    node   := update (update v.node (.record k) none) p (some (c.fillCattreeValue n))
    inodes := update v.inodes n (some c) }

-- The inode `n`, kept at `p`, is deleted.
@[simps]
def delete (p : Place) (n : Nat) : Layout :=
  { v with
    node    := update v.node p none
    inodes  := update v.inodes n none
    used    := v.used.erase n
    forks   := v.forks.erase n
    exttree := v.exttree.erase n }

end Changes

-- What calls do to a layout: `c` is the inode of a name, `cd` that of its folder.
inductive Change : Layout → Prop
  | create {cd : VfsInode} :
    v.entry k = none → firstFileIno ≤ n → n ∉ v.used →
    v.inodes k.parentId = some cd → cd.kind = .dir →
    Change ((v.addObject k n ⟨kind, 1, 0, none, k.parentId, some k.name⟩).touch k.parentId
      { cd with size := cd.size + 1 })
  -- the first link to an inode moves it to a slot, and all give it another name
  | toSlot {c : VfsInode} :
    firstFileIno ≤ n → v.inodes n = some c → c.place = some (.record k) → c.kind ≠ .dir →
    v.node (.slot i) = none →
    Change (v.relocate k k (.slot i) n { c with name := none, hlinkId := some i })
  | addLink {c cd : VfsInode} :
    firstFileIno ≤ n → v.inodes n = some c → c.place = some (.slot i) → v.entry k = none →
    v.inodes k.parentId = some cd → cd.kind = .dir →
    Change (((v.addName k (.slot i)).touch k.parentId { cd with size := cd.size + 1 }).touch n
      { c with nlink := c.nlink + 1 })
  -- a name goes: one of several, the last one that leads to a slot, or that of a record
  | dropLink {c cd : VfsInode} :
    firstFileIno ≤ n → v.inodes n = some c → c.place = some (.slot i) → 1 < c.nlink →
    v.entry k = some (.slot i) → v.inodes k.parentId = some cd → cd.kind = .dir →
    Change (((v.dropName k (.slot i)).touch k.parentId { cd with size := cd.size - 1 }).touch n
      { c with nlink := c.nlink - 1 })
  | dropSlot {c cd : VfsInode} :
    firstFileIno ≤ n → v.inodes n = some c → c.place = some (.slot i) → c.nlink = 1 →
    v.entry k = some (.slot i) → v.inodes k.parentId = some cd → cd.kind = .dir →
    Change (((v.dropName k (.slot i)).touch k.parentId { cd with size := cd.size - 1 }).delete
      (.slot i) n)
  | dropRecord {c cd : VfsInode} :
    firstFileIno ≤ n → v.inodes n = some c → c.place = some (.record k) →
    (c.kind = .dir → c.size = 0) → v.inodes k.parentId = some cd → cd.kind = .dir →
    Change (((v.touch k.parentId { cd with size := cd.size - 1 }).dropName k (.record k)).delete
      (.record k) n)
  -- a name moves, with the record or the hardlink record
  | moveRecord {c cd ce : VfsInode} :
    firstFileIno ≤ n → v.inodes n = some c → c.place = some (.record k) → v.entry k' = none →
    v.HasParent k' →
    w = v.relocate k k' (.record k') n
      { c with parentId := k'.parentId, name := some k'.name } →
    w.inodes k.parentId = some cd → cd.kind = .dir →
    (w.touch k.parentId { cd with size := cd.size - 1 }).inodes k'.parentId = some ce →
    ce.kind = .dir →
    Change ((w.touch k.parentId { cd with size := cd.size - 1 }).touch k'.parentId
      { ce with size := ce.size + 1 })
  | moveHlink {cd ce : VfsInode} :
    v.entry k = some (.slot i) → v.entry k' = none → v.HasParent k' →
    w = (v.addName k' (.slot i)).dropName k (.slot i) →
    w.inodes k.parentId = some cd → cd.kind = .dir →
    (w.touch k.parentId { cd with size := cd.size - 1 }).inodes k'.parentId = some ce →
    ce.kind = .dir →
    Change ((w.touch k.parentId { cd with size := cd.size - 1 }).touch k'.parentId
      { ce with size := ce.size + 1 })
  -- an inode leaves the memory or comes back, and a file gets blocks
  | evict :
    firstFileIno ≤ n → Change { v with inodes := Function.update v.inodes n none }
  | load {c : VfsInode} :
    c.place = some p → v.node p = some (c.fillCattreeValue n) →
    Change { v with inodes := Function.update v.inodes n (some c) }
  | fork :
    v.node p = some d → d.kind = .reg ∨ d.kind = .lnk →
    Change { v with forks := insert d.objectId v.forks }
  | extent :
    v.node p = some d → d.kind = .reg →
    Change { v with exttree := insert d.objectId v.exttree }

end Layout

namespace Metadata

variable (disk : Metadata)

def entry (key : NameKey) : Option Place :=
  (disk.catalog.lookup key).map (·.place key)

def node : Place → Option ObjectData
  | .record key => (disk.catalog.lookup key).bind (·.data?)
  | .slot id    => disk.hardLinks.lookup id

def linksOf (p : Place) : Nat :=
  disk.catalog.entries.countP fun r => r.2.place r.1 = p

end Metadata

def Mount.layout (m : Mount) : Layout where
  entry   := m.disk.entry
  node    := m.disk.node
  links   := m.disk.linksOf
  items   := m.disk.itemsOf
  inodes  := m.inodes
  used    := m.disk.inodeBitmap
  forks   := m.disk.forks
  exttree := m.disk.exttree
  orphans := m.disk.orphans

end Emmcfs
