import EmmcfsModel.Catalog.Tree
import EmmcfsModel.Btree.Invariant

namespace Emmcfs

-- The place where the catalog record of an inode was last found.
structure BnodeHint where
  bnodeId : Nat
  pos     : Int
  deriving DecidableEq, Repr

-- The catalog tree and the hint of an inode.
structure CatalogInode (ν : Type) where
  btree     : Btree CattreeKey ν
  bnodeHint : BnodeHint

abbrev CatalogCode (ν α : Type) := Driver (CatalogInode ν) α

namespace CatalogInode

variable (tree : BtreeOps CattreeKey)

def onTree (m : BtreeCode CattreeKey ν α) : CatalogCode ν α :=
  Code.zoom btree (fun btree s => { s with btree }) m

def setHint (hint : BnodeHint) : CatalogCode ν Unit :=
  Code.modify fun s => { s with bnodeHint := hint }

-- The record that the hint names. There is none if the hint is not set, if its node cannot be read,
-- or if that is no leaf or too short.
def hintedRecord (hint : BnodeHint) : BtreeCode CattreeKey ν (Option (BtreeRecord CattreeKey ν)) :=
  if hint.bnodeId = 0 ∨ hint.pos < 0 then pure none
  else do
    let b ← Code.onFail (do
      let b ← getBnode hint.bnodeId
      pure (some b)) fun _ => pure none
    match b with
    | none   => pure none
    | some b =>
      if b.type ≠ .leaf ∨ b.recs.length ≤ hint.pos then pure none
      else do
        let r ← getRecord b hint.pos.toNat
        pure (some r)

-- The part of emmcfs_get_from_cattree from `find` on. If the search fails, the error pointer is
-- taken for a node.
def findRecord (key : CattreeKey) : CatalogCode ν (Nat × Nat) := do
  let (id, pos) ← onTree (bugOnError (emmcfsBtreeFind tree key))
  let b ← onTree (bnodeAt id)
  let found ← onTree (getRecord b pos)
  if tree.compFn key found.key ≠ 0 then do
    setHint ⟨0, -1⟩
    Code.fail .enoent
  else do
    setHint ⟨id, pos⟩
    pure (id, pos)

-- emmcfs_get_from_cattree for the parent and name of an inode: the node and the position of its
-- record.
def getFromCattree (key : CattreeKey) : CatalogCode ν (Nat × Nat) := do
  onTree kmalloc
  let s ← Code.get
  match ← onTree (hintedRecord s.bnodeHint) with
  | none       => findRecord tree key
  | some found =>
    if tree.compFn key found.key = 0 then pure (s.bnodeHint.bnodeId, s.bnodeHint.pos.toNat)
    else findRecord tree key

end CatalogInode

-- A catalog tree with the records `recs`: the nodes in use are those of the tree, the records
-- ascend, and no request fails.
structure Btree.Catalog (tree : BtreeOps CattreeKey) (s : Btree CattreeKey ν) (leaves : List Nat)
    (up : List (List Nat)) (recs : List (BtreeRecord CattreeKey ν)) : Prop where
  upper  : s.Upper tree 1 (leaves :: up) recs
  sorted : recs.Pairwise fun r q => tree.compFn r.key q.key < 0
  inUse  : ∀ id, s.Live id → id ∈ (leaves :: up).flatten
  calm   : s.Calm

-- The record that compares equal is found, and -ENOENT says that there is none.
def CatalogInode.Answers (tree : BtreeOps CattreeKey) (s : CatalogInode ν) (leaves : List Nat)
    (recs : List (BtreeRecord CattreeKey ν)) (key : CattreeKey) : Prop :=
  Code.wp (getFromCattree tree key)
    (fun p s' => s'.btree = s.btree ∧ p.1 ∈ leaves ∧
      ∃ r ∈ recs, (s.btree.bnode p.1).recs[p.2]? = some r ∧ tree.compFn key r.key = 0)
    (fun e s' => s'.btree = s.btree ∧ e = .enoent ∧ ∀ r ∈ recs, tree.compFn key r.key ≠ 0) False s

end Emmcfs
