import EmmcfsModel.Lib.Queue
import EmmcfsModel.Lib.Run
import EmmcfsModel.Fsm.Space

namespace Emmcfs

open FsmNode

-- The node at the end of a way from the root.
def FsmNode.get : FsmNode κ → List Nat → Option (FsmNode κ)
  | node, []     => some node
  | node, i :: a => node.children[i]?.bind fun child => child.get a

-- The `next` pointers of the nodes. A node is told by the way from the root to it.
abbrev NextPtrs := List Nat → Option (List Nat)

-- The children of an index node are appended to the list that is walked.
def appendChildren (a : List Nat) (n : Nat) (next : NextPtrs) (tail : List Nat) :
    NextPtrs × List Nat :=
  (List.range n).foldl (fun p i => (Queue.link p.1 p.2 (a ++ [i]), a ++ [i])) (next, tail)

-- The second loop of fsm_btree_lookup from `node` on. It comes to no end if the fuel runs out or if
-- a pointer leads out of the tree.
def lookupScan (root : FsmNode FsmBtreeKey) (length : Nat) :
    Nat → NextPtrs → List Nat → Option (List Nat) → Option (Option FsmBtreeKey × NextPtrs)
  | 0, _, _, _                     => none
  | _ + 1, next, _, none           => some (none, next)
  | fuel + 1, next, tail, some a   =>
    match root.get a with
    | none      => none
    | some node =>
      match node.keyVals.find? fun key => length ≤ key.length with
      | some key => some (some key, next)
      | none     =>
        match node.type with
        | .leaf  => lookupScan root length fuel next tail (next a)
        | .index =>
          let (next, tail) := appendChildren a (node.nrActive + 1) next tail
          lookupScan root length fuel next tail (next a)

-- fsm_btree_lookup with the pointers as earlier calls have left them.
def lookupThreaded (fuel : Nat) (next : NextPtrs) (btree : FsmBtree FsmBtreeKey)
    (blockOffset length : Nat) : Option (FsmBtree FsmBtreeKey × Nat) :=
  match btree.root with
  | none      => some (btree, 0)
  | some root =>
    match lookupAt blockOffset length (root.level + 1) root with
    | some key =>
      match takeChunk btree key length with
      | (btree, none)   => some (btree, blockOffset)
      | (btree, some _) => some (btree, 0)
    | none =>
      match lookupScan root length fuel next [] (some []) with
      | none               => none
      | some (some key, _) => some ((takeChunk btree key length).1, key.blockOffset)
      | some (none, _)     => some (btree, 0)

-- A tree with the pointers of its nodes.
structure ThreadedTree where
  btree : FsmBtree FsmBtreeKey
  next  : NextPtrs

-- What the functions of the free space tree consist of, as far as the pointers are concerned.
inductive TreeEvent
  | insert (key : FsmBtreeKey)
  | delete (key : FsmBtreeKey)
  | grow (blockOffset length : Nat)
  | scan (length : Nat)

namespace ThreadedTree

def rootKind (btree : FsmBtree FsmBtreeKey) : Option (Nat × FsmNodeType) :=
  btree.root.map fun root => (root.level, root.type)

-- Insertions and deletions put another node at the root exactly when the level changes, and it comes
-- with the NULL of allocate_btree_node. The other nodes may have moved to other places.
def Renewed (t t' : ThreadedTree) : Prop :=
  t'.next [] = if rootKind t'.btree = rootKind t.btree then t.next [] else none

inductive Step : ThreadedTree → TreeEvent → ThreadedTree → Prop
  | insert : t'.btree = (fsmBtreeInsert fsmBtreeCmpFn t.btree key).1 → t.Renewed t' →
    Step t (.insert key) t'
  | delete : t'.btree = fsmBtreeDelete fsmBtreeCmpFn t.btree key → t.Renewed t' →
    Step t (.delete key) t'
  | grow : t.btree.root = some root →
    freeWalk blockOffset length (root.level + 1) root = .grown root' more →
    Step t (.grow blockOffset length) { t with btree := { t.btree with root := some root' } }
  | scan : t.btree.root = some root →
    lookupScan root length fuel t.next [] (some []) = some (found, next') →
    Step t (.scan length) { t with next := next' }

-- A root that is a leaf does not lead to other nodes.
def LeafRootClear (t : ThreadedTree) : Prop :=
  ∀ root ∈ t.btree.root, root.type = .leaf → t.next [] = none

end ThreadedTree

end Emmcfs
