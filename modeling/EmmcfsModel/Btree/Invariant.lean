import EmmcfsModel.Lib.Chain
import EmmcfsModel.Btree.Theorems.Node

namespace Emmcfs

namespace Btree

variable (tree : BtreeOps κ) (s : Btree κ ν)

def recsOf (ids : List Nat) : List (BtreeRecord κ ν) :=
  ids.flatMap fun id => (s.bnode id).recs

-- The record by which the level above names a node: the node's first key and its id.
def indexRecord (id : Nat) : Option (BtreeRecord κ ν) :=
  (s.bnode id).recs.head?.map fun r =>
    ⟨r.key, tree.keyLen r.key + sizeofIndexValue, .node id⟩

def indexRecords (ids : List Nat) : List (BtreeRecord κ ν) :=
  ids.filterMap (s.indexRecord tree)

-- The nodes `ids` are a level of the tree: the links list them in this order, and their records are
-- `recs` from the first to the last.
@[mk_iff]
structure Level (type : NodeType) (ids : List Nat) (recs : List (BtreeRecord κ ν)) : Prop where
  live    : ∀ id ∈ ids, s.Live id
  fits    : ∀ id ∈ ids, (s.bnode id).Fits tree
  typed   : ∀ id ∈ ids, (s.bnode id).type = type
  linked  : Linked (fun i => (s.bnode i).prevNodeId) (fun i => (s.bnode i).nextNodeId) 0 ids 0
  records : s.recsOf ids = recs

instance [DecidableEq κ] [DecidableEq ν] : Decidable (s.Level tree type ids recs) :=
  decidable_of_iff' _ (level_iff ..)

-- Levels from one up to the root. The records of each level name the nodes of the one below by
-- their first keys, and what is left above the root is the root's id.
def Levels : NodeType → List (List Nat) → List (BtreeRecord κ ν) → Prop
  | _, [], recs           => ∃ r, recs = [r] ∧ r.payload = .node s.rootBnodeId
  | type, ids :: up, recs =>
    s.Level tree type ids recs ∧ Levels .index up (s.indexRecords tree ids)

instance Levels.decidable [DecidableEq κ] [DecidableEq ν] :
    ∀ type levels recs, Decidable (s.Levels tree type levels recs)
  | _, [], []             => .isFalse fun ⟨_, h, _⟩ => nomatch h
  | _, [], [r]            => decidable_of_iff (r.payload = .node s.rootBnodeId)
    ⟨fun h => ⟨r, rfl, h⟩, fun ⟨_, he, h⟩ => List.head_eq_of_cons_eq he ▸ h⟩
  | _, [], _ :: _ :: _    => .isFalse fun ⟨_, h, _⟩ => nomatch h
  | type, ids :: up, recs =>
    have := Levels.decidable .index up (s.indexRecords tree ids)
    inferInstanceAs (Decidable (s.Level tree type ids recs ∧
      s.Levels tree .index up (s.indexRecords tree ids)))

-- Leaves are at level 1.
def typeAt (level : Nat) : NodeType :=
  if level = 1 then .leaf else .index

-- The part of a tree from a level up.
structure Upper (level : Nat) (levels : List (List Nat)) (recs : List (BtreeRecord κ ν)) :
    Prop where
  shape  : s.Levels tree (typeAt level) levels recs
  nodup  : levels.flatten.Nodup
  bitmap : s.BitmapOk tree
  height : level + levels.length = s.btreeHeight + 1

-- No index node has only one record.
def Dense (ids : List Nat) : Prop :=
  ∀ id ∈ ids, (s.bnode id).type = .index → 2 ≤ (s.bnode id).recs.length

instance : Decidable (s.Dense ids) :=
  inferInstanceAs (Decidable (∀ id ∈ ids, (s.bnode id).type = .index → 2 ≤ (s.bnode id).recs.length))

-- The nodes `old` have been replaced by the nodes `new`: all other nodes that were in use are as
-- they were, and what is new was not in use.
structure Replaced (s s' : Btree κ ν) (old new : List Nat) : Prop where
  keep  : ∀ id, id ∉ old → s.Live id → s'.Live id ∧ s'.bnode id = s.bnode id
  fresh : ∀ id ∈ new, id ∈ old ∨ ¬s.Live id

-- All these nodes have more than one record.
def Wide (ids : List Nat) : Prop :=
  ∀ id ∈ ids, 2 ≤ (s.bnode id).recs.length

-- Each of the nodes `new` has more than one record, or it is one of `old` and has no fewer than before.
def Widened (s s' : Btree κ ν) (old new : List Nat) : Prop :=
  ∀ id ∈ new, 2 ≤ (s'.bnode id).recs.length ∨
    id ∈ old ∧ (s.bnode id).recs.length ≤ (s'.bnode id).recs.length

-- Where the records of a level are: their nodes, and the positions there.
def places (ids : List Nat) : List (Nat × Nat) :=
  ids.flatMap fun id => (List.range (s.bnode id).recs.length).map (id, ·)

-- The path leads to place `k` among the records of the lowest of the levels.
def PathTo : List (List Nat) → Nat → List (Nat × Nat) → Prop
  | [], k, path        => k = 0 ∧ path = []
  | ids :: up, k, path => ∃ as id bs pos path', ids = as ++ id :: bs ∧ path = (id, pos) :: path' ∧
    pos < (s.bnode id).recs.length ∧ k = (s.recsOf as).length + pos ∧ PathTo up as.length path'

end Btree

end Emmcfs
