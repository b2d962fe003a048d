import EmmcfsModel.Fsm.Btree
import EmmcfsModel.Lib.Interleave

namespace Emmcfs.FsmNode

variable {κ : Type}

-- The in-order traversal of a subtree of height `h`.
def toList : Nat → FsmNode κ → List κ
  | 0, node     => node.keyVals
  | h + 1, node => Interleave.all (toList h) node.keyVals node.children

-- Subtrees of height `h` with at least `lo` keys in the root and `order - 1` in every other node.
inductive Shape (order : Nat) : (h lo : Nat) → FsmNode κ → Prop
  | leaf {lo : Nat} {ks : List κ} :
    lo ≤ ks.length → ks.length ≤ 2 * order - 1 → Shape order 0 lo (mk 0 .leaf ks [])
  | index {h lo : Nat} {ks : List κ} {cs : List (FsmNode κ)} :
    lo ≤ ks.length → ks.length ≤ 2 * order - 1 → cs.length = ks.length + 1 →
    (∀ c ∈ cs, Shape order h (order - 1) c) → Shape order (h + 1) lo (mk (h + 1) .index ks cs)

-- An index node around one of its children.
structure Hole (κ : Type) where
  keys      : List κ
  children  : List (FsmNode κ)
  keys'     : List κ
  children' : List (FsmNode κ)

namespace Hole

def fill (H : Hole κ) (h : Nat) (c : FsmNode κ) : FsmNode κ :=
  FsmNode.mk (h + 1) .index (H.keys ++ H.keys') (H.children ++ c :: H.children')

structure WF (order h : Nat) (H : Hole κ) : Prop where
  left  : H.children.length = H.keys.length
  right : H.children'.length = H.keys'.length
  shape : ∀ c ∈ H.children ++ H.children', Shape order h (order - 1) c

-- What the traversal lists before and after the hole.
def pre (h : Nat) (H : Hole κ) : List κ :=
  Interleave.before (toList h) H.children H.keys

def post (h : Nat) (H : Hole κ) : List κ :=
  Interleave.after (toList h) H.keys' H.children'

end Hole

end FsmNode

-- The B-tree invariant.
structure FsmBtree.WF [LinearOrder κ] (btree : FsmBtree κ) : Prop where
  shape  : ∀ root ∈ btree.root, root.Shape btree.order root.level 1
  sorted : ∀ root ∈ btree.root, SortedList.Sorted (root.toList root.level)

-- The keys of the tree in ascending order.
def FsmBtree.keys (btree : FsmBtree κ) : List κ :=
  match btree.root with
  | none      => []
  | some root => root.toList root.level

end Emmcfs
