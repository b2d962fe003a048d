import EmmcfsModel.Fsm.Extents

namespace Emmcfs

-- The root is no ERR_PTR, and the tree below it is a tree of disjoint chunks.
structure FsmMemory.Sound (m : FsmMemory FsmBtreeKey) : Prop where
  root : m.rootIsErr = false
  tree : m.btree.Sound

namespace FsmOperation

-- What the callers give: chunks that are not free yet, or a chunk of the tree itself, and lookups of
-- at least one block. Block 0 belongs to the superblock, so that a 0 can stand for a failure.
def Admissible (btree : FsmBtree FsmBtreeKey) : FsmOperation → Prop
  | insert key              => key ∈ btree.keys ∨
    0 < key.length ∧ Disjoint key.blocks btree.freeBlocks
  | delete _                => True
  | free blockOffset length => 0 < length ∧
    Disjoint (FsmBtreeKey.blocks ⟨blockOffset, length⟩) btree.freeBlocks
  | lookup _ length         => 0 < length ∧ 0 ∉ btree.freeBlocks

-- The operation returns and leaves a sound tree. It has done what it does without failures if it
-- reports success, and otherwise nothing.
def Survives (op : FsmOperation) (m : FsmMemory FsmBtreeKey) : Prop :=
  Code.wp op.call
    (fun _ m' => m'.Sound ∧ m'.btree.freeBlocks = (op.after m.btree).freeBlocks)
    (fun _ m' => m'.Sound ∧ m'.btree.freeBlocks = m.btree.freeBlocks) False m

end FsmOperation

end Emmcfs
