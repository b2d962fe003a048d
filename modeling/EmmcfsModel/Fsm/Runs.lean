import EmmcfsModel.Lib.Runs
import EmmcfsModel.Fsm.Space

namespace Emmcfs

-- The blocks that the bitmap calls free.
def isFree (data : Nat → BitVec 32) (x : Nat) : Bool :=
  !testBit data x

def chunksOf (runs : List (Nat × Nat)) : List FsmBtreeKey :=
  runs.map fun run => ⟨run.1, run.2⟩

-- The chunks of free blocks below `n`, read bit by bit.
def freeRuns (data : Nat → BitVec 32) (n : Nat) : List FsmBtreeKey :=
  chunksOf (Runs.all (isFree data) n)

def insertChunks : List FsmBtreeKey → Driver FsmInfo Unit
  | []          => pure ()
  | key :: keys => do
    fsmInsert key.blockOffset key.length
    insertChunks keys

-- What fsm_get_tree is for: every chunk of free blocks is put into the tree, the first one first. The
-- bitmap is read bit by bit, without the words.
def fsmGetTreeBitwise : Driver FsmInfo Unit := do
  let fsm ← Code.get
  Code.modify fun fsm => { fsm with freeBlocksCount := 0 }
  insertChunks (freeRuns fsm.data (8 * fsm.lengthInBytes))

end Emmcfs
