import Mathlib.Logic.Function.Basic
import EmmcfsModel.Lib.Loop

namespace Emmcfs

-- The catalog tree's and the extents tree's rw_tree_lock, and the lock of the free space manager.
inductive TreeLock
  | catalog | extents | fsm
  deriving DecidableEq, Repr

-- The functions that take these locks, with those that they call with a lock of their own.
inductive Caller
  | readdir | lookup | rename | link | unlink | create | writeInodeToBnode
  | fsmFreeRuntimeFork | addOrphanInode | fsmFreeExttree
  | truncateExttree | truncateFork | truncateBlocks
  | exttreeGetBlock | exttreeAddBlock | fsmGetFreeBlock | fsmFreeBlockChunk
  deriving DecidableEq, Repr

-- What a function tests of its arguments and of what it finds in memory and on the volume.
inductive Condition
  | nameTooLong | notDirectory | isDirectory | isRegular | isRegularOrLink
  | otherParent | otherObject | otherKey | isHlink | bufferTooSmall
  | belowFirstIno | tooManyLinks | hasLinks | hasBlocks | targetExists | targetNotEmpty
  | hasExtent | emptyExtent | fitsNewSize | inExttree | beyondNewSize | acrossNewSize | wholeExtent
  | nextToExtent | beyondVolume | pageOutOfRange | hasPage | hasBit | bitOutOfRange | bitClear
  | mountFinished
  deriving DecidableEq, Repr

-- What a function calls. Places in the source that are told apart below have names of their own:
-- filldir for the dot entries, btree_remove of an orphan record, and the allocation of a name.
inductive Callee
  | filldirDot | filldirDotDot | filldir
  | kmalloc | kmallocName
  | btreeFind | btreeInsert | btreeRemove | removeOrphan
  | getBtreeRecord | getNextBtreeRecord | cattreeFind | getFromCattree | findFirstCatalogChild
  | extentFind | exttreeAdd
  | getParamsOnHlinkId | getHlinkValuePage | freeHlinkData | cloneDataIntoHlinkArea | addHlinkRecord
  | addNewCattreeObject | fillCattreeValue | newInode | freeInodeN | iget
  | addChunk | fsmBtreeLookup | fsmFreeBlockChunk
  | test (c : Condition)
  deriving DecidableEq, Repr

-- A call with its result: 0, or an error. A test is a call that has 0 for false.
structure Call where
  caller : Caller
  callee : Callee
  result : Int
  deriving DecidableEq, Repr

-- A function's run with respect to its locks. `answers` are the results of the calls to come, and
-- `calls` the calls made, the last one first. `depth` says how often each lock is held, and
-- `underrun` whether one has been released that was not held.
structure Session where
  answers  : List Int
  calls    : List Call
  depth    : TreeLock → Nat
  underrun : Bool

namespace Session

def start (answers : List Int) : Session where
  answers  := answers
  calls    := []
  depth    := fun _ => 0
  underrun := false

def locked (s : Session) (l : TreeLock) : Session :=
  { s with depth := Function.update s.depth l (s.depth l + 1) }

def unlocked (s : Session) (l : TreeLock) : Session :=
  { s with
    depth    := Function.update s.depth l (s.depth l - 1)
    underrun := s.underrun || s.depth l = 0 }

def called (s : Session) (caller : Caller) (callee : Callee) (result : Int) : Session :=
  { s with calls := ⟨caller, callee, result⟩ :: s.calls }

-- Every lock has been released as often as it was taken, and only while it was held.
def Balanced (s : Session) : Prop :=
  (∀ l, s.depth l = 0) ∧ s.underrun = false

end Session

-- Code that does not return if it reaches BUG(), if it follows an error pointer, or if there is no
-- answer left for a call.
abbrev Locking (α : Type) := Code Empty Session α

namespace Locking

def lock (l : TreeLock) : Locking Unit := Code.modify (·.locked l)

def unlock (l : TreeLock) : Locking Unit := Code.modify (·.unlocked l)

def note (caller : Caller) (callee : Callee) (result : Int) : Locking Unit :=
  Code.modify (·.called caller callee result)

def call (caller : Caller) (callee : Callee) : Locking Int := fun s =>
  match s.answers with
  | []             => .halt
  | result :: rest => .ok result ({ s with answers := rest }.called caller callee result)

def test (caller : Caller) (c : Condition) : Locking Bool := do
  return (← call caller (.test c)) ≠ 0

-- while (true): as each round has a call, there are fewer rounds than answers.
def forever (body : Locking (Option α)) : Locking α := do
  let s ← Code.get
  Code.loop body (s.answers.length + 1)

end Locking

end Emmcfs
