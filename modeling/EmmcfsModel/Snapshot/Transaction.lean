import Mathlib.Data.Fintype.Card
import EmmcfsModel.Snapshot.Slots

namespace Emmcfs

-- What emmcfs_start_transaction and its kin read of emmcfs_snapshot_info and never change.
structure TransactionConfig where
  pagesPerHead             : Nat
  maxPagesInSnapshot       : Nat
  maximumTransactionLength : Nat

namespace TransactionConfig

-- `page_index > max_lenght` in flash_snapshot: the unsigned length is kept in an int, which is then
-- extended to an unsigned long for the comparison.
def limit (config : TransactionConfig) : Nat :=
  if config.maximumTransactionLength < 2 ^ 31 then config.maximumTransactionLength
  else config.maximumTransactionLength + (2 ^ 64 - 2 ^ 32)

end TransactionConfig

-- What the mount knows when it sets up the length of a transaction: the snapshot area, i_size of
-- the block device, and the size of a catalog tree node, whose free space is a __le16.
structure SnapshotGeometry where
  area               : SnapshotArea
  deviceSize         : Nat
  logPagesPerNode    : Nat
  logPagesPerNode_le : logPagesPerNode ≤ 4

namespace SnapshotGeometry

variable (geometry : SnapshotGeometry)

def pagesPerNode : Nat := 1 <<< geometry.logPagesPerNode

def nodeSizeBytes : Nat := geometry.pagesPerNode <<< pageCacheShift

-- sizeof(struct emmcfs_cattree_key) + sizeof(struct generic_index_value)
def maxIndexRecLen : Nat := 281 + 4

-- The node's descriptor, checksum and free space offset are not for records, and each record has
-- an offset.
def minRecNumInIndexBnode : Nat :=
  (geometry.nodeSizeBytes - 19 - 4 - 4) / (maxIndexRecLen + 4)

-- An int: if it is negative then the loop below does not run, just as with 0.
def maxBnodesOnVolume : Nat :=
  let nodes := u32 (geometry.deviceSize >>> (pageCacheShift + geometry.pagesPerNode))
  if nodes < 2 ^ 31 then nodes else 0

theorem pagesPerNode_pos : 0 < geometry.pagesPerNode := by
  rw [pagesPerNode, Nat.one_shiftLeft]
  exact Nat.two_pow_pos _

theorem one_lt_minRecNumInIndexBnode : 1 < geometry.minRecNumInIndexBnode := by
  have := geometry.pagesPerNode_pos
  rw [minRecNumInIndexBnode, nodeSizeBytes, Nat.shiftLeft_eq, maxIndexRecLen, pageCacheShift]
  omega

-- The loop of count_max_cattree_height.
def cattreeHeight (nodes maxCattreeHeight : Nat) : Nat :=
  if 1 < nodes then cattreeHeight (nodes / geometry.minRecNumInIndexBnode) (maxCattreeHeight + 1)
  else maxCattreeHeight
  termination_by nodes
  decreasing_by exact Nat.div_lt_self (by omega) geometry.one_lt_minRecNumInIndexBnode

def countMaxCattreeHeight : Nat :=
  geometry.cattreeHeight geometry.maxBnodesOnVolume 1

-- `btree_height` of set_up_max_snapshot_height, with one for the head.
def btreeHeight : Nat := geometry.countMaxCattreeHeight + 1

def setUpMaxSnapshotHeight : TransactionConfig where
  pagesPerHead             := geometry.area.pagesPerHead
  maxPagesInSnapshot       := geometry.area.maxPagesInSnapshot
  maximumTransactionLength :=
    u32Sub (u32Sub (u32Sub geometry.area.maxPagesInSnapshot geometry.area.pagesPerHead)
      (8 * geometry.btreeHeight)) 6

-- The chunks for which a transaction's length leaves room.
def reserve : Nat := 8 * geometry.btreeHeight + 6

end SnapshotGeometry

-- Where a task is: in code of its own, or at one of the places of emmcfs_start_transaction and
-- emmcfs_stop_transaction at which other tasks can come between. `lock` waits for down_write,
-- `write` has it, `read` waits for down_read.
inductive TaskPhase
  | running
  | startFlash | startLock | startWrite | startRead
  | stopFlash | stopLock | stopWrite
  deriving DecidableEq, Repr

-- The tasks' logs with their r_lock_count, transaction_lock, and page_index. `openBrackets` and
-- `chunks` are not in the code: the transactions that a task has started and not stopped, and what
-- it has added to the snapshot since the outermost of them.
structure TransactionState (τ : Type) where
  taskLog      : τ → Option Nat
  phase        : τ → TaskPhase
  openBrackets : τ → Nat
  chunks       : τ → Nat
  readers      : Nat
  writer       : Bool
  pageIndex    : Nat

-- What a task does next. The counters of a task's log are its own, so that taking or releasing the
-- lock and counting it is one event. The outcome of the commit, sync and clear of a flush is open.
inductive TransactionEvent (τ : Type)
  | start (t : τ)
  | test (t : τ)
  | downWrite (t : τ)
  | flush (t : τ) (success : Bool)
  | downRead (t : τ)
  | stop (t : τ)
  | add (t : τ) (pages : Nat)
  deriving DecidableEq, Repr

-- An event that has to wait, or that its task does not come to, one that ends in BUG(), or one that
-- leads to a new state.
inductive StepResult (σ : Type)
  | blocked
  | bug
  | next (s : σ)

namespace TransactionState

variable {τ : Type} [DecidableEq τ] (config : TransactionConfig)

def init (config : TransactionConfig) : TransactionState τ where
  taskLog      := fun _ => none
  phase        := fun _ => .running
  openBrackets := fun _ => 0
  chunks       := fun _ => 0
  readers      := 0
  writer       := false
  pageIndex    := config.pagesPerHead

variable (s : TransactionState τ)

def rLockCount (t : τ) : Nat := (s.taskLog t).getD 0

def setPhase (t : τ) (p : TaskPhase) : TransactionState τ :=
  { s with phase := Function.update s.phase t p }

def setCount (t : τ) (n : Nat) : TransactionState τ :=
  { s with taskLog := Function.update s.taskLog t (some n) }

def setBrackets (t : τ) (n : Nat) : TransactionState τ :=
  { s with openBrackets := Function.update s.openBrackets t n }

def setChunks (t : τ) (n : Nat) : TransactionState τ :=
  { s with chunks := Function.update s.chunks t n }

-- emmcfs_start_transaction up to the flush, which only the outermost transaction of a task makes.
def startTransaction (t : τ) : TransactionState τ :=
  let s := s.setCount t (s.rLockCount t)
  if s.rLockCount t = 0 then s.setPhase t .startFlash
  else (s.setCount t (s.rLockCount t + 1)).setBrackets t (s.openBrackets t + 1)

-- The body of flash_snapshot under the write lock: whether it returns 0, and page_index.
def flash (success : Bool) : Bool × Nat :=
  if s.pageIndex ≤ config.limit then (true, s.pageIndex)
  else if success then (true, config.pagesPerHead)
  else (false, s.pageIndex)

-- emmcfs_stop_transaction up to the flush.
def stopTransaction (t : τ) : StepResult (TransactionState τ) :=
  match s.taskLog t with
  | none         => .bug
  | some 0       => .bug
  | some 1       => .next <| { s with readers := s.readers - 1 }
    |>.setCount t 0 |>.setBrackets t (s.openBrackets t - 1) |>.setPhase t .stopFlash
  | some (n + 2) => .next <| s.setCount t (n + 1) |>.setBrackets t (s.openBrackets t - 1)

-- emmcfs_add_to_snapshot with pages that are not in the snapshot yet.
def addToSnapshot (t : τ) (pages : Nat) : StepResult (TransactionState τ) :=
  if s.writer then .bug
  else if config.maxPagesInSnapshot < s.pageIndex + pages then .bug
  else .next <| { s with pageIndex := s.pageIndex + pages } |>.setChunks t (s.chunks t + 1)

def step : TransactionEvent τ → StepResult (TransactionState τ)
  | .start t => if s.phase t = .running then .next (s.startTransaction t) else .blocked
  | .test t =>
    match s.phase t with
    | .startFlash =>
      .next <| s.setPhase t (if config.limit < s.pageIndex then .startLock else .startRead)
    | .stopFlash =>
      .next <| s.setPhase t (if config.limit < s.pageIndex then .stopLock else .running)
    | _ => .blocked
  | .downWrite t =>
    if s.readers = 0 ∧ !s.writer then
      match s.phase t with
      | .startLock => .next <| { s with writer := true } |>.setPhase t .startWrite
      | .stopLock  => .next <| { s with writer := true } |>.setPhase t .stopWrite
      | _          => .blocked
    else .blocked
  | .flush t success =>
    let s' := { s with writer := false, pageIndex := (s.flash config success).2 }
    match s.phase t with
    | .startWrite =>
      if (s.flash config success).1 then .next (s'.setPhase t .startRead)
      -- the transaction's code goes on as if it had been started
      else .next <| s'.setPhase t .running |>.setBrackets t (s.openBrackets t + 1) |>.setChunks t 0
    | .stopWrite => .next (s'.setPhase t .running)
    | _          => .blocked
  | .downRead t =>
    if s.phase t = .startRead ∧ !s.writer then
      .next <| { s with readers := s.readers + 1 } |>.setCount t (s.rLockCount t + 1)
        |>.setBrackets t (s.openBrackets t + 1) |>.setChunks t 0 |>.setPhase t .running
    else .blocked
  | .stop t => if s.phase t = .running ∧ 0 < s.openBrackets t then s.stopTransaction t else .blocked
  | .add t pages =>
    if s.phase t = .running ∧ 0 < s.openBrackets t then s.addToSnapshot config t pages else .blocked

def Step (s : TransactionState τ) (e : TransactionEvent τ) (s' : TransactionState τ) : Prop :=
  s.step config e = .next s'

end TransactionState

end Emmcfs
