import EmmcfsModel.Btree.Btree
import EmmcfsModel.Lib.Loop
import EmmcfsModel.Lib.RingBuffer

namespace Emmcfs

-- EMMCFS_BNODE_CACHE_ITEMS
def bnodeCacheItems : Nat := 1000

theorem bnodeCacheItems_pos : 0 < bnodeCacheItems := by decide

-- The tree that emmcfs_verify_btree looks at, its query of bnodes, in which there may be error
-- pointers, and its variable err.
structure Verification (κ ν : Type) where
  btree : Btree κ ν
  query : RingBuffer (Except Errno Nat) bnodeCacheItems
  err   : Option Errno

abbrev VerifyCode (κ ν α : Type) := Driver (Verification κ ν) α

namespace Verification

variable (tree : BtreeOps κ)

def onBtree (m : BtreeCode κ ν α) : VerifyCode κ ν α :=
  Code.zoom (·.btree) (fun btree s => { s with btree }) m

-- emmcfs_init_query; the memory for the data is used without a look at the outcome of the request.
def initQuery : VerifyCode κ ν Unit := do
  Code.onFail (onBtree kmalloc) fun _ => Code.halt
  Code.modify fun s => { s with
    query := letI : Inhabited (Except Errno Nat) := ⟨.ok 0⟩; RingBuffer.empty bnodeCacheItems_pos
    err   := none }

-- emmcfs_push_query; none for success.
def pushQuery (element : Except Errno Nat) : VerifyCode κ ν (Option Errno) := do
  let s ← Code.get
  match s.query.push element with
  | none       => pure (some .enospc)
  | some query => do
    Code.modify fun s => { s with query }
    pure none

-- emmcfs_pop_query; none for NULL.
def popQuery : VerifyCode κ ν (Option (Except Errno Nat)) := do
  let s ← Code.get
  match s.query.pop with
  | none              => pure none
  | some (res, query) => do
    Code.modify fun s => { s with query }
    pure (some res)

-- A bnode or an error pointer.
def errPtr (m : BtreeCode κ ν Nat) : VerifyCode κ ν (Except Errno Nat) :=
  Code.onFail (do
    let id ← onBtree m
    pure (.ok id)) fun e => pure (.error e)

-- The loop over the records of an index node. It ends when the query is full, with err set.
def pushChildren : List (BtreeRecord κ ν) → VerifyCode κ ν Unit
  | []        => pure ()
  | r :: recs => do
    let child ← errPtr (getChildBnode tree r)
    let err ← pushQuery child
    Code.modify fun s => { s with err }
    if err.isSome then pure () else pushChildren recs

-- The end of the walk: err is returned.
def finish : VerifyCode κ ν (Option Unit) := do
  let s ← Code.get
  match s.err with
  | none   => pure (some ())
  | some e => Code.fail e

-- What is done with a bnode. The id that emmcfs_get_next_bnode asks for is that of the bnode it gets.
def verifyBnode (id : Nat) : VerifyCode κ ν (Option Unit) := do
  let s ← Code.get
  let bnode := s.btree.bnode id
  if bnode.nextNodeId = 0 then finish
  else do
    let temp ← onBtree (getBnode bnode.nextNodeId)
    if temp.prevNodeId ≠ id then Code.fail .einval
    else if bnode.type = .leaf then pure none
    else do
      pushChildren tree bnode.recs
      pure none

-- One round of the loop.
def verifyRound : VerifyCode κ ν (Option Unit) := do
  match ← popQuery with
  | none            => finish
  | some (.error e) => Code.fail e
  | some (.ok id)   => verifyBnode tree id

-- The part of emmcfs_verify_btree before the loop.
def pushRoot : VerifyCode κ ν Unit := do
  initQuery
  let s ← Code.get
  let root ← errPtr (do
    let _ ← getBnode s.btree.rootBnodeId
    pure s.btree.rootBnodeId)
  let _ ← pushQuery root
  pure ()

-- emmcfs_verify_btree; its loop is `while (1)`, and `rounds` is how often it is followed.
def emmcfsVerifyBtree (rounds : Nat) : VerifyCode κ ν Unit := do
  pushRoot
  Code.loop (verifyRound tree) rounds

end Verification

namespace Btree

variable (s : Btree κ ν)

-- The nodes that emmcfs_get_bnode finds.
def InUse (id : Nat) : Prop :=
  id = 0 ∨ s.bitmap.testBit id = true

-- The nodes below the root.
inductive Reachable : Nat → Prop
  | root : s.InUse s.rootBnodeId → Reachable s.rootBnodeId
  | child {id : Nat} : Reachable id → (s.bnode id).type = .index → r ∈ (s.bnode id).recs → r.nodeId ≠ 0 →
    s.InUse r.nodeId → Reachable r.nodeId

-- A node that names a next node is the previous node of that one.
def LinkOk (id : Nat) : Prop :=
  (s.bnode id).nextNodeId ≠ 0 → s.InUse (s.bnode id).nextNodeId ∧
    (s.bnode (s.bnode id).nextNodeId).prevNodeId = id

def LinksOk : Prop :=
  ∀ id, s.Reachable id → s.LinkOk id

-- The index records lead from level to level.
def Ranked : Prop :=
  ∃ rank : Nat → Nat, ∀ id, (s.bnode id).type = .index → ∀ r ∈ (s.bnode id).recs,
    rank r.nodeId < rank id

end Btree

namespace Verification

-- The check comes to an end, and it does not pass a tree with a wrong link.
structure Sound (tree : BtreeOps κ) (s : Verification κ ν) : Prop where
  ends  : ∃ n, emmcfsVerifyBtree tree n s ≠ .halt ∧
    ∀ k, emmcfsVerifyBtree tree (n + k) s = emmcfsVerifyBtree tree n s
  links : ∀ n s', emmcfsVerifyBtree tree n s = .ok () s' → s.btree.LinksOk

-- So many requests for memory and nodes have success.
def Quiet (n : Nat) (s : Verification κ ν) : Prop :=
  ∀ e, some e ∉ s.btree.env.outcomes.take n

end Verification

end Emmcfs
