import EmmcfsModel.Fsm.Space

namespace Emmcfs

open FsmNode

-- The outcomes of the calls of allocate_btree_node, one after the other: whether a node is given.
-- When there are no more entries the calls succeed.
def allocateBtreeNode : List Bool → Bool × List Bool
  | []                => (true, [])
  | given :: outcomes => (given, outcomes)

-- A call that is made under a condition.
def allocateIf (needed : Bool) (outcomes : List Bool) : Bool × List Bool :=
  if needed then allocateBtreeNode outcomes else (true, outcomes)

section Insert

variable {κ : Type} (cmp : κ → κ → Int) (order : Nat) (keyVal : κ)

-- Whether btree_split_child is called for the child that is entered next.
def splitsChild (node : FsmNode κ) : Bool :=
  match scanIndex cmp keyVal node.keyVals node.nrActive with
  | none   => false
  | some i => node.children[i]?.any fun child =>
    child.nrActive = 2 * order - 1 ∧ hasKey cmp keyVal child.keyVals = false

-- btree_insert_nonfull: a split that gets no node leaves the tree as the turns before have made it.
def insertNonfullAlloc : Nat → FsmNode κ → List Bool → (FsmNode κ × Option Errno) × List Bool
  | 0, node, outcomes        => ((node, none), outcomes)
  | fuel + 1, node, outcomes =>
    match node.type with
    | .leaf  => (btreeInsertNonfull cmp order keyVal 1 node, outcomes)
    | .index =>
      let (given, outcomes) := allocateIf (splitsChild cmp order keyVal node) outcomes
      if given then
        match enterChild cmp order keyVal node with
        | none           => ((node, some .eexist), outcomes)
        | some (node, i) =>
          match node.children[i]? with
          | none       => ((node, none), outcomes)
          | some child =>
            let ((child, err), outcomes) := insertNonfullAlloc fuel child outcomes
            ((node.setChild i child, err), outcomes)
      else ((node, some .enomem), outcomes)

end Insert

section Delete

variable {κ : Type} (cmp : κ → κ → Int) (order : Nat) (key : κ)

-- The child at `index` is merged before it is entered, by merge_siblings.
def mergesSiblings (node : FsmNode κ) (index : Nat) : Bool :=
  let keysOf (i : Nat) := node.children[i]?.map nrActive
  let rsibling := if index = node.nrActive then none else keysOf (index + 1)
  let lsibling := if index = 0 then none else keysOf (index - 1)
  keysOf index = some (order - 1) ∧ ¬rsibling.any (order - 1 < ·) ∧ ¬lsibling.any (order - 1 < ·) ∧
    (lsibling = some (order - 1) ∨ rsibling = some (order - 1))

-- The children around the key at `index` can spare no key and are merged, by merge_nodes.
def mergesAround (node : FsmNode κ) (index : Nat) : Bool :=
  node.children[index]?.any fun lchild => node.children[index + 1]?.any fun rchild =>
    lchild.nrActive = order - 1 ∧ rchild.nrActive = order - 1

-- Where the loop of fsm_btree_delete finds the key in a node, or stops on the way to it.
def deleteIndex (node : FsmNode κ) : Nat :=
  node.keyVals.findIdx fun k => cmp key k ≤ 0

def findsKey (node : FsmNode κ) : Bool :=
  node.keyVals[deleteIndex cmp key node]?.any fun k => cmp key k = 0

-- Whether a turn of the loop needs a node.
def deleteMerges (node : FsmNode κ) : Bool :=
  node.type = .index ∧ node.nrActive ≠ 0 ∧
    if findsKey cmp key node then mergesAround order node (deleteIndex cmp key node)
    else mergesSiblings order node (deleteIndex cmp key node)

-- The loop, and whether it has come to its end: a merge that gets no node leaves the tree as the
-- turns before have made it.
def deleteLoopAlloc : Nat → Bool → FsmNode κ → List Bool → (Option (FsmNode κ) × Bool) × List Bool
  | 0, _, node, outcomes             => ((some node, true), outcomes)
  | fuel + 1, isRoot, node, outcomes =>
    let (given, outcomes) := allocateIf (deleteMerges cmp order key node) outcomes
    if given then
      match deleteStep cmp order key isRoot node with
      | .stop        => ((some node, true), outcomes)
      | .remove pos  => ((removeKeyFromLeaf isRoot node pos, true), outcomes)
      | .down node i =>
        match node.children[i]? with
        | none       => ((some node, true), outcomes)
        | some child =>
          if node.nrActive = 0 ∧ isRoot then deleteLoopAlloc fuel true child outcomes
          else
            let ((child, done), outcomes) := deleteLoopAlloc fuel false child outcomes
            ((child.map (node.setChild i), done), outcomes)
    else ((some node, false), outcomes)

end Delete

-- The free space tree, whether its root is an ERR_PTR, and how the allocations will end.
structure FsmMemory (κ : Type) where
  btree     : FsmBtree κ
  rootIsErr : Bool
  outcomes  : List Bool

-- A use of an ERR_PTR halts.
abbrev FsmCode (κ α : Type) := Driver (FsmMemory κ) α

namespace FsmMemory

section Tree

variable {κ : Type} (cmp : κ → κ → Int)

def allocate : FsmCode κ Bool := fun m =>
  .ok (allocateBtreeNode m.outcomes).1 { m with outcomes := (allocateBtreeNode m.outcomes).2 }

def setRoot (root : Option (FsmNode κ)) : FsmCode κ Unit :=
  Code.modify fun m => { m with btree := { m.btree with root := root } }

def insertNonfull (keyVal : κ) (node : FsmNode κ) : FsmCode κ Unit := do
  let m ← Code.get
  let ((root, err), outcomes) :=
    insertNonfullAlloc cmp m.btree.order keyVal (node.level + 1) node m.outcomes
  Code.modify fun m => { m with btree := { m.btree with root := some root }, outcomes := outcomes }
  err.elim (pure ()) Code.fail

-- fsm_btree_insert
def insert (keyVal : κ) : FsmCode κ Unit := do
  let m ← Code.get
  if m.rootIsErr then Code.fail .enomem
  else
    match m.btree.root with
    | none => do
      let given ← allocate
      if given then insertNonfull cmp keyVal (FsmNode.mk 0 .leaf [] [])
      else do
        Code.modify fun m => { m with rootIsErr := true }
        Code.fail .enomem
    | some rnode =>
      if rnode.nrActive = 2 * m.btree.order - 1 then do
        let given ← allocate
        -- new_root is not checked before its level is set
        Code.haltOn (given = false)
        let newRoot := FsmNode.mk (rnode.level + 1) .index [] [rnode]
        setRoot (some newRoot)
        let given ← allocate
        if given then insertNonfull cmp keyVal (btreeSplitChild m.btree.order newRoot 0)
        else Code.fail .enomem
      else insertNonfull cmp keyVal rnode

-- fsm_btree_delete
def delete (key : κ) : FsmCode κ Unit := do
  let m ← Code.get
  if m.rootIsErr then Code.fail .enomem
  else
    match m.btree.root with
    | none      => pure ()
    | some root => do
      let ((root, done), outcomes) :=
        deleteLoopAlloc cmp m.btree.order key (root.level + 1) true root m.outcomes
      Code.modify fun m => { m with btree := { m.btree with root := root }, outcomes := outcomes }
      if done then pure () else Code.fail .enomem

end Tree

-- A call whose result nobody looks at.
def ignore (m : FsmCode κ Unit) : FsmCode κ Unit :=
  Code.onFail m fun _ => pure ()

-- fsm_btree_free
def free (blockOffset length : Nat) : FsmCode FsmBtreeKey Unit := do
  let m ← Code.get
  Code.haltOn m.rootIsErr
  match m.btree.root with
  | none      => insert fsmBtreeCmpFn ⟨blockOffset, length⟩
  | some root =>
    match freeWalk blockOffset length (root.level + 1) root with
    | .nothing                => ignore (insert fsmBtreeCmpFn ⟨blockOffset, length⟩)
    | .grown root none        => setRoot (some root)
    | .grown root (some next) => do
      setRoot (some root)
      delete fsmBtreeCmpFn next
    | .before key             => do
      ignore (delete fsmBtreeCmpFn key)
      ignore (insert fsmBtreeCmpFn ⟨blockOffset, length + key.length⟩)

-- What is left of a chunk goes back into the tree.
def insertRest (key : FsmBtreeKey) (length : Nat) : FsmCode FsmBtreeKey Unit :=
  if length < key.length then
    insert fsmBtreeCmpFn ⟨key.blockOffset + length, key.length - length⟩
  else pure ()

-- fsm_btree_lookup: only the first search looks at the results of the calls.
def lookup (blockOffset length : Nat) : FsmCode FsmBtreeKey Nat := do
  let m ← Code.get
  Code.haltOn m.rootIsErr
  match m.btree.root with
  | none      => pure 0
  | some root =>
    match lookupAt blockOffset length (root.level + 1) root with
    | some key => Code.onFail (do
        delete fsmBtreeCmpFn key
        insertRest key length
        pure blockOffset) fun _ => pure 0
    | none     =>
      match lookupAny length (nodeCount root.level root) [root] with
      | some key => do
        ignore (delete fsmBtreeCmpFn key)
        ignore (insertRest key length)
        pure key.blockOffset
      | none     => pure 0

end FsmMemory

inductive FsmOperation
  | insert (key : FsmBtreeKey)
  | delete (key : FsmBtreeKey)
  | free (blockOffset length : Nat)
  | lookup (blockOffset length : Nat)

namespace FsmOperation

-- fsm_btree_lookup reports a failure by a 0.
def call : FsmOperation → FsmCode FsmBtreeKey Unit
  | insert key                => FsmMemory.insert fsmBtreeCmpFn key
  | delete key                => FsmMemory.delete fsmBtreeCmpFn key
  | free blockOffset length   => FsmMemory.free blockOffset length
  | lookup blockOffset length => do
    let r ← FsmMemory.lookup blockOffset length
    if r = 0 then Code.fail .enospc else pure ()

-- The tree after the operation if all allocations succeed.
def after (btree : FsmBtree FsmBtreeKey) : FsmOperation → FsmBtree FsmBtreeKey
  | insert key                => (fsmBtreeInsert fsmBtreeCmpFn btree key).1
  | delete key                => fsmBtreeDelete fsmBtreeCmpFn btree key
  | free blockOffset length   => fsmBtreeFree btree blockOffset length
  | lookup blockOffset length => (fsmBtreeLookup btree blockOffset length).1

end FsmOperation

-- The allocations that an operation makes as long as they succeed, in their order. Each is marked if
-- its failure does harm.
section Harm

variable {κ : Type} (cmp : κ → κ → Int)

def allHarmful (allocs : List Bool) : List Bool :=
  allocs.map fun _ => true

-- No split below the root does.
def nonfullAllocs (order : Nat) (keyVal : κ) : Nat → FsmNode κ → List Bool
  | 0, _           => []
  | fuel + 1, node =>
    match node.type with
    | .leaf  => []
    | .index => (if splitsChild cmp order keyVal node then [false] else []) ++
      match enterChild cmp order keyVal node with
      | none           => []
      | some (node, i) => node.children[i]?.elim [] (nonfullAllocs order keyVal fuel)

def insertAllocs (btree : FsmBtree κ) (keyVal : κ) : List Bool :=
  match btree.root with
  | none       => [true]
  | some rnode =>
    if rnode.nrActive = 2 * btree.order - 1 then
      true :: true :: nonfullAllocs cmp btree.order keyVal (rnode.level + 2)
        (btreeSplitChild btree.order (mk (rnode.level + 1) .index [] [rnode]) 0)
    else nonfullAllocs cmp btree.order keyVal (rnode.level + 1) rnode

-- A turn that finds the key in an index node and merges nothing exchanges it for its neighbour.
def deleteSwaps (order : Nat) (key : κ) (node : FsmNode κ) : Bool :=
  findsKey cmp key node ∧ deleteMerges cmp order key node = false

-- Merges do after the exchange.
def loopAllocs (order : Nat) (key : κ) : Nat → Bool → FsmNode κ → List Bool
  | 0, _, _                => []
  | fuel + 1, isRoot, node =>
    (if deleteMerges cmp order key node then [false] else []) ++
      match deleteStep cmp order key isRoot node with
      | .down node' i =>
        let below := node'.children[i]?.elim []
          (loopAllocs order key fuel (node'.nrActive = 0 ∧ isRoot))
        if deleteSwaps cmp order key node then allHarmful below else below
      | _             => []

def deleteAllocs (btree : FsmBtree κ) (key : κ) : List Bool :=
  btree.root.elim [] fun root => loopAllocs cmp btree.order key (root.level + 1) true root

end Harm

namespace FsmOperation

def restAllocs (btree : FsmBtree FsmBtreeKey) (key : FsmBtreeKey) (length : Nat) : List Bool :=
  if length < key.length then
    insertAllocs fsmBtreeCmpFn (fsmBtreeDelete fsmBtreeCmpFn btree key)
      ⟨key.blockOffset + length, key.length - length⟩
  else []

def allocs (btree : FsmBtree FsmBtreeKey) : FsmOperation → List Bool
  | insert key              => insertAllocs fsmBtreeCmpFn btree key
  | delete key              => deleteAllocs fsmBtreeCmpFn btree key
  | free blockOffset length => allHarmful <|
    match btree.root with
    | none      => insertAllocs fsmBtreeCmpFn btree ⟨blockOffset, length⟩
    | some root =>
      match freeWalk blockOffset length (root.level + 1) root with
      | .nothing                => insertAllocs fsmBtreeCmpFn btree ⟨blockOffset, length⟩
      | .grown _ none           => []
      | .grown root (some next) => deleteAllocs fsmBtreeCmpFn { btree with root := some root } next
      | .before key             => deleteAllocs fsmBtreeCmpFn btree key ++
        insertAllocs fsmBtreeCmpFn (fsmBtreeDelete fsmBtreeCmpFn btree key)
          ⟨blockOffset, length + key.length⟩
  | lookup blockOffset length =>
    match btree.root with
    | none      => []
    | some root =>
      match lookupAt blockOffset length (root.level + 1) root with
      | some key => deleteAllocs fsmBtreeCmpFn btree key ++ allHarmful (restAllocs btree key length)
      | none     =>
        match lookupAny length (nodeCount root.level root) [root] with
        | some key => allHarmful (deleteAllocs fsmBtreeCmpFn btree key ++ restAllocs btree key length)
        | none     => []

end FsmOperation

-- The mark of the first allocation that fails.
def firstFailure : (allocs outcomes : List Bool) → Option Bool
  | _ :: allocs, true :: outcomes => firstFailure allocs outcomes
  | harm :: _, false :: _         => some harm
  | _, _                          => none

end Emmcfs
