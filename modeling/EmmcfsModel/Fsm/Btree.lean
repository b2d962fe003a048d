import EmmcfsModel.Basic

namespace Emmcfs

-- A free chunk: the numbers are u64 and stay far below 2 ^ 64.
@[ext]
structure FsmBtreeKey where
  blockOffset : Nat
  length      : Nat
  deriving DecidableEq, Repr

def fsmBtreeCmpFn (key₁ key₂ : FsmBtreeKey) : Int :=
  if key₁.blockOffset < key₂.blockOffset then -1
  else if key₂.blockOffset < key₁.blockOffset then 1
  else if key₁.length < key₂.length then -1
  else if key₂.length < key₁.length then 1
  else 0

inductive FsmNodeType
  | index | leaf
  deriving DecidableEq, Repr

-- A node of the free space tree. The lists hold the active keys and children, a leaf has no
-- children. The `next` pointers are set and used within one walk of fsm_btree_lookup only.
inductive FsmNode (κ : Type)
  | mk (level : Nat) (type : FsmNodeType) (keyVals : List κ) (children : List (FsmNode κ))

namespace FsmNode

variable {κ : Type}

def level : FsmNode κ → Nat
  | mk level _ _ _ => level

def type : FsmNode κ → FsmNodeType
  | mk _ type _ _ => type

def keyVals : FsmNode κ → List κ
  | mk _ _ keyVals _ => keyVals

def children : FsmNode κ → List (FsmNode κ)
  | mk _ _ _ children => children

def nrActive (node : FsmNode κ) : Nat :=
  node.keyVals.length

def setChild (node : FsmNode κ) (i : Nat) (child : FsmNode κ) : FsmNode κ :=
  mk node.level node.type node.keyVals (node.children.set i child)

end FsmNode

open FsmNode

section Insert

variable {κ : Type} (cmp : κ → κ → Int) (order : Nat)

-- btree_split_child for the child at `index`.
def btreeSplitChild (parent : FsmNode κ) (index : Nat) : FsmNode κ :=
  match parent.children[index]? with
  | none       => parent
  | some child =>
    let newChild := mk child.level child.type ((child.keyVals.drop order).take (order - 1))
      ((child.children.drop order).take order)
    let child' := mk child.level child.type (child.keyVals.take (order - 1))
      (child.children.take order)
    mk parent.level parent.type
      (parent.keyVals.take index ++ (child.keyVals.drop (order - 1)).take 1 ++
        parent.keyVals.drop index)
      (parent.children.take index ++ child' :: newChild :: parent.children.drop (index + 1))

-- The binary search in a leaf, none if the key is found. `imax` is kept one higher than in the
-- source, so that it does not become negative.
def searchLeaf (keyVal : κ) (keys : List κ) : (fuel imin imax : Nat) → Option Nat
  | 0, _, imax           => some imax
  | fuel + 1, imin, imax =>
    if imin < imax then
      let imid := (imin + imax - 1) / 2
      match keys[imid]? with
      | none   => some imax
      | some k =>
        if 0 < cmp keyVal k then searchLeaf keyVal keys fuel (imid + 1) imax
        else if cmp keyVal k < 0 then searchLeaf keyVal keys fuel imin imid
        else none
    else some imax

-- The search for a child from the right, none if the key is found.
def scanIndex (keyVal : κ) (keys : List κ) : Nat → Option Nat
  | 0     => some 0
  | i + 1 =>
    match keys[i]? with
    | none   => scanIndex keyVal keys i
    | some k =>
      if cmp keyVal k = 0 then none
      else if 0 < cmp keyVal k then some (i + 1)
      else scanIndex keyVal keys i

-- The check for the key in a full child.
def hasKey (keyVal : κ) : List κ → Bool
  | []        => false
  | k :: keys =>
    if cmp keyVal k = 0 then true
    else if cmp keyVal k < 0 then false
    else hasKey keyVal keys

-- The child that is entered from an index node and the node itself, whose child may have been
-- split; none if the key is found.
def enterChild (keyVal : κ) (node : FsmNode κ) : Option (FsmNode κ × Nat) :=
  match scanIndex cmp keyVal node.keyVals node.nrActive with
  | none   => none
  | some i =>
    match node.children[i]? with
    | none       => some (node, i)
    | some child =>
      if child.nrActive = 2 * order - 1 then
        if hasKey cmp keyVal child.keyVals then none
        else
          let node := btreeSplitChild order node i
          match node.keyVals[i]? with
          | none   => some (node, i)
          | some k => some (node, if 0 < cmp keyVal k then i + 1 else i)
      else some (node, i)

-- Every turn of the loop goes down one level. With the error the tree may have been split.
def btreeInsertNonfull (keyVal : κ) : Nat → FsmNode κ → FsmNode κ × Option Errno
  | 0, node        => (node, none)
  | fuel + 1, node =>
    match node.type with
    | .leaf =>
      match searchLeaf cmp keyVal node.keyVals node.nrActive 0 node.nrActive with
      | none   => (node, some .eexist)
      | some i => (mk node.level node.type
        (node.keyVals.take i ++ keyVal :: node.keyVals.drop i) node.children, none)
    | .index =>
      match enterChild cmp order keyVal node with
      | none           => (node, some .eexist)
      | some (node, i) =>
        match node.children[i]? with
        | none       => (node, none)
        | some child =>
          let (child, err) := btreeInsertNonfull keyVal fuel child
          (node.setChild i child, err)

end Insert

section Delete

variable {κ : Type} (cmp : κ → κ → Int) (order : Nat)

inductive Position
  | left | right

-- move_key: the child at `index` receives a key from its right or its left sibling.
def moveKey (node : FsmNode κ) (index : Nat) (pos : Position) : FsmNode κ :=
  let index := match pos with | .left => index | .right => index - 1
  match node.children[index]?, node.children[index + 1]?, node.keyVals[index]? with
  | some lchild, some rchild, some k =>
    let (k', lchild, rchild) := match pos with
      | .left =>
        (rchild.keyVals.take 1,
          mk lchild.level lchild.type (lchild.keyVals ++ [k])
            (lchild.children ++ rchild.children.take 1),
          mk rchild.level rchild.type (rchild.keyVals.drop 1) (rchild.children.drop 1))
      | .right =>
        (lchild.keyVals.drop (lchild.nrActive - 1),
          mk lchild.level lchild.type (lchild.keyVals.take (lchild.nrActive - 1))
            (lchild.children.take lchild.nrActive),
          mk rchild.level rchild.type (k :: rchild.keyVals)
            (lchild.children.drop lchild.nrActive ++ rchild.children))
    mk node.level node.type
      (node.keyVals.take index ++ k' ++ node.keyVals.drop (index + 1))
      (node.children.take index ++ lchild :: rchild :: node.children.drop (index + 2))
  | _, _, _ => node

-- merge_nodes
def mergeNodes (n₁ : FsmNode κ) (kv : κ) (n₂ : FsmNode κ) : FsmNode κ :=
  mk n₁.level n₁.type (n₁.keyVals ++ kv :: n₂.keyVals) (n₁.children ++ n₂.children)

-- The node with its children at `index` and `index + 1` replaced by their merge.
def mergeAt (node : FsmNode κ) (index : Nat) : FsmNode κ :=
  match node.children[index]?, node.children[index + 1]?, node.keyVals[index]? with
  | some n₁, some n₂, some k =>
    mk node.level node.type (node.keyVals.take index ++ node.keyVals.drop (index + 1))
      (node.children.take index ++ mergeNodes n₁ k n₂ :: node.children.drop (index + 2))
  | _, _, _ => node

-- merge_siblings goes by the index only: the last child is merged with its left sibling, any other
-- with its right one. Both have `order - 1` keys there. The result comes with the place of the
-- merged node.
def mergeSiblings (parent : FsmNode κ) (index : Nat) : FsmNode κ × Nat :=
  let index := if index = parent.nrActive then index - 1 else index
  (mergeAt parent index, index)

-- A child with `order - 1` keys is given another key before it is entered.
def fixChild (node : FsmNode κ) (index : Nat) : FsmNode κ × Nat :=
  let keysOf (i : Nat) := node.children[i]?.map nrActive
  let rsibling := if index = node.nrActive then none else keysOf (index + 1)
  let lsibling := if index = 0 then none else keysOf (index - 1)
  if keysOf index = some (order - 1) then
    if rsibling.any (order - 1 < ·) then (moveKey node index .left, index)
    else if lsibling.any (order - 1 < ·) then (moveKey node index .right, index)
    else if lsibling = some (order - 1) then mergeSiblings node index
    else if rsibling = some (order - 1) then mergeSiblings node index
    else (node, index)
  else (node, index)

-- Exchange the greatest key of a subtree, which get_max_key_pos finds, for another one.
def swapMax (keyVal : κ) : Nat → FsmNode κ → Option (κ × FsmNode κ)
  | 0, _           => none
  | fuel + 1, node =>
    match node.type with
    | .leaf => node.keyVals.getLast?.map fun k =>
      (k, mk node.level node.type (node.keyVals.take (node.nrActive - 1) ++ [keyVal]) node.children)
    | .index =>
      match node.children[node.nrActive]? with
      | none       => none
      | some child => (swapMax keyVal fuel child).map fun (k, child) =>
        (k, node.setChild node.nrActive child)

-- The same with the least key.
def swapMin (keyVal : κ) : Nat → FsmNode κ → Option (κ × FsmNode κ)
  | 0, _           => none
  | fuel + 1, node =>
    match node.type with
    | .leaf => node.keyVals.head?.map fun k =>
      (k, mk node.level node.type (keyVal :: node.keyVals.drop 1) node.children)
    | .index =>
      match node.children[0]? with
      | none       => none
      | some child => (swapMin keyVal fuel child).map fun (k, child) =>
        (k, node.setChild 0 child)

-- What one turn of the loop of fsm_btree_delete does with a node: nothing more is to be done, the
-- key at a position of the leaf is removed, or the loop goes on in a child of the changed node.
inductive DeleteStep (κ : Type)
  | stop
  | remove (pos : Nat)
  | down (node : FsmNode κ) (child : Nat)

-- The key is in the index node at `index`: it changes places with its neighbour in a child that
-- can spare a key, or the two children are merged around it.
def deleteFromIndex (key : κ) (node : FsmNode κ) (index : Nat) : DeleteStep κ :=
  match node.children[index]?, node.children[index + 1]? with
  | some lchild, some rchild =>
    if order - 1 < lchild.nrActive then
      match swapMax key (lchild.level + 1) lchild with
      | none             => .stop
      | some (k, lchild) => .down (mk node.level node.type (node.keyVals.set index k)
        (node.children.set index lchild)) index
    else if order - 1 < rchild.nrActive then
      match swapMin key (rchild.level + 1) rchild with
      | none             => .stop
      | some (k, rchild) => .down (mk node.level node.type (node.keyVals.set index k)
        (node.children.set (index + 1) rchild)) (index + 1)
    else if lchild.nrActive = order - 1 ∧ rchild.nrActive = order - 1 then
      .down (mergeAt node index) index
    else .stop
  | _, _ => .stop

def deleteStep (key : κ) (isRoot : Bool) (node : FsmNode κ) : DeleteStep κ :=
  if node.nrActive = 0 then .stop
  else
    -- the first key that is not below the wanted one
    let index := node.keyVals.findIdx fun k => cmp key k ≤ 0
    if node.keyVals[index]?.any fun k => cmp key k = 0 then
      match node.type with
      | .leaf  => if order - 1 < node.nrActive ∨ isRoot then .remove index else .stop
      | .index => deleteFromIndex order key node index
    else
      match node.type with
      | .leaf  => .stop
      | .index =>
        let (node, index) := fixChild order node index
        .down node index

-- None if the root has lost its last key.
def removeKeyFromLeaf (isRoot : Bool) (node : FsmNode κ) (pos : Nat) : Option (FsmNode κ) :=
  let keyVals := node.keyVals.take pos ++ node.keyVals.drop (pos + 1)
  if keyVals.length = 0 ∧ isRoot then none
  else some (mk node.level node.type keyVals node.children)

-- A root that has lost its last key to a merge makes place for the merged node.
def deleteLoop (key : κ) : Nat → Bool → FsmNode κ → Option (FsmNode κ)
  | 0, _, node             => some node
  | fuel + 1, isRoot, node =>
    match deleteStep cmp order key isRoot node with
    | .stop         => some node
    | .remove pos   => removeKeyFromLeaf isRoot node pos
    | .down node i  =>
      match node.children[i]? with
      | none       => some node
      | some child =>
        if node.nrActive = 0 ∧ isRoot then deleteLoop key fuel true child
        else (deleteLoop key fuel false child).map (node.setChild i)

end Delete

-- EMMCFS_FSM_BTREE_ORDER is 32; any order from 2 on makes a tree.
structure FsmBtree (κ : Type) where
  order    : Nat
  order_ge : 2 ≤ order
  root     : Option (FsmNode κ)

theorem fsmBtreeOrder_ge : 2 ≤ 32 := by decide

section Tree

variable {κ : Type} (cmp : κ → κ → Int)

-- fsm_btree_insert; node allocation succeeds.
def fsmBtreeInsert (btree : FsmBtree κ) (keyVal : κ) : FsmBtree κ × Option Errno :=
  let rnode := btree.root.getD (mk 0 .leaf [] [])
  if rnode.nrActive = 2 * btree.order - 1 then
    let newRoot := btreeSplitChild btree.order (mk (rnode.level + 1) .index [] [rnode]) 0
    let (root, err) := btreeInsertNonfull cmp btree.order keyVal (newRoot.level + 1) newRoot
    ({ btree with root := some root }, err)
  else
    let (root, err) := btreeInsertNonfull cmp btree.order keyVal (rnode.level + 1) rnode
    ({ btree with root := some root }, err)

def fsmBtreeDelete (btree : FsmBtree κ) (key : κ) : FsmBtree κ :=
  { btree with root := btree.root.bind fun root =>
      deleteLoop cmp btree.order key (root.level + 1) true root }

end Tree

end Emmcfs
