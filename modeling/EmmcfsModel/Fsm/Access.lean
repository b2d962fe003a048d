import EmmcfsModel.Fsm.Btree

namespace Emmcfs

open FsmNode

-- An access to an element of one of the arrays of a node.
inductive Access
  | keyVal (i : Nat)
  | child (i : Nat)
  deriving DecidableEq, Repr

-- key_vals has 2 * order - 1 elements, and children has 2 * order.
def Access.InRange (order : Nat) : Access → Prop
  | keyVal i => i < 2 * order - 1
  | child i  => i < 2 * order

instance : Decidable (Access.InRange order a) :=
  match a with
  | .keyVal i => inferInstanceAs (Decidable (i < 2 * order - 1))
  | .child i  => inferInstanceAs (Decidable (i < 2 * order))

def InRange (order : Nat) (as : List Access) : Prop :=
  ∀ a ∈ as, a.InRange order

-- The accesses of a loop over `n` numbers from `i` on.
def loopAccesses (i n : Nat) (body : Nat → List Access) : List Access :=
  (List.range' i n).flatMap body

section Insert

variable {κ : Type} (cmp : κ → κ → Int) (order : Nat)

-- btree_split_child for a child of `parent` at `index`.
def splitChildAccesses (parent : FsmNode κ) (index : Nat) (child : FsmNode κ) : List Access :=
  loopAccesses 0 (order - 1) (fun count =>
    [.keyVal count, .keyVal (count + order)] ++
      if child.type = .leaf then [] else [.child count, .child (count + order)]) ++
  (if child.type = .leaf then [] else [.child (order - 1), .child (order - 1 + order)]) ++
  loopAccesses (index + 2) (parent.nrActive - index) (fun count =>
    [.child count, .child (count - 1)]) ++
  [.child (index + 1)] ++
  loopAccesses (index + 1) (parent.nrActive - index) (fun count =>
    [.keyVal count, .keyVal (count - 1)]) ++
  [.keyVal index, .keyVal (order - 1)]

-- The turns of the binary search in a leaf.
def searchLeafAccesses (keyVal : κ) (keys : List κ) : (fuel imin imax : Nat) → List Access
  | 0, _, _              => []
  | fuel + 1, imin, imax =>
    if imin < imax then
      let imid := (imin + imax - 1) / 2
      .keyVal imid :: match keys[imid]? with
        | none   => []
        | some k =>
          if 0 < cmp keyVal k then searchLeafAccesses keyVal keys fuel (imid + 1) imax
          else if cmp keyVal k < 0 then searchLeafAccesses keyVal keys fuel imin imid
          else []
    else []

def scanIndexAccesses (keyVal : κ) (keys : List κ) : Nat → List Access
  | 0     => []
  | i + 1 => .keyVal i :: match keys[i]? with
    | none   => scanIndexAccesses keyVal keys i
    | some k =>
      if cmp keyVal k = 0 then []
      else if 0 < cmp keyVal k then []
      else scanIndexAccesses keyVal keys i

def hasKeyAccesses (keyVal : κ) : Nat → List κ → List Access
  | _, []        => []
  | i, k :: keys => .keyVal i ::
    if cmp keyVal k = 0 then []
    else if cmp keyVal k < 0 then []
    else hasKeyAccesses keyVal (i + 1) keys

-- The check of a full child, its split and the comparison that follows.
def enterChildAccesses (keyVal : κ) (node : FsmNode κ) (i : Nat) : List Access :=
  match node.children[i]? with
  | none       => []
  | some child =>
    if child.nrActive = 2 * order - 1 then
      hasKeyAccesses cmp keyVal 0 child.keyVals ++
        if hasKey cmp keyVal child.keyVals then []
        else splitChildAccesses order node i child ++ [.keyVal i]
    else []

def insertNonfullAccesses (keyVal : κ) : Nat → FsmNode κ → List Access
  | 0, _           => []
  | fuel + 1, node =>
    match node.type with
    | .leaf =>
      searchLeafAccesses cmp keyVal node.keyVals node.nrActive 0 node.nrActive ++
        match searchLeaf cmp keyVal node.keyVals node.nrActive 0 node.nrActive with
        | none   => []
        | some i => loopAccesses i (node.nrActive - i) (fun imin =>
          [.keyVal (imin + 1), .keyVal imin]) ++ [.keyVal i]
    | .index =>
      scanIndexAccesses cmp keyVal node.keyVals node.nrActive ++
        match scanIndex cmp keyVal node.keyVals node.nrActive with
        | none   => []
        | some i => .child i :: enterChildAccesses cmp order keyVal node i ++
          match enterChild cmp order keyVal node with
          | none           => []
          | some (node, i) => .child i :: match node.children[i]? with
            | none       => []
            | some child => insertNonfullAccesses keyVal fuel child

def fsmBtreeInsertAccesses (btree : FsmBtree κ) (keyVal : κ) : List Access :=
  let rnode := btree.root.getD (mk 0 .leaf [] [])
  if rnode.nrActive = 2 * btree.order - 1 then
    let newRoot := mk (rnode.level + 1) .index [] [rnode]
    .child 0 :: splitChildAccesses btree.order newRoot 0 rnode ++
      insertNonfullAccesses cmp btree.order keyVal (newRoot.level + 1)
        (btreeSplitChild btree.order newRoot 0)
  else insertNonfullAccesses cmp btree.order keyVal (rnode.level + 1) rnode

end Insert

section Delete

variable {κ : Type} (cmp : κ → κ → Int) (order : Nat)

def moveKeyAccesses (node : FsmNode κ) (index : Nat) (pos : Position) : List Access :=
  let index := match pos with | .left => index | .right => index - 1
  [.child index, .child (index + 1)] ++
  match node.children[index]?, node.children[index + 1]? with
  | some lchild, some rchild =>
    match pos with
    | .left =>
      [.keyVal lchild.nrActive, .keyVal index, .child (lchild.nrActive + 1), .child 0, .keyVal 0] ++
      loopAccesses 0 (rchild.nrActive - 1) (fun i =>
        [.keyVal i, .keyVal (i + 1), .child i, .child (i + 1)]) ++
      [.child (rchild.nrActive - 1), .child rchild.nrActive]
    | .right =>
      loopAccesses 1 rchild.nrActive (fun i =>
        [.keyVal i, .keyVal (i - 1), .child (i + 1), .child i]) ++
      [.child 1, .child 0, .keyVal 0, .keyVal index, .child lchild.nrActive,
        .keyVal (lchild.nrActive - 1)]
  | _, _ => []

def mergeSiblingsAccesses (parent : FsmNode κ) (index : Nat) : List Access :=
  let index := if index = parent.nrActive then index - 1 else index
  [.child index, .child (index + 1)] ++
  loopAccesses 0 (order - 1) (fun j => [.keyVal j, .child j]) ++
  [.keyVal (order - 1), .keyVal index, .child (order - 1)] ++
  loopAccesses 0 (order - 1) (fun j =>
    [.keyVal (j + order), .keyVal j, .child (j + order), .child j]) ++
  [.child (2 * order - 1), .child (order - 1), .child index] ++
  loopAccesses index (parent.nrActive - index) (fun j =>
    [.keyVal j, .keyVal (j + 1), .child (j + 1), .child (j + 2)])

def mergeNodesAccesses (n₁ n₂ : FsmNode κ) : List Access :=
  loopAccesses 0 n₁.nrActive (fun i => [.keyVal i, .child i]) ++
  [.child n₁.nrActive, .keyVal n₁.nrActive] ++
  loopAccesses 0 n₂.nrActive (fun i =>
    [.keyVal (i + n₁.nrActive + 1), .keyVal i, .child (i + n₁.nrActive + 1), .child i]) ++
  [.child (2 * order - 1), .child n₂.nrActive]

-- The siblings are read, and then a child with `order - 1` keys is given another one.
def fixChildAccesses (node : FsmNode κ) (index : Nat) : List Access :=
  let keysOf (i : Nat) := node.children[i]?.map nrActive
  let rsibling := if index = node.nrActive then none else keysOf (index + 1)
  let lsibling := if index = 0 then none else keysOf (index - 1)
  (if index = node.nrActive then [.child (node.nrActive - 1)]
    else if index = 0 then [.child 1]
    else [.child (index - 1), .child (index + 1)]) ++
  if keysOf index = some (order - 1) then
    if rsibling.any (order - 1 < ·) then moveKeyAccesses node index .left
    else if lsibling.any (order - 1 < ·) then moveKeyAccesses node index .right
    else if lsibling = some (order - 1) then mergeSiblingsAccesses order node index
    else if rsibling = some (order - 1) then mergeSiblingsAccesses order node index
    else []
  else []

-- get_max_key_pos and get_min_key_pos with the exchange of the keys.
def maxKeyAccesses : Nat → FsmNode κ → List Access
  | 0, _           => []
  | fuel + 1, node =>
    match node.type with
    | .leaf  => [.keyVal (node.nrActive - 1)]
    | .index => .child node.nrActive :: match node.children[node.nrActive]? with
      | none       => []
      | some child => maxKeyAccesses fuel child

def minKeyAccesses : Nat → FsmNode κ → List Access
  | 0, _           => []
  | fuel + 1, node =>
    match node.type with
    | .leaf  => [.keyVal 0]
    | .index => .child 0 :: match node.children[0]? with
      | none       => []
      | some child => minKeyAccesses fuel child

def deleteFromIndexAccesses (node : FsmNode κ) (index : Nat) : List Access :=
  match node.children[index]?, node.children[index + 1]? with
  | some lchild, some rchild =>
    .child index ::
    if order - 1 < lchild.nrActive then
      .keyVal index :: maxKeyAccesses (lchild.level + 1) lchild
    else .child (index + 1) ::
      if order - 1 < rchild.nrActive then
        .keyVal index :: minKeyAccesses (rchild.level + 1) rchild
      else if lchild.nrActive = order - 1 ∧ rchild.nrActive = order - 1 then
        .keyVal index :: mergeNodesAccesses order lchild rchild ++
          loopAccesses (index + 1) (node.nrActive - (index + 1)) (fun i =>
            [.child i, .child (i + 1), .keyVal (i - 1), .keyVal i])
      else []
  | _, _ => []

-- What one turn of the loop of fsm_btree_delete does before it goes on in a child.
def deleteStepAccesses (key : κ) (isRoot : Bool) (node : FsmNode κ) : List Access :=
  if node.nrActive = 0 then []
  else
    let index := node.keyVals.findIdx fun k => cmp key k ≤ 0
    loopAccesses 0 (min (index + 1) node.nrActive) (fun i => [.keyVal i]) ++
    if node.keyVals[index]?.any fun k => cmp key k = 0 then
      match node.type with
      | .leaf  =>
        if (order - 1 < node.nrActive ∨ isRoot) ∧ index + 1 < node.nrActive then
          loopAccesses index (node.nrActive - index) (fun i => [.keyVal i])
        else []
      | .index => deleteFromIndexAccesses order node index
    else
      match node.type with
      | .leaf  => []
      | .index => .child index :: fixChildAccesses order node index

def deleteLoopAccesses (key : κ) : Nat → Bool → FsmNode κ → List Access
  | 0, _, _                => []
  | fuel + 1, isRoot, node =>
    deleteStepAccesses cmp order key isRoot node ++
      match deleteStep cmp order key isRoot node with
      | .down node i =>
        match node.children[i]? with
        | none       => []
        | some child =>
          deleteLoopAccesses key fuel (decide (node.nrActive = 0) && isRoot) child
      | _            => []

def fsmBtreeDeleteAccesses (btree : FsmBtree κ) (key : κ) : List Access :=
  match btree.root with
  | none      => []
  | some root => deleteLoopAccesses cmp btree.order key (root.level + 1) true root

end Delete

-- No index node below the root has only `order - 1` keys, and a full index node has no child with
-- `order - 1` keys.
def FsmNode.Roomy {κ : Type} (order : Nat) : Nat → FsmNode κ → Prop
  | 0, _        => True
  | h + 1, node => (node.nrActive = 2 * order - 1 → ∀ c ∈ node.children, order ≤ c.nrActive) ∧
    (h ≠ 0 → ∀ c ∈ node.children, order ≤ c.nrActive) ∧ ∀ c ∈ node.children, Roomy order h c

def FsmBtree.Roomy (btree : FsmBtree κ) : Prop :=
  ∀ root ∈ btree.root, FsmNode.Roomy btree.order root.level root

end Emmcfs
