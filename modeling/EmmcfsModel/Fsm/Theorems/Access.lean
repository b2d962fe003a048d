import EmmcfsModel.Fsm.Access
import EmmcfsModel.Fsm.Theorems.Btree

namespace Emmcfs

open FsmNode SortedList

section Ranges

@[simp]
theorem inRange_nil : InRange order [] := by
  simp [InRange]

@[simp]
theorem inRange_cons : InRange order (a :: as) ↔ a.InRange order ∧ InRange order as := by
  simp [InRange]

@[simp]
theorem inRange_append : InRange order (as ++ bs) ↔ InRange order as ∧ InRange order bs := by
  simp [InRange, or_imp, forall_and]

@[simp]
theorem inRange_keyVal : (Access.keyVal i).InRange order ↔ i < 2 * order - 1 := Iff.rfl

@[simp]
theorem inRange_child : (Access.child i).InRange order ↔ i < 2 * order := Iff.rfl

@[simp]
theorem inRange_loopAccesses {body : Nat → List Access} : InRange order (loopAccesses i n body) ↔
    ∀ j, i ≤ j → j < i + n → InRange order (body j) := by
  simp only [InRange, loopAccesses, List.mem_flatMap, List.mem_range'_1]
  exact ⟨fun h j h₁ h₂ a ha => h a ⟨j, ⟨h₁, h₂⟩, ha⟩, fun h a ⟨j, ⟨h₁, h₂⟩, ha⟩ => h j h₁ h₂ a ha⟩

end Ranges

section Insert

variable {κ : Type} {cmp : κ → κ → Int} {x : κ} {parent child node : FsmNode κ} {keys : List κ}

theorem splitChildAccesses_inRange (ho : 2 ≤ order) (hp : parent.nrActive < 2 * order - 1)
    (hi : index ≤ parent.nrActive) :
    InRange order (splitChildAccesses order parent index child) := by
  simp only [splitChildAccesses]
  split <;> simp only [inRange_append, inRange_loopAccesses, inRange_cons, inRange_nil,
    inRange_keyVal, inRange_child, and_true]
  all_goals
    repeat' first | apply And.intro | intro
    all_goals omega

theorem searchLeafAccesses_inRange (hi : imax < 2 * order) :
    InRange order (searchLeafAccesses cmp x keys fuel imin imax) := by
  induction fuel generalizing imin imax
  case zero => simp [searchLeafAccesses]
  case succ fuel ih =>
    rw [searchLeafAccesses]
    split
    case isFalse => simp
    case isTrue  =>
      refine inRange_cons.mpr ⟨inRange_keyVal.mpr (by omega), ?_⟩
      split
      case h_1 => simp
      case h_2 =>
        split
        case isTrue  => exact ih hi
        case isFalse =>
          split
          case isTrue  => exact ih (by omega)
          case isFalse => simp

theorem scanIndexAccesses_inRange (hi : i < 2 * order) :
    InRange order (scanIndexAccesses cmp x keys i) := by
  induction i
  case zero => simp [scanIndexAccesses]
  case succ i ih =>
    refine inRange_cons.mpr ⟨inRange_keyVal.mpr (by omega), ?_⟩
    have := ih (by omega)
    split
    case h_1 => exact this
    case h_2 => split_ifs <;> simp [this]

theorem hasKeyAccesses_inRange (hi : i + keys.length < 2 * order) :
    InRange order (hasKeyAccesses cmp x i keys) := by
  induction keys generalizing i
  case nil => simp [hasKeyAccesses]
  case cons k keys ih =>
    rw [List.length_cons] at hi
    refine inRange_cons.mpr ⟨inRange_keyVal.mpr (by omega), ?_⟩
    have := ih (i := i + 1) (by omega)
    split_ifs <;> simp [this]

theorem enterChildAccesses_inRange (ho : 2 ≤ order) (hn : node.nrActive < 2 * order - 1)
    (hi : i ≤ node.nrActive) : InRange order (enterChildAccesses cmp order x node i) := by
  rw [enterChildAccesses]
  split
  case h_1 => simp
  case h_2 child _ =>
    split
    case isFalse => simp
    case isTrue hfull =>
      have hkeys : InRange order (hasKeyAccesses cmp x 0 child.keyVals) :=
        hasKeyAccesses_inRange (by rw [nrActive] at hfull; omega)
      split
      case isTrue  => simpa using hkeys
      case isFalse =>
        have hsplit : InRange order (splitChildAccesses order node i child) :=
          splitChildAccesses_inRange ho hn hi
        simp only [inRange_append, inRange_cons, inRange_keyVal, inRange_nil]
        exact ⟨hkeys, hsplit, by omega, trivial⟩

variable [LinearOrder κ] (hc : Compares cmp)

include hc in
-- The loop enters only nodes that are not full.
theorem insertNonfullAccesses_inRange (ho : 2 ≤ order) (hs : node.Shape order h lo)
    (hn : node.nrActive < 2 * order - 1) (hl : Sorted (toList h node)) :
    InRange order (insertNonfullAccesses cmp order x (h + 1) node) := by
  induction h generalizing node lo
  case zero =>
    have hty : node.type = .leaf := by cases hs; rfl
    simp only [insertNonfullAccesses, hty, inRange_append]
    refine ⟨searchLeafAccesses_inRange (by omega), ?_⟩
    split
    case h_1 => simp
    case h_2 i hi =>
      have hloc : Located x node.keyVals
          (searchLeaf cmp x node.keyVals node.nrActive 0 node.nrActive) :=
        searchLeaf_located hc hl (Nat.le_add_left ..) (Nat.zero_le _) le_rfl (by simp)
          (by simp [nrActive])
      rw [hi] at hloc
      have hle : i ≤ node.nrActive := hloc.le
      rw [inRange_append, inRange_loopAccesses]
      refine ⟨fun j h₁ h₂ => ?_, ?_⟩
      · simp only [inRange_cons, inRange_keyVal, inRange_nil, and_true]
        omega
      · simp only [inRange_cons, inRange_keyVal, inRange_nil, and_true]
        omega
  case succ h ih =>
    have hty : node.type = .index := by cases hs; rfl
    have hloc := scanIndex_located hc (x := x) (hl.sublist hs.keyVals_sublist) (i := node.nrActive)
      le_rfl (by simp [nrActive])
    simp only [insertNonfullAccesses, hty, inRange_append]
    refine ⟨scanIndexAccesses_inRange (by omega), ?_⟩
    split
    case h_1 => simp
    case h_2 i hi =>
      rw [hi] at hloc
      have hle : i ≤ node.nrActive := hloc.le
      refine inRange_append.mpr ⟨inRange_cons.mpr ⟨inRange_child.mpr (by omega),
        enterChildAccesses_inRange ho hn hle⟩, ?_⟩
      split
      case h_1 => simp
      case h_2 node' j he =>
        obtain ⟨H, c, rfl, hent⟩ := enterChild_some hc ho hs hn hl he
        obtain rfl := hent.eq
        rw [H.child_fill hent.wf]
        refine inRange_cons.mpr ⟨inRange_child.mpr ?_, ih hent.shape hent.room ?_⟩
        · have := hent.bound
          rw [nrActive, H.keyVals_fill, List.length_append] at this
          omega
        · exact H.sorted_child hent.wf (hent.same ▸ hl)

include hc in
theorem fsmBtreeInsertAccesses_inRange {btree : FsmBtree κ} (hw : btree.WF) :
    InRange btree.order (fsmBtreeInsertAccesses cmp btree x) := by
  have ho := btree.order_ge
  match hr : btree.root with
  | none =>
    let leaf : FsmNode κ := mk 0 .leaf [] []
    have hs : leaf.Shape btree.order 0 0 := .leaf (by simp) (by simp)
    have hn : leaf.nrActive < 2 * btree.order - 1 := by
      simp only [leaf, nrActive_mk, List.length_nil]
      omega
    simp only [fsmBtreeInsertAccesses, hr, Option.getD_none]
    rw [if_neg hn.ne]
    exact insertNonfullAccesses_inRange hc ho hs hn (by simp)
  | some root =>
    have hs := hw.shape root hr
    have hl := hw.sorted root hr
    have hu := hs.nrActive_le
    simp only [fsmBtreeInsertAccesses, hr, Option.getD_some]
    split
    case isFalse hn => exact insertNonfullAccesses_inRange hc ho hs (by omega) hl
    case isTrue hn  =>
      obtain ⟨node, hsplit, hsn, hnn, htn⟩ := exists_split_root ho hs hn
      rw [hsplit]
      refine inRange_append.mpr ⟨inRange_cons.mpr ⟨inRange_child.mpr (by omega),
        splitChildAccesses_inRange ho ?_ (Nat.zero_le _)⟩, ?_⟩
      · simp only [nrActive_mk, List.length_nil]
        omega
      · exact insertNonfullAccesses_inRange hc ho hsn (by omega) (htn ▸ hl)

end Insert

section Delete

variable {κ : Type} {node lchild rchild : FsmNode κ}

-- The loop that closes the gap in the parent reads up to the elements behind the last ones.
theorem mergeSiblingsAccesses_inRange_iff {parent : FsmNode κ} (ho : 2 ≤ order)
    (hn : 0 < parent.nrActive) (hu : parent.nrActive ≤ 2 * order - 1) (hi : index ≤ parent.nrActive) :
    InRange order (mergeSiblingsAccesses order parent index) ↔ parent.nrActive ≠ 2 * order - 1 := by
  simp only [mergeSiblingsAccesses]
  generalize hj : (if index = parent.nrActive then index - 1 else index) = j
  have hlt : j < parent.nrActive := by
    rw [← hj]
    split <;> omega
  simp only [inRange_append, inRange_loopAccesses, inRange_cons, inRange_nil, inRange_keyVal,
    inRange_child, and_true]
  constructor
  case mp =>
    rintro ⟨_, hloop⟩
    have := hloop (parent.nrActive - 1) (by omega) (by omega)
    omega
  case mpr =>
    intro hne
    repeat' first | apply And.intro | intro
    all_goals omega

theorem moveKeyAccesses_inRange (ho : 2 ≤ order) (hs : node.Shape order (h + 1) lo)
    (hi : index ≤ node.nrActive) (hc : node.children[index]? = some c)
    (hn : c.nrActive = order - 1)
    (hp : match pos with | .left => index < node.nrActive | .right => 0 < index) :
    InRange order (moveKeyAccesses node index pos) := by
  have hu := hs.nrActive_le
  have hcs : ∀ d ∈ node.children, d.nrActive ≤ 2 * order - 1 := fun d hd =>
    (hs.toList_subset hd).left.nrActive_le
  cases pos
  case left =>
    simp only at hp
    simp only [moveKeyAccesses, hc]
    split
    case h_2 =>
      simp only [inRange_append, inRange_cons, inRange_child, inRange_nil, and_true]
      omega
    case h_1 hl hr =>
      cases hl
      have := hcs _ (List.mem_of_getElem? hr)
      simp only [inRange_append, inRange_loopAccesses, inRange_cons, inRange_nil, inRange_keyVal,
        inRange_child, and_true]
      repeat' first | apply And.intro | intro
      all_goals omega
  case right =>
    simp only at hp
    have hback : index - 1 + 1 = index := by omega
    simp only [moveKeyAccesses, hback, hc]
    split
    case h_2 =>
      simp only [inRange_append, inRange_cons, inRange_child, inRange_nil, and_true]
      omega
    case h_1 hl hr =>
      cases hr
      have := hcs _ (List.mem_of_getElem? hl)
      simp only [inRange_append, inRange_loopAccesses, inRange_cons, inRange_nil, inRange_keyVal,
        inRange_child, and_true]
      repeat' first | apply And.intro | intro
      all_goals omega

theorem mergeNodesAccesses_inRange (ho : 2 ≤ order) (hl : lchild.nrActive = order - 1)
    (hr : rchild.nrActive = order - 1) : InRange order (mergeNodesAccesses order lchild rchild) := by
  simp only [mergeNodesAccesses, inRange_append, inRange_loopAccesses, inRange_cons, inRange_nil,
    inRange_keyVal, inRange_child, and_true]
  repeat' first | apply And.intro | intro
  all_goals omega

theorem maxKeyAccesses_inRange (ho : 2 ≤ order) (hs : node.Shape order h lo) :
    InRange order (maxKeyAccesses (h + 1) node) := by
  have hu := hs.nrActive_le
  induction h generalizing node lo
  case zero =>
    cases hs
    simp only [maxKeyAccesses, type_mk, inRange_cons, inRange_keyVal, inRange_nil, and_true]
    omega
  case succ h ih =>
    have hty : node.type = .index := by cases hs; rfl
    rw [maxKeyAccesses, hty]
    refine inRange_cons.mpr ⟨inRange_child.mpr (by omega), ?_⟩
    split
    case h_1      => simp
    case h_2 c hc =>
      have hsc := (hs.toList_subset (List.mem_of_getElem? hc)).left
      exact ih hsc hsc.nrActive_le

theorem minKeyAccesses_inRange (ho : 2 ≤ order) (hs : node.Shape order h lo) :
    InRange order (minKeyAccesses (h + 1) node) := by
  induction h generalizing node lo
  case zero =>
    cases hs
    simp only [minKeyAccesses, type_mk, inRange_cons, inRange_keyVal, inRange_nil, and_true]
    omega
  case succ h ih =>
    have hty : node.type = .index := by cases hs; rfl
    rw [minKeyAccesses, hty]
    refine inRange_cons.mpr ⟨inRange_child.mpr (by omega), ?_⟩
    split
    case h_1      => simp
    case h_2 c hc => exact ih (hs.toList_subset (List.mem_of_getElem? hc)).left

theorem deleteFromIndexAccesses_inRange (ho : 2 ≤ order) (hs : node.Shape order (h + 1) lo)
    (hi : index < node.nrActive) : InRange order (deleteFromIndexAccesses order node index) := by
  have hu := hs.nrActive_le
  rw [deleteFromIndexAccesses]
  split
  case h_2 => simp
  case h_1 lchild rchild hl hr =>
    have hsl := (hs.toList_subset (List.mem_of_getElem? hl)).left
    have hsr := (hs.toList_subset (List.mem_of_getElem? hr)).left
    have hkey : (Access.keyVal index).InRange order := inRange_keyVal.mpr (by omega)
    refine inRange_cons.mpr ⟨inRange_child.mpr (by omega), ?_⟩
    split
    case isTrue =>
      rw [hsl.level_eq]
      exact inRange_cons.mpr ⟨hkey, maxKeyAccesses_inRange ho hsl⟩
    case isFalse =>
      refine inRange_cons.mpr ⟨inRange_child.mpr (by omega), ?_⟩
      split
      case isTrue =>
        rw [hsr.level_eq]
        exact inRange_cons.mpr ⟨hkey, minKeyAccesses_inRange ho hsr⟩
      case isFalse =>
        split
        case isFalse  => simp
        case isTrue h =>
          refine inRange_append.mpr ⟨inRange_cons.mpr ⟨hkey, mergeNodesAccesses_inRange ho h.left
            h.right⟩, inRange_loopAccesses.mpr fun j h₁ h₂ => ?_⟩
          simp only [inRange_cons, inRange_child, inRange_keyVal, inRange_nil, and_true]
          omega

theorem fixChildAccesses_inRange (ho : 2 ≤ order) (hs : node.Shape order (h + 1) lo) (hlo : 0 < lo)
    (hi : index ≤ node.nrActive)
    (hr : node.nrActive = 2 * order - 1 → ∀ c ∈ node.children, order ≤ c.nrActive) :
    InRange order (fixChildAccesses order node index) := by
  have hu := hs.nrActive_le
  have hn := hs.le_nrActive
  refine inRange_append.mpr ⟨?_, ?_⟩
  case refine_1 =>
    split_ifs <;> simp only [inRange_cons, inRange_child, inRange_nil, and_true] <;> omega
  case refine_2 =>
    split
    case isFalse   => simp
    case isTrue hc =>
      obtain ⟨c, hc, hcn⟩ := Option.map_eq_some_iff.mp hc
      have hmerge : InRange order (mergeSiblingsAccesses order node index) := by
        refine (mergeSiblingsAccesses_inRange_iff ho (by omega) hu hi).mpr fun hfull => ?_
        have := hr hfull c (List.mem_of_getElem? hc)
        omega
      generalize hrs : (if index = node.nrActive then none else _ : Option Nat) = rsibling
      generalize hls : (if index = 0 then none else _ : Option Nat) = lsibling
      split
      case isTrue hany =>
        refine moveKeyAccesses_inRange ho hs hi hc hcn (lt_of_le_of_ne hi fun he => ?_)
        rw [if_pos he] at hrs
        simp [← hrs] at hany
      case isFalse =>
        split
        case isTrue hany =>
          refine moveKeyAccesses_inRange ho hs hi hc hcn (Nat.pos_of_ne_zero fun he => ?_)
          rw [if_pos he] at hls
          simp [← hls] at hany
        case isFalse => split_ifs <;> simp [hmerge]

theorem Roomy.setChild (hr : node.Roomy order (h + 1)) (hc : node.children[i]? = some c)
    (hn : c'.nrActive = c.nrActive) (hrc : c'.Roomy order h) :
    (node.setChild i c').Roomy order (h + 1) := by
  obtain ⟨hfull, hmin, hch⟩ := hr
  have hmem := List.mem_of_getElem? hc
  refine ⟨fun hf d hd => ?_, fun hh d hd => ?_, fun d hd => ?_⟩
  all_goals cases List.mem_or_eq_of_mem_set hd
  case refine_1.inl hd => exact hfull hf d hd
  case refine_1.inr hd => exact hd ▸ hn ▸ hfull hf c hmem
  case refine_2.inl hd => exact hmin hh d hd
  case refine_2.inr hd => exact hd ▸ hn ▸ hmin hh c hmem
  case refine_3.inl hd => exact hch d hd
  case refine_3.inr hd => exact hd ▸ hrc

theorem swapMax_roomy (hs : node.Shape order h lo) (hr : node.Roomy order h)
    (hm : swapMax x (h + 1) node = some (k, node')) :
    node'.nrActive = node.nrActive ∧ node'.Roomy order h := by
  induction h generalizing node node' lo
  case zero =>
    cases hs
    rw [swapMax] at hm
    obtain ⟨_, hk, he⟩ := Option.map_eq_some_iff.mp hm
    cases he
    have := List.length_pos_of_mem (List.mem_of_mem_getLast? hk)
    simp only [keyVals_mk] at this
    refine ⟨?_, trivial⟩
    simp
    omega
  case succ h ih =>
    have hty : node.type = .index := by cases hs; rfl
    simp only [swapMax, hty] at hm
    split at hm
    case h_1      => cases hm
    case h_2 c hc =>
      obtain ⟨⟨_, c'⟩, hc', he⟩ := Option.map_eq_some_iff.mp hm
      cases he
      have hmem := List.mem_of_getElem? hc
      obtain ⟨hn, hr'⟩ := ih (hs.toList_subset hmem).left (hr.right.right c hmem) hc'
      exact ⟨rfl, Roomy.setChild hr hc hn hr'⟩

section Step

variable {cmp : κ → κ → Int}

theorem deleteStepAccesses_inRange (ho : 2 ≤ order) (hs : node.Shape order h lo) (hlo : 0 < lo)
    (hr : node.Roomy order h) : InRange order (deleteStepAccesses cmp order x isRoot node) := by
  have hu := hs.nrActive_le
  have hn := hs.le_nrActive
  rw [deleteStepAccesses, if_neg (by omega)]
  generalize hi : node.keyVals.findIdx (fun k => cmp x k ≤ 0) = index
  have hle : index ≤ node.nrActive := hi ▸ List.findIdx_le_length
  refine inRange_append.mpr ⟨inRange_loopAccesses.mpr fun i _ hlt => ?_, ?_⟩
  case refine_1 =>
    simp only [inRange_cons, inRange_keyVal, inRange_nil, and_true]
    omega
  case refine_2 =>
    cases hs with
    | leaf  =>
      simp only [type_mk]
      split_ifs
      case pos =>
        refine inRange_loopAccesses.mpr fun i _ hlt => ?_
        simp only [inRange_cons, inRange_keyVal, inRange_nil, and_true]
        omega
      all_goals simp
    | index h₁ h₂ h₃ h₄ =>
      have hs := Shape.index h₁ h₂ h₃ h₄
      simp only [type_mk]
      split
      case isTrue hf =>
        refine deleteFromIndexAccesses_inRange ho hs (lt_of_le_of_ne hle fun he => ?_)
        rw [List.getElem?_eq_none he.ge] at hf
        cases hf
      case isFalse =>
        exact inRange_cons.mpr ⟨inRange_child.mpr (by omega),
          fixChildAccesses_inRange ho hs hlo hle hr.left⟩

-- In such a tree a deletion moves keys and merges nodes only among the leaves.
theorem deleteStep_roomy (ho : 2 ≤ order) (hs : node.Shape order (h + 1) lo)
    (hr : node.Roomy order (h + 1)) (hd : deleteStep cmp order x isRoot node = .down node' i)
    (hc : node'.children[i]? = some c) : c.Roomy order h := by
  match h with
  | 0     => trivial
  | h + 1 =>
    obtain ⟨_, hmin, hch⟩ := hr
    have hspare (i) (c : FsmNode κ) (hc : node.children[i]? = some c) : order ≤ c.nrActive :=
      hmin (by omega) c (List.mem_of_getElem? hc)
    have hty : node.type = .index := by cases hs; rfl
    simp only [deleteStep, hty] at hd
    split at hd
    case isTrue => cases hd
    case isFalse =>
      split at hd
      case isTrue =>
        rw [deleteFromIndex] at hd
        split at hd
        case h_2 => cases hd
        case h_1 l r hl _ =>
          have hsl := hs.toList_subset (List.mem_of_getElem? hl) |>.left
          have := hspare _ l hl
          rw [if_pos (by omega), hsl.level_eq] at hd
          split at hd
          case h_1 => cases hd
          case h_2 hm =>
            cases hd
            rw [children_mk, List.getElem?_set_self (List.getElem?_eq_some_iff.mp hl).choose] at hc
            cases hc
            exact (swapMax_roomy hsl (hch l (List.mem_of_getElem? hl)) hm).right
      case isFalse =>
        have hfix : fixChild order node (node.keyVals.findIdx fun k => cmp x k ≤ 0) =
            (node, node.keyVals.findIdx fun k => cmp x k ≤ 0) := by
          refine if_neg fun hk => ?_
          obtain ⟨c, hc, hn⟩ := Option.map_eq_some_iff.mp hk
          have := hspare _ c hc
          omega
        rw [hfix] at hd
        cases hd
        exact hch c (List.mem_of_getElem? hc)

end Step

end Delete

section Run

variable [LinearOrder κ] {cmp : κ → κ → Int} (hc : Compares cmp) {node : FsmNode κ}
  {btree : FsmBtree κ}

include hc in
theorem deleteLoopAccesses_inRange (ho : 2 ≤ order) (hs : node.Shape order h lo) (hlo : 0 < lo)
    (hl : SortedList.Sorted (toList h node)) (hr : node.Roomy order h) :
    InRange order (deleteLoopAccesses cmp order x (h + 1) isRoot node) := by
  induction h generalizing node lo isRoot
  case zero =>
    rw [deleteLoopAccesses]
    refine inRange_append.mpr ⟨deleteStepAccesses_inRange ho hs hlo hr, ?_⟩
    split <;> (try split) <;> simp [deleteLoopAccesses]
  case succ h ih =>
    obtain ⟨H, c, hd, hdesc, _⟩ := deleteStep_index hc (x := x) isRoot ho hs hlo hl
    have hch := H.child_fill (c := c) hdesc.wf
    rw [deleteLoopAccesses, hd]
    simp only [hch]
    refine inRange_append.mpr ⟨deleteStepAccesses_inRange ho hs hlo hr, ?_⟩
    exact ih hdesc.shape (by omega) hdesc.sorted (deleteStep_roomy ho hs hr hd hch)

include hc in
theorem fsmBtreeDeleteAccesses_inRange (hw : btree.WF) (hr : btree.Roomy) :
    InRange btree.order (fsmBtreeDeleteAccesses cmp btree x) := by
  rw [fsmBtreeDeleteAccesses]
  split
  case h_1 => simp
  case h_2 root hroot =>
    exact deleteLoopAccesses_inRange hc btree.order_ge (hw.shape root hroot) Nat.one_pos
      (hw.sorted root hroot) (hr root hroot)

end Run

-- Whatever has been inserted and deleted, an insertion keeps to the arrays, and a deletion does so in
-- a tree with room for the loop of merge_siblings, which reads one element beyond those it moves.
theorem fsmBtree_accesses_inRange (ho : 2 ≤ order)
    (hr : Run (FsmBtree.Step fsmBtreeCmpFn) ⟨order, ho, none⟩ calls btree) (keyVal : FsmBtreeKey) :
    InRange btree.order (fsmBtreeInsertAccesses fsmBtreeCmpFn btree keyVal) ∧
      (btree.Roomy → InRange btree.order (fsmBtreeDeleteAccesses fsmBtreeCmpFn btree keyVal)) := by
  obtain ⟨_, _, hrep⟩ := exists_represents ho hr
  have hw := hrep.wf
  exact ⟨fsmBtreeInsertAccesses_inRange fsmBtreeCmpFn_compares hw,
    fsmBtreeDeleteAccesses_inRange fsmBtreeCmpFn_compares hw⟩

-- The left leaf has no key to spare, and the deletion brings one over from the right leaf.
theorem fsmBtree_accesses_inRange_fourChunks : ∃ btree : FsmBtree FsmBtreeKey, btree.keys =
    [⟨0, 1⟩, ⟨2, 1⟩, ⟨4, 1⟩, ⟨6, 1⟩] ∧
      InRange btree.order (fsmBtreeDeleteAccesses fsmBtreeCmpFn btree ⟨0, 1⟩) := by
  have hr : Run (FsmBtree.Step fsmBtreeCmpFn) ⟨2, le_rfl, none⟩ [.insert ⟨0, 1⟩ none,
      .insert ⟨2, 1⟩ none, .insert ⟨4, 1⟩ none, .insert ⟨6, 1⟩ none] ⟨2, le_rfl,
      some (mk 1 .index [⟨2, 1⟩] [mk 0 .leaf [⟨0, 1⟩] [], mk 0 .leaf [⟨4, 1⟩, ⟨6, 1⟩] []])⟩ :=
    .cons (.insert rfl) (.cons (.insert rfl) (.cons (.insert rfl) (.cons (.insert rfl) .nil)))
  refine ⟨_, rfl, (fsmBtree_accesses_inRange le_rfl hr ⟨0, 1⟩).right ?_⟩
  rintro _ ⟨⟩
  exact ⟨by decide, by simp, fun _ _ => trivial⟩

end Emmcfs
