import EmmcfsModel.Fsm.Alloc
import EmmcfsModel.Fsm.Theorems.Rebalance

namespace Emmcfs

open FsmNode SortedList

variable {κ : Type} {x : κ}

namespace FsmNode

section Swap

variable {node : FsmNode κ}

theorem swapMax_spec (ho : 2 ≤ order) (hs : Shape order h lo node) (hlo : 0 < lo) :
    ∃ m k node', swapMax x (h + 1) node = some (k, node') ∧ Shape order h lo node' ∧
      toList h node = m ++ [k] ∧ toList h node' = m ++ [x] := by
  induction h generalizing node lo
  case zero =>
    cases hs with
    | @leaf _ ks hl hu =>
      obtain ⟨ks, k, rfl⟩ : ∃ ks₀ k, ks = ks₀ ++ [k] :=
        ⟨_, _, (List.dropLast_append_getLast (List.ne_nil_of_length_pos (by omega))).symm⟩
      refine ⟨ks, k, mk 0 .leaf (ks ++ [x]) [], by simp [swapMax, nrActive], ?_, rfl, rfl⟩
      exact .leaf (by simpa using hl) (by simpa using hu)
  case succ h ih =>
    obtain ⟨H, c, rfl, hw, hk, hk', hlen, hsc⟩ := hs.exists_hole le_rfl
    obtain ⟨m, k, c', hm, hsc', ht, ht'⟩ := ih hsc (by omega)
    have hpost : H.post h = [] := by
      have : H.keys' = [] := hk'.trans List.drop_length
      rw [Hole.post, this, Interleave.after_nil]
    refine ⟨H.pre h ++ m, k, H.fill h c', ?_, ?_, ?_, ?_⟩
    · rw [swapMax]
      simp only [H.type_fill, ← hlen, H.child_fill hw, hm, H.setChild_fill hw, Option.map_some]
    · exact H.shape_fill hw hsc' hs.le_nrActive hs.nrActive_le
    · simp [H.toList_fill hw, ht, hpost]
    · simp [H.toList_fill hw, ht', hpost]

theorem swapMin_spec (ho : 2 ≤ order) (hs : Shape order h lo node) (hlo : 0 < lo) :
    ∃ m k node', swapMin x (h + 1) node = some (k, node') ∧ Shape order h lo node' ∧
      toList h node = k :: m ∧ toList h node' = x :: m := by
  induction h generalizing node lo
  case zero =>
    cases hs with
    | @leaf _ ks hl hu =>
      match ks with
      | []      => simp at hl; omega
      | k :: ks =>
        refine ⟨ks, k, mk 0 .leaf (x :: ks) [], by simp [swapMin], ?_, rfl, rfl⟩
        exact .leaf (by simpa using hl) (by simpa using hu)
  case succ h ih =>
    obtain ⟨H, c, rfl, hw, hk, hk', hlen, hsc⟩ := hs.exists_hole (Nat.zero_le _)
    obtain ⟨m, k, c', hm, hsc', ht, ht'⟩ := ih hsc (by omega)
    have hpre : H.pre h = [] := by
      have : H.children = [] := List.eq_nil_of_length_eq_zero (hw.left.trans hlen)
      simp [Hole.pre, this]
    refine ⟨m ++ H.post h, k, H.fill h c', ?_, ?_, ?_, ?_⟩
    · have hch := H.child_fill (c := c) hw
      have hset : (H.fill h c).setChild H.keys.length c' = H.fill h c' := H.setChild_fill hw
      rw [hlen] at hch hset
      rw [swapMin]
      simp only [H.type_fill, hch, hm, hset, Option.map_some]
    · exact H.shape_fill hw hsc' hs.le_nrActive hs.nrActive_le
    · simp [H.toList_fill hw, ht, hpre]
    · simp [H.toList_fill hw, ht', hpre]

end Swap

variable [LinearOrder κ]

-- The child that a deletion goes on in has a key to spare, and the node without the key is the node
-- around the child without the key.
structure Descended (order h : Nat) (x : κ) (node : FsmNode κ) (H : Hole κ) (c : FsmNode κ) :
    Prop where
  wf     : H.WF order h
  shape  : Shape order h order c
  sorted : Sorted (toList h c)
  keys   : H.pre h ++ removeKey x (toList h c) ++ H.post h = removeKey x (toList (h + 1) node)
  le     : (H.fill h c).nrActive ≤ node.nrActive
  ge     : node.nrActive ≤ (H.fill h c).nrActive + 1

-- The key has gone down into the child, and its neighbour has come up and is on the wrong side of it.
structure Exchanged (h : Nat) (x : κ) (node : FsmNode κ) (H : Hole κ) (c : FsmNode κ) : Prop where
  perm    : (toList (h + 1) (H.fill h c)).Perm (toList (h + 1) node)
  mem     : x ∈ toList h c
  between : ∃ k, k ∈ H.post h ∧ k < x ∨ k ∈ H.pre h ∧ x < k

-- A turn that exchanges no keys leaves the list of the keys as it is.
def Moved (swaps : Bool) (h : Nat) (x : κ) (node : FsmNode κ) (H : Hole κ) (c : FsmNode κ) : Prop :=
  if swaps then Exchanged h x node H c else toList (h + 1) (H.fill h c) = toList (h + 1) node

theorem Refocused.descended {H H' : Hole κ} {c c' : FsmNode κ} (href : Refocused order h H c H' c')
    (hs : Sorted (toList (h + 1) (H.fill h c))) (hb : ∀ y ∈ H'.pre h, y < x)
    (ha : ∀ y ∈ H'.post h, x < y) : Descended order h x (H.fill h c) H' c' := by
  refine ⟨href.wf, href.shape, H'.sorted_child href.wf (href.same ▸ hs), ?_, href.le, href.ge⟩
  rw [← href.same, H'.toList_fill href.wf, removeKey_append _ hb ha]

section Index

variable {ks ks' : List κ} {cs cs' : List (FsmNode κ)} {l r : FsmNode κ} {k : κ}

-- What a sorted node tells about the key between two of its children.
theorem sorted_pair (hl : cs.length = ks.length)
    (hs : Sorted (toList (h + 1) (pair h ks cs l x r ks' cs'))) :
    (Sorted (toList h l) ∧ ∀ y ∈ toList h l, y < x) ∧
      (Sorted (toList h r) ∧ ∀ y ∈ toList h r, x < y) ∧
      (∀ y ∈ Interleave.before (toList h) cs ks, y < x) ∧
      (∀ y ∈ Interleave.after (toList h) ks' cs', x < y) := by
  rw [toList_pair hl, ← List.append_assoc, List.append_assoc, List.cons_append,
    sorted_cons_iff_around] at hs
  obtain ⟨hp, hq, hb, ha⟩ := hs
  simp only [List.mem_append] at hb ha
  exact ⟨⟨(List.pairwise_append.mp hp).right.left, fun y hy => hb y (.inr hy)⟩,
    ⟨(List.pairwise_append.mp hq).left, fun y hy => ha y (.inl hy)⟩,
    fun y hy => hb y (.inl hy), fun y hy => ha y (.inr hy)⟩

theorem removeKey_pair (hl : cs.length = ks.length)
    (hs : Sorted (toList (h + 1) (pair h ks cs l x r ks' cs'))) :
    removeKey x (toList (h + 1) (pair h ks cs l x r ks' cs')) =
      Interleave.before (toList h) cs ks ++ (toList h l ++ toList h r) ++
        Interleave.after (toList h) ks' cs' := by
  obtain ⟨⟨_, hbl⟩, ⟨_, har⟩, hb, ha⟩ := sorted_pair hl hs
  rw [toList_pair hl, removeKey_append _ hb ha, removeKey_around hbl har]

-- The key between two children leaves the node, or goes down into one of them.
theorem deleteFromIndex_descended (ho : 2 ≤ order)
    (hw : Hole.WF order h ⟨ks, cs, x :: ks', r :: cs'⟩) (hl : Shape order h (order - 1) l)
    (hs : Sorted (toList (h + 1) (pair h ks cs l x r ks' cs'))) :
    ∃ H c, deleteFromIndex order x (pair h ks cs l x r ks' cs') ks.length =
        .down (H.fill h c) H.keys.length ∧
      Descended order h x (pair h ks cs l x r ks' cs') H c ∧
      Moved (!mergesAround order (pair h ks cs l x r ks' cs') ks.length) h x
        (pair h ks cs l x r ks' cs') H c := by
  have hlen : cs.length = ks.length := hw.left
  have hr : Shape order h (order - 1) r := hw.shape r (by simp)
  obtain ⟨⟨hsl, hbl⟩, ⟨hsr, har⟩, hb, ha⟩ := sorted_pair hlen hs
  have hrm := removeKey_pair hlen hs
  simp only [deleteFromIndex, mergesAround, Moved, pair_left hlen, pair_right hlen, hl.level_eq,
    hr.level_eq, Option.any_some]
  split
  case isTrue hln =>
    have hl' : Shape order h order l := hl.of_le_nrActive (by omega)
    obtain ⟨m, k, l', hm, hsl', ht, ht'⟩ := swapMax_spec (x := x) ho hl' (by omega)
    have hbm : ∀ y ∈ m, y < x := fun y hy => hbl y (by simp [ht, hy])
    have hsm : Sorted (m ++ [x]) := by
      rw [ht] at hsl
      exact sorted_cons_iff_around.mpr ⟨(List.pairwise_append.mp hsl).left, by simp, hbm, by simp⟩
    have hw' : Hole.WF order h ⟨ks, cs, k :: ks', r :: cs'⟩ := hw.replace_right hr
    refine ⟨⟨ks, cs, k :: ks', r :: cs'⟩, l', ?_, ⟨hw', hsl', ht' ▸ hsm, ?_, ?_, ?_⟩, ?_⟩
    · simp [hm, pair, Hole.fill, ← hlen]
    · rw [hrm, ht', removeKey_around hbm (by simp), ht]
      simp [Hole.pre, Hole.post]
    · simp [pair, nrActive]
    · simp [pair, nrActive]
    · rw [if_pos (by simp [hln.ne'])]
      refine ⟨?_, by simp [ht'], k, .inl ⟨by simp [Hole.post], hbl k (by simp [ht])⟩⟩
      rw [Hole.toList_fill hw', toList_pair hlen, ht, ht']
      simpa [Hole.pre, Hole.post] using ((List.Perm.swap ..).append_left _).append_left _
  case isFalse hln =>
    split
    case isTrue hrn =>
      have hr' : Shape order h order r := hr.of_le_nrActive (by omega)
      obtain ⟨m, k, r', hm, hsr', ht, ht'⟩ := swapMin_spec (x := x) ho hr' (by omega)
      have ham : ∀ y ∈ m, x < y := fun y hy => har y (by simp [ht, hy])
      have hsm : Sorted (x :: m) := by
        rw [ht] at hsr
        exact List.pairwise_cons.mpr ⟨ham, (List.pairwise_cons.mp hsr).right⟩
      have hw' : Hole.WF order h ⟨ks ++ [k], cs ++ [l], ks', cs'⟩ := (Hole.WF.shift_iff hl hr).mpr hw
      refine ⟨⟨ks ++ [k], cs ++ [l], ks', cs'⟩, r', ?_, ⟨hw', hsr', ht' ▸ hsm, ?_, ?_, ?_⟩, ?_⟩
      · simp [hm, pair, Hole.fill, ← hlen]
      · have hrk : removeKey x ([] ++ x :: m) = [] ++ m := removeKey_around (by simp) ham
        rw [List.nil_append, List.nil_append] at hrk
        rw [hrm, ht', hrk, ht, Hole.pre_snoc hlen]
        simp [Hole.post]
      · simp [pair, nrActive]
      · simp [pair, nrActive]
      · rw [if_pos (by simp [hrn.ne'])]
        refine ⟨?_, by simp [ht'], k, .inr ⟨by simp [Hole.pre_snoc hlen], har k (by simp [ht])⟩⟩
        rw [Hole.toList_fill hw', toList_pair hlen, ht, ht', Hole.pre_snoc hlen]
        simpa [Hole.post] using ((List.Perm.swap ..).append_left _).append_left _
    case isFalse hrn =>
      have := hl.le_nrActive
      have := hr.le_nrActive
      have hmin : l.nrActive = order - 1 ∧ r.nrActive = order - 1 := ⟨by omega, by omega⟩
      have href := refocused_merge hw hl ho (by omega)
      rw [if_pos hmin, mergeAt_pair hlen]
      refine ⟨_, _, rfl, href.descended hs hb ha, ?_⟩
      rw [if_neg (by simp [hmin])]
      exact href.same

end Index

end FsmNode

section Loop

variable [LinearOrder κ] {cmp : κ → κ → Int} (hc : Compares cmp) {keys : List κ} {node : FsmNode κ}

include hc in
-- The search from the left stops at the key, or where it belongs.
theorem findIdx_located (hs : Sorted keys) {i : Nat}
    (hi : keys.findIdx (fun k => cmp x k ≤ 0) = i) :
    if keys[i]?.any fun k => cmp x k = 0 then keys[i]? = some x else Splits x keys i := by
  have hle : i ≤ keys.length := hi ▸ List.findIdx_le_length
  have hb : ∀ y ∈ keys.take i, y < x := by
    intro y hy
    obtain ⟨j, hj, he⟩ := List.mem_take_iff_getElem.mp hy
    rw [Nat.lt_min] at hj
    have hn := List.not_of_lt_findIdx (hi ▸ hj.left)
    simp only [decide_eq_false_iff_not, he] at hn
    exact hc.pos_iff .. |>.mp (Int.not_le.mp hn)
  cases Nat.lt_or_eq_of_le hle
  case inl hlt =>
    have hk := List.getElem?_eq_getElem hlt
    have hp : cmp x keys[i] ≤ 0 := by
      subst hi
      simpa using List.findIdx_getElem (w := hlt)
    rw [hk]
    split
    case isTrue h =>
      simp only [Option.any_some, decide_eq_true_eq] at h
      rw [(hc.zero_iff .. |>.mp h : x = keys[i])]
    case isFalse h =>
      simp only [Option.any_some, decide_eq_true_eq] at h
      exact ⟨hle, hb, lt_drop hs hk (hc.neg_iff .. |>.mp (by omega))⟩
  case inr heq =>
    rw [List.getElem?_eq_none heq.ge]
    exact ⟨hle, hb, by simp [heq]⟩

include hc in
theorem deleteStep_index (isRoot : Bool) (ho : 2 ≤ order) (hs : node.Shape order (h + 1) lo) (hlo : 0 < lo)
    (hl : Sorted (toList (h + 1) node)) :
    ∃ H c, deleteStep cmp order x isRoot node = .down (H.fill h c) H.keys.length ∧
      Descended order h x node H c ∧ Moved (deleteSwaps cmp order x node) h x node H c := by
  have hn := hs.le_nrActive
  have hty : node.type = .index := by cases hs; rfl
  have hloc := findIdx_located hc (x := x) (hl.sublist hs.keyVals_sublist) rfl
  have hz : node.nrActive ≠ 0 := by omega
  simp only [deleteStep, if_neg hz, hty]
  split
  case isTrue hf =>
    rw [if_pos hf] at hloc
    have hswaps : deleteSwaps cmp order x node =
        !mergesAround order node (node.keyVals.findIdx fun k => cmp x k ≤ 0) := by
      have hf : findsKey cmp x node = true := hf
      simp [deleteSwaps, deleteMerges, hty, hz, hf, deleteIndex]
    obtain ⟨hlt, he⟩ := List.getElem?_eq_some_iff.mp hloc
    obtain ⟨⟨ks, cs, ks', cs'⟩, c, rfl, hw, hk, hk', hlen, hsc⟩ := hs.exists_hole hlt.le
    rw [List.drop_eq_getElem_cons hlt, he] at hk'
    obtain ⟨ks', rfl⟩ : ∃ ks₀, ks' = x :: ks₀ := ⟨_, hk'⟩
    match cs', hw.right with
    | r :: cs', _ =>
      rw [hswaps, ← hlen, ← pair_eq_fill_left]
      exact deleteFromIndex_descended ho hw hsc hl
  case isFalse hf =>
    rw [if_neg hf] at hloc
    obtain ⟨H, c, rfl, hw, hk, hk', hlen, hsc⟩ := hs.exists_hole hloc.le
    obtain ⟨H', c', hfix, href⟩ := fixChild_refocused ho hw hsc (by omega)
    have hb := H.pre_lt hw hl (hk ▸ hloc.below)
    have ha := H.lt_post hw hl (hk' ▸ hloc.above)
    refine ⟨H', c', by rw [← hlen, hfix], href.descended hl ?_ ?_, ?_⟩
    · exact fun y hy => hb y (href.pre y hy)
    · exact fun y hy => ha y (href.post y hy)
    · have hf : findsKey cmp x (H.fill h c) = false := Bool.eq_false_iff.mpr hf
      simpa [Moved, deleteSwaps, hf] using href.same

include hc in
theorem deleteLoop_leaf {ks : List κ} (hs : Sorted ks) (hn : 0 < ks.length)
    (hr : order - 1 < ks.length ∨ isRoot = true) :
    deleteLoop cmp order x (fuel + 1) isRoot (mk 0 .leaf ks []) =
      (if (removeKey x ks).length = 0 ∧ isRoot then none
        else some (mk 0 .leaf (removeKey x ks) [])) := by
  rw [deleteLoop]
  simp only [deleteStep, type_mk, keyVals_mk, nrActive_mk, hn.ne', hr, if_true, if_false]
  generalize hi : ks.findIdx (fun k => cmp x k ≤ 0) = i
  have hloc := findIdx_located hc hs hi
  by_cases hf : ks[i]?.any fun k => cmp x k = 0
  case pos =>
    rw [if_pos hf] at hloc
    obtain ⟨hlt, he⟩ := List.getElem?_eq_some_iff.mp hloc
    have hsp : ks.take i ++ x :: ks.drop (i + 1) = ks := by
      rw [← he, ← List.drop_eq_getElem_cons hlt, List.take_append_drop]
    obtain ⟨_, _, hb, ha⟩ := sorted_cons_iff_around.mp (hsp.symm ▸ hs)
    have hrm := removeKey_around hb ha
    rw [hsp] at hrm
    simp only [hf, if_true, hrm]
    rfl
  case neg =>
    rw [if_neg hf] at hloc
    have hk : x ∉ ks := by
      rw [← List.take_append_drop i ks, List.mem_append]
      exact fun hk => hk.elim (fun hk => (hloc.below x hk).false)
        (fun hk => (hloc.above x hk).false)
    simp only [hf, Bool.false_eq_true, removeKey_of_notMem hk, hn.ne', false_and, if_false]

include hc in
-- Below the root a node keeps enough keys.
theorem deleteLoop_child (ho : 2 ≤ order) (hs : node.Shape order h order)
    (hl : Sorted (toList h node)) :
    ∃ node', deleteLoop cmp order x (h + 1) false node = some node' ∧
      node'.Shape order h (order - 1) ∧ toList h node' = removeKey x (toList h node) := by
  induction h generalizing node
  case zero =>
    cases hs with
    | @leaf _ ks hlo hu =>
      have hl : Sorted ks := hl
      have hlen := length_removeKey (x := x) hl
      rw [deleteLoop_leaf hc hl (by omega) (.inl (by omega)), if_neg (by simp)]
      refine ⟨_, rfl, .leaf ?_ ?_, rfl⟩ <;> omega
  case succ h ih =>
    obtain ⟨H, c, hstep, hd, _⟩ := deleteStep_index hc (x := x) false ho hs (by omega) hl
    obtain ⟨c', hc', hsc', htc'⟩ := ih hd.shape hd.sorted
    refine ⟨H.fill h c', ?_, ?_, ?_⟩
    · rw [deleteLoop, hstep]
      simp only [H.child_fill hd.wf, Bool.false_eq_true, and_false, if_false, hc',
        H.setChild_fill hd.wf, Option.map_some]
    · have hge : order ≤ (H.fill h c).nrActive + 1 := hs.le_nrActive.trans hd.ge
      exact H.shape_fill hd.wf hsc' (Nat.sub_le_of_le_add hge) (hd.le.trans hs.nrActive_le)
    · rw [H.toList_fill hd.wf, htc', hd.keys]

include hc in
-- The root may lose its last key: nothing is left, or the tree becomes lower.
theorem deleteLoop_root (ho : 2 ≤ order) (hs : node.Shape order h 1) (hl : Sorted (toList h node)) :
    match deleteLoop cmp order x (h + 1) true node with
    | none       => removeKey x (toList h node) = []
    | some node' => ∃ h', node'.Shape order h' 1 ∧ toList h' node' = removeKey x (toList h node) := by
  induction h generalizing node
  case zero =>
    cases hs with
    | @leaf _ ks hlo hu =>
      have hl : Sorted ks := hl
      have hlen := length_removeKey (x := x) hl
      rw [deleteLoop_leaf hc hl hlo (.inr rfl)]
      by_cases he : (removeKey x ks).length = 0
      case pos =>
        simpa [he] using List.eq_nil_of_length_eq_zero he
      case neg =>
        simp only [he, false_and, if_false]
        exact ⟨0, .leaf (by omega) (by omega), rfl⟩
  case succ h ih =>
    obtain ⟨H, c, hstep, hd, _⟩ := deleteStep_index hc (x := x) true ho hs (by omega) hl
    rw [deleteLoop, hstep]
    simp only [H.child_fill hd.wf, and_true]
    by_cases hn : (H.fill h c).nrActive = 0
    case pos =>
      obtain ⟨hpre, hpost⟩ := H.around_of_nrActive hd.wf hn
      have hkeys : removeKey x (toList h c) = removeKey x (toList (h + 1) node) := by
        rw [← hd.keys, hpre, hpost, List.nil_append, List.append_nil]
      rw [if_pos hn, ← hkeys]
      exact ih (hd.shape.of_le_nrActive (by have := hd.shape.le_nrActive; omega)) hd.sorted
    case neg =>
      obtain ⟨c', hc', hsc', htc'⟩ := deleteLoop_child hc (x := x) ho hd.shape hd.sorted
      rw [if_neg hn, hc']
      simp only [Option.map_some, H.setChild_fill hd.wf]
      refine ⟨h + 1, H.shape_fill hd.wf hsc' ?_ ?_, ?_⟩
      · exact Nat.pos_of_ne_zero hn
      · exact hd.le.trans hs.nrActive_le
      · rw [H.toList_fill hd.wf, htc', hd.keys]

include hc in
-- Deletion from a tree: the key is gone if it was there.
theorem fsmBtreeDelete_wf {btree : FsmBtree κ} (hw : btree.WF) :
    (fsmBtreeDelete cmp btree x).WF ∧
      (fsmBtreeDelete cmp btree x).keys = removeKey x btree.keys := by
  match hr : btree.root with
  | none =>
    have he : fsmBtreeDelete cmp btree x = btree := by
      cases btree
      simp_all [fsmBtreeDelete]
    rw [he]
    exact ⟨hw, by simp [FsmBtree.keys, hr, removeKey]⟩
  | some root =>
    have hs := hw.shape root (by simp [hr])
    have hl := hw.sorted root (by simp [hr])
    have hroot := deleteLoop_root hc (x := x) btree.order_ge hs hl
    simp only [fsmBtreeDelete, FsmBtree.keys, hr, Option.bind_some]
    split at hroot
    case h_1 hd =>
      simp only [hd, hroot, and_true]
      exact ⟨by simp, by simp⟩
    case h_2 node' hd =>
      obtain ⟨h', hs', ht'⟩ := hroot
      obtain rfl := hs'.level_eq
      simp only [hd, ht', and_true]
      refine ⟨?_, ?_⟩
      · rintro root ⟨⟩
        exact hs'
      · rintro root ⟨⟩
        rw [ht']
        exact sorted_removeKey hl

end Loop

end Emmcfs
