import EmmcfsModel.Fsm.Theorems.Shape

namespace Emmcfs

open FsmNode SortedList

variable {κ : Type} [LinearOrder κ] {cmp : κ → κ → Int} (hc : Compares cmp) {x : κ} {keys : List κ}

-- The searches give the position of the key among sorted keys, or find it there.
def Located (x : κ) (keys : List κ) : Option Nat → Prop
  | none   => x ∈ keys
  | some i => Splits x keys i

include hc in
theorem searchLeaf_located (hs : Sorted keys) (hf : imax ≤ imin + fuel) (hm : imin ≤ imax)
    (hl : imax ≤ keys.length) (hb : ∀ y ∈ keys.take imin, y < x)
    (ha : ∀ y ∈ keys.drop imax, x < y) :
    Located x keys (searchLeaf cmp x keys fuel imin imax) := by
  induction fuel generalizing imin imax
  case zero =>
    obtain rfl : imin = imax := by omega
    exact ⟨hl, hb, ha⟩
  case succ fuel ih =>
    rw [searchLeaf]
    by_cases hlt : imin < imax
    case neg =>
      obtain rfl : imin = imax := by omega
      simpa [hlt] using ⟨hl, hb, ha⟩
    case pos =>
      have hmid : (imin + imax - 1) / 2 < keys.length := by omega
      simp only [hlt, if_true, List.getElem?_eq_getElem hmid]
      have hk := List.getElem?_eq_getElem hmid
      split
      case isTrue h =>
        exact ih (by omega) (by omega) hl (take_succ_lt hs hk (hc.pos_iff .. |>.mp h)) ha
      case isFalse h =>
        split
        case isTrue h =>
          exact ih (by omega) (by omega) (by omega) hb (lt_drop hs hk (hc.neg_iff .. |>.mp h))
        case isFalse h' =>
          have he : x = keys[(imin + imax - 1) / 2] := hc.zero_iff .. |>.mp (by omega)
          rw [he]
          exact List.getElem_mem hmid

include hc in
theorem scanIndex_located (hs : Sorted keys) (hl : i ≤ keys.length)
    (ha : ∀ y ∈ keys.drop i, x < y) : Located x keys (scanIndex cmp x keys i) := by
  induction i
  case zero => exact ⟨by omega, by simp, ha⟩
  case succ i ih =>
    have hk := List.getElem?_eq_getElem (l := keys) (i := i) hl
    simp only [scanIndex, hk]
    split
    case isTrue h =>
      rw [hc.zero_iff] at h
      rw [h]
      exact List.getElem_mem hl
    case isFalse h =>
      split
      case isTrue h'  => exact ⟨hl, take_succ_lt hs hk (hc.pos_iff .. |>.mp h'), ha⟩
      case isFalse h' =>
        exact ih (by omega) (lt_drop hs hk (hc.neg_iff .. |>.mp (by omega)))

include hc in
theorem hasKey_iff : {keys : List κ} → Sorted keys → (hasKey cmp x keys ↔ x ∈ keys)
  | [], _ => by simp [hasKey]
  | k :: keys, hs => by
    obtain ⟨hk, hs⟩ := List.pairwise_cons.mp hs
    simp only [hasKey, List.mem_cons]
    split
    case isTrue h => simp [hc.zero_iff .. |>.mp h]
    case isFalse h =>
      have hne : x ≠ k := fun he => h (hc.zero_iff .. |>.mpr he)
      split
      case isTrue h' =>
        have hlt := hc.neg_iff .. |>.mp h'
        simp only [Bool.false_eq_true, hne, false_or, false_iff]
        exact fun hx => (hk x hx).not_gt hlt
      case isFalse h' => simp [hne, hasKey_iff hs]

namespace FsmNode

-- The middle of the keys of a full node.
omit [LinearOrder κ] in
theorem keyVals_split {keys : List κ} (ho : 2 ≤ order) (hn : keys.length = 2 * order - 1) :
    ∃ a k b, keys = a ++ k :: b ∧ a.length = order - 1 ∧ b.length = order - 1 ∧
      keys.take (order - 1) = a ∧ (keys.drop (order - 1)).take 1 = [k] ∧
      (keys.drop order).take (order - 1) = b := by
  have hm : order - 1 < keys.length := by omega
  have hd : keys.drop (order - 1) = keys[order - 1] :: keys.drop order := by
    rw [List.drop_eq_getElem_cons hm, Nat.sub_add_cancel (by omega)]
  refine ⟨keys.take (order - 1), keys[order - 1], keys.drop order, ?_, ?_, ?_, rfl, ?_, ?_⟩
  · rw [← hd, List.take_append_drop]
  · simp; omega
  · simp; omega
  · simp [hd]
  · exact List.take_of_length_le (by simp; omega)

-- A full child is cut into two with `order - 1` keys each around its middle key.
omit [LinearOrder κ] in
theorem Shape.split {c : FsmNode κ} (ho : 2 ≤ order) (hs : Shape order h lo c)
    (hn : c.nrActive = 2 * order - 1) {H : Hole κ} (hw : H.WF order h) :
    ∃ k l r, Shape order h (order - 1) l ∧ Shape order h (order - 1) r ∧
      l.nrActive = order - 1 ∧ r.nrActive = order - 1 ∧
      toList h c = toList h l ++ k :: toList h r ∧ k ∈ c.keyVals ∧
      btreeSplitChild order (H.fill h c) H.keys.length =
        mk (h + 1) .index (H.keys ++ k :: H.keys') (H.children ++ l :: r :: H.children') := by
  obtain ⟨a, k, b, hk, ha, hb, hka, hkk, hkb⟩ := keyVals_split ho hn
  have hc : ∀ cl cr, c.children.take order = cl → (c.children.drop order).take order = cr →
      btreeSplitChild order (H.fill h c) H.keys.length =
        mk (h + 1) .index (H.keys ++ k :: H.keys') (H.children ++ mk c.level c.type a cl ::
          mk c.level c.type b cr :: H.children') := by
    rintro cl cr rfl rfl
    simp only [btreeSplitChild, H.child_fill hw, hka, hkk, hkb]
    simp [← hw.left]
  cases hs
  case leaf =>
    refine ⟨k, mk 0 .leaf a [], mk 0 .leaf b [], ?_, ?_, ha, hb, hk, by simp [hk],
      hc [] [] (by simp) (by simp)⟩
    · exact .leaf ha.ge (by omega)
    · exact .leaf hb.ge (by omega)
  case index h ks cs hu hcs hs hl =>
    simp only [keyVals_mk, nrActive_mk] at hk hn
    have hlen : cs.length = order + order := by omega
    have hr : (cs.drop order).take order = cs.drop order := List.take_of_length_le (by simp; omega)
    refine ⟨k, mk (h + 1) .index a (cs.take order), mk (h + 1) .index b (cs.drop order), ?_, ?_, ha,
      hb, ?_, by simp [hk], hc _ _ rfl hr⟩
    · exact .index ha.ge (by omega) (by simp; omega) fun d hd => hs d (List.mem_of_mem_take hd)
    · exact .index hb.ge (by omega) (by simp; omega) fun d hd => hs d (List.mem_of_mem_drop hd)
    · have hlr : (cs.take order).length = a.length + 1 := by simp; omega
      have hrr : (cs.drop order).length = b.length + 1 := by simp; omega
      have := Interleave.all_append (f := toList h) (k := k) hlr hrr
      rwa [List.take_append_drop, ← hk] at this

-- The child that an insertion goes on in: it has room, and the key belongs into it.
structure Entered (order h : Nat) (x : κ) (node node' : FsmNode κ) (H : Hole κ) (c : FsmNode κ) :
    Prop where
  eq     : node' = H.fill h c
  wf     : H.WF order h
  shape  : Shape order h (order - 1) c
  room   : c.nrActive < 2 * order - 1
  same   : toList (h + 1) node' = toList (h + 1) node
  below  : ∀ y ∈ H.pre h, y < x
  above  : ∀ y ∈ H.post h, x < y
  le     : node.nrActive ≤ node'.nrActive
  bound  : node'.nrActive ≤ 2 * order - 1

-- The same without the order of the keys.
structure Opened (order h : Nat) (node node' : FsmNode κ) (H : Hole κ) (c : FsmNode κ) : Prop where
  eq    : node' = H.fill h c
  wf    : H.WF order h
  shape : Shape order h (order - 1) c
  room  : c.nrActive < 2 * order - 1
  same  : toList (h + 1) node' = toList (h + 1) node
  le    : node.nrActive ≤ node'.nrActive
  bound : node'.nrActive ≤ 2 * order - 1

theorem Opened.entered {H : Hole κ} {c node node' : FsmNode κ} (ho : Opened order h node node' H c)
    (hs : Sorted (toList (h + 1) node)) (hb : ∀ y ∈ H.keys, y < x) (ha : ∀ y ∈ H.keys', x < y) :
    Entered order h x node node' H c := by
  have hs' : Sorted (toList (h + 1) (H.fill h c)) := ho.eq ▸ ho.same ▸ hs
  exact ⟨ho.eq, ho.wf, ho.shape, ho.room, ho.same, H.pre_lt ho.wf hs' hb, H.lt_post ho.wf hs' ha,
    ho.le, ho.bound⟩

section Split

variable {H : Hole κ} {c l r : FsmNode κ} {k : κ} (hw : H.WF order h)
  (hn : (H.fill h c).nrActive < 2 * order - 1) (hsl : Shape order h (order - 1) l)
  (hsr : Shape order h (order - 1) r) (ht : toList h c = toList h l ++ k :: toList h r)

omit [LinearOrder κ] in
include hw hn hsl hsr ht in
-- A full child is split first, and the key goes to one of the halves.
theorem opened_of_split (hl : l.nrActive < 2 * order - 1) (hr : r.nrActive < 2 * order - 1) :
    Opened order h (H.fill h c)
        (mk (h + 1) .index (H.keys ++ k :: H.keys') (H.children ++ l :: r :: H.children'))
        ⟨H.keys, H.children, k :: H.keys', r :: H.children'⟩ l ∧
      Opened order h (H.fill h c)
        (mk (h + 1) .index (H.keys ++ k :: H.keys') (H.children ++ l :: r :: H.children'))
        ⟨H.keys ++ [k], H.children ++ [l], H.keys', H.children'⟩ r := by
  have htl : toList (h + 1) (mk (h + 1) .index (H.keys ++ k :: H.keys')
      (H.children ++ l :: r :: H.children')) = toList (h + 1) (H.fill h c) := by
    rw [Hole.toList_fill hw, ht]
    exact Interleave.all_focus_two hw.left
  have hcount : (H.keys ++ k :: H.keys').length = (H.keys ++ H.keys').length + 1 := by
    simp; omega
  have hn' : (H.keys ++ H.keys').length < 2 * order - 1 := hn
  have hle : (H.fill h c).nrActive ≤ (H.keys ++ k :: H.keys').length := by
    rw [hcount]; exact Nat.le_succ _
  constructor
  case left =>
    refine ⟨rfl, ⟨hw.left, by simp [hw.right], fun d hd => ?_⟩, hsl, hl, htl, hle, by
      rw [nrActive_mk, hcount]; omega⟩
    simp only [List.mem_append, List.mem_cons] at hd
    rcases hd with hd | rfl | hd
    exacts [hw.shape d (by simp [hd]), hsr, hw.shape d (by simp [hd])]
  case right =>
    refine ⟨by simp [Hole.fill], ⟨by simp [hw.left], hw.right, fun d hd => ?_⟩, hsr, hr, htl, hle, by
      rw [nrActive_mk, hcount]; omega⟩
    simp only [List.mem_append, List.mem_singleton] at hd
    rcases hd with (hd | rfl) | hd
    exacts [hw.shape d (by simp [hd]), hsl, hw.shape d (by simp [hd])]

include hw hn hsl hsr ht in
theorem exists_entered_of_split (hs : Sorted (toList (h + 1) (H.fill h c)))
    (hl : l.nrActive < 2 * order - 1) (hr : r.nrActive < 2 * order - 1)
    (hb : ∀ y ∈ H.keys, y < x) (ha : ∀ y ∈ H.keys', x < y) (hk : x ≠ k) :
    ∃ H' c', H'.keys.length = (if k < x then H.keys.length + 1 else H.keys.length) ∧
      Entered order h x (H.fill h c)
        (mk (h + 1) .index (H.keys ++ k :: H.keys') (H.children ++ l :: r :: H.children')) H' c' := by
  obtain ⟨hleft, hright⟩ := opened_of_split hw hn hsl hsr ht hl hr
  by_cases h' : k < x
  case pos =>
    refine ⟨_, _, by simp [h'], hright.entered hs (fun y hy => ?_) ha⟩
    cases List.mem_append.mp hy
    case inl hy => exact hb y hy
    case inr hy => exact List.mem_singleton.mp hy ▸ h'
  case neg =>
    have hlt : x < k := lt_of_le_of_ne (not_lt.mp h') hk
    refine ⟨_, _, by simp [h'], hleft.entered hs hb (fun y hy => ?_)⟩
    cases List.mem_cons.mp hy
    case inl hy => exact hy ▸ hlt
    case inr hy => exact ha y hy

end Split

end FsmNode

include hc in
theorem enterChild_none {node : FsmNode κ} (hs : node.Shape order (h + 1) lo)
    (hl : Sorted (toList (h + 1) node)) (he : enterChild cmp order x node = none) :
    x ∈ toList (h + 1) node := by
  have hloc := scanIndex_located hc (x := x) (hl.sublist hs.keyVals_sublist) (i := node.nrActive)
    le_rfl (by simp [nrActive])
  simp only [enterChild] at he
  split at he
  case h_1 hi => exact hs.keyVals_sublist.subset (by simpa [Located, hi] using hloc)
  case h_2 i hi =>
    rw [hi] at hloc
    obtain ⟨H, c, hf, hw, _, _, hlen, hsc⟩ := hs.exists_hole hloc.le
    subst hf hlen
    simp only [H.child_fill hw] at he
    split at he
    case isFalse => cases he
    case isTrue =>
      split at he
      case isFalse => split at he <;> cases he
      case isTrue hk =>
        rw [hasKey_iff hc ((H.sorted_child hw hl).sublist hsc.keyVals_sublist)] at hk
        rw [H.toList_fill hw]
        simp [hsc.keyVals_sublist.subset hk]

include hc in
theorem enterChild_some {node node' : FsmNode κ} (ho : 2 ≤ order)
    (hs : node.Shape order (h + 1) lo) (hn : node.nrActive < 2 * order - 1)
    (hl : Sorted (toList (h + 1) node)) (he : enterChild cmp order x node = some (node', i)) :
    ∃ H c, H.keys.length = i ∧ Entered order h x node node' H c := by
  have hloc := scanIndex_located hc (x := x) (hl.sublist hs.keyVals_sublist) (i := node.nrActive)
    le_rfl (by simp [nrActive])
  simp only [enterChild] at he
  split at he
  case h_1 => cases he
  case h_2 j hj =>
    rw [hj] at hloc
    obtain ⟨H, c, hf, hw, hk, hk', hlen, hsc⟩ := hs.exists_hole hloc.le
    have hb : ∀ y ∈ H.keys, y < x := hk ▸ hloc.below
    have ha : ∀ y ∈ H.keys', x < y := hk' ▸ hloc.above
    subst hf hlen
    simp only [H.child_fill hw] at he
    split at he
    case isFalse hfull =>
      cases he
      have := hsc.nrActive_le
      exact ⟨H, c, rfl, rfl, hw, hsc, by omega, rfl, H.pre_lt hw hl hb, H.lt_post hw hl ha, le_rfl,
        hn.le⟩
    case isTrue hfull =>
      obtain ⟨k, l, r, hsl, hsr, hnl, hnr, ht, hkc, hsplit⟩ := hsc.split ho hfull hw
      rw [hsplit] at he
      split at he
      case isTrue => cases he
      case isFalse hk =>
        rw [hasKey_iff hc ((H.sorted_child hw hl).sublist hsc.keyVals_sublist)] at hk
        have hne : x ≠ k := fun he => hk (he ▸ hkc)
        obtain ⟨H', c', hi, hent⟩ := exists_entered_of_split hw hn hsl hsr ht hl (by omega) (by omega)
          hb ha hne
        simp only [keyVals_mk, List.getElem?_append_right le_rfl, Nat.sub_self,
          List.getElem?_cons_zero, hc.pos_iff, Option.some.injEq, Prod.mk.injEq] at he
        exact ⟨H', c', hi.trans he.right, he.left ▸ hent⟩

-- One pass of the loop adds the key below a node that is not full, or finds it there.
structure Inserted (order h lo : Nat) (x : κ) (node : FsmNode κ)
    (res : FsmNode κ × Option Errno) : Prop where
  shape : res.1.Shape order h lo
  keys  : toList h res.1 = insertKey x (toList h node)
  err   : res.2 = if x ∈ toList h node then some .eexist else none

include hc in
theorem btreeInsertNonfull_leaf {node : FsmNode κ} (hs : node.Shape order 0 lo)
    (hn : node.nrActive < 2 * order - 1) (hl : Sorted (toList 0 node)) :
    Inserted order 0 lo x node (btreeInsertNonfull cmp order x (fuel + 1) node) := by
  cases hs
  case leaf ks _ hlo =>
    have hloc : Located x ks (searchLeaf cmp x ks ks.length 0 ks.length) :=
      searchLeaf_located hc hl (by omega) (by omega) le_rfl (by simp) (by simp)
    simp only [btreeInsertNonfull, type_mk, keyVals_mk, nrActive_mk]
    split
    case h_1 hi =>
      have hx : x ∈ ks := by simpa [Located, hi] using hloc
      exact ⟨.leaf hlo hn.le, (insertKey_of_mem hl hx).symm, by simp [hx]⟩
    case h_2 i hi =>
      have hsp : Splits x ks i := by simpa [Located, hi] using hloc
      have hx : x ∉ ks := by
        rw [← List.take_append_drop i ks, List.mem_append]
        exact fun hx => hx.elim (fun h => (hsp.below x h).false) (fun h => (hsp.above x h).false)
      have hlen : (ks.take i ++ x :: ks.drop i).length = ks.length + 1 := by
        have := hsp.le
        simp
        omega
      refine ⟨.leaf ?_ ?_, (insertKey_of_splits hsp).symm, by simp [hx]⟩
      · rw [hlen]; omega
      · rw [hlen]; exact hn

include hc in
theorem btreeInsertNonfull_inserted {node : FsmNode κ} (ho : 2 ≤ order)
    (hs : node.Shape order h lo) (hn : node.nrActive < 2 * order - 1)
    (hl : Sorted (toList h node)) :
    Inserted order h lo x node (btreeInsertNonfull cmp order x (h + 1) node) := by
  induction h generalizing node lo
  case zero => exact btreeInsertNonfull_leaf hc hs hn hl
  case succ h ih =>
    have hty : node.type = .index := by cases hs; rfl
    rw [btreeInsertNonfull, hty]
    simp only
    split
    case h_1 he =>
      have hx := enterChild_none hc hs hl he
      exact ⟨hs, (insertKey_of_mem hl hx).symm, by simp [hx]⟩
    case h_2 node' i he =>
      obtain ⟨H, c, rfl, hent⟩ := enterChild_some hc ho hs hn hl he
      have heq := hent.eq
      subst heq
      rw [H.child_fill hent.wf]
      have hchild : toList (h + 1) node = H.pre h ++ toList h c ++ H.post h := by
        rw [← hent.same, H.toList_fill hent.wf]
      have hlc : Sorted (toList h c) := H.sorted_child hent.wf (hent.same ▸ hl)
      have hin := ih hent.shape hent.room hlc
      simp only [H.setChild_fill hent.wf]
      refine ⟨?_, ?_, ?_⟩
      · exact H.shape_fill hent.wf hin.shape (hs.le_nrActive.trans hent.le) hent.bound
      · rw [H.toList_fill hent.wf, hin.keys, hchild, insertKey_append _ hent.below hent.above]
      · have hmem : x ∈ toList (h + 1) node ↔ x ∈ toList h c := by
          rw [hchild]
          simp only [List.mem_append]
          refine ⟨?_, fun h => .inl (.inr h)⟩
          rintro ((hx | hx) | hx)
          exacts [absurd (hent.below x hx) (lt_irrefl x), hx, absurd (hent.above x hx) (lt_irrefl x)]
        rw [hin.err]
        simp [hmem]

theorem fsmBtreeInsert_of_inserted {btree : FsmBtree κ} {res : FsmNode κ × Option Errno}
    (hs : Sorted (toList h node)) (hi : Inserted btree.order h lo x node res)
    (hk : btree.keys = toList h node) (hn : 0 < res.1.nrActive) :
    ({ btree with root := some res.1 } : FsmBtree κ).WF ∧
      ({ btree with root := some res.1 } : FsmBtree κ).keys = insertKey x btree.keys ∧
      res.2 = if x ∈ btree.keys then some .eexist else none := by
  have hlv := hi.shape.level_eq
  refine ⟨⟨?_, ?_⟩, ?_, hk ▸ hi.err⟩
  · rintro root ⟨⟩
    exact hlv ▸ hi.shape.of_le_nrActive hn
  · rintro root ⟨⟩
    rw [hlv, hi.keys]
    exact sorted_insertKey hs
  · simp only [FsmBtree.keys, hlv, hi.keys]
    rw [← hk, FsmBtree.keys]

omit [LinearOrder κ] in
-- A full root becomes the two children of a new one.
theorem exists_split_root {root : FsmNode κ} (ho : 2 ≤ order) (hs : root.Shape order h 1)
    (hn : root.nrActive = 2 * order - 1) :
    ∃ node, btreeSplitChild order (mk (h + 1) .index [] [root]) 0 = node ∧
      node.Shape order (h + 1) 1 ∧ node.nrActive = 1 ∧ toList (h + 1) node = toList h root := by
  let H : Hole κ := ⟨[], [], [], []⟩
  have hw : H.WF order h := ⟨rfl, rfl, by simp [H]⟩
  obtain ⟨k, l, r, hsl, hsr, _, _, ht, _, hsplit⟩ := hs.split ho hn hw
  refine ⟨_, hsplit, .index (by simp [H]) ?_ (by simp [H]) ?_, rfl, ?_⟩
  · simp only [H, List.nil_append, List.length_singleton]
    omega
  · intro c hc
    simp only [H, List.nil_append, List.mem_cons, List.not_mem_nil, or_false] at hc
    rcases hc with rfl | rfl
    exacts [hsl, hsr]
  · simp [toList_succ, H, ht]

include hc in
-- Insertion into a tree: the key is added, or was there already and -EEXIST says so.
theorem fsmBtreeInsert_wf {btree : FsmBtree κ} (hw : btree.WF) :
    (fsmBtreeInsert cmp btree x).1.WF ∧
      (fsmBtreeInsert cmp btree x).1.keys = insertKey x btree.keys ∧
      (fsmBtreeInsert cmp btree x).2 = if x ∈ btree.keys then some .eexist else none := by
  have ho := btree.order_ge
  match hr : btree.root with
  | none =>
    let leaf : FsmNode κ := mk 0 .leaf [] []
    have hs : leaf.Shape btree.order 0 0 := .leaf (by simp) (by simp)
    have hi := btreeInsertNonfull_inserted hc (x := x) ho hs (by simp [leaf]; omega) (by simp [leaf])
    have hn : ¬leaf.nrActive = 2 * btree.order - 1 := by simp [leaf]; omega
    have hk : btree.keys = toList 0 leaf := by simp [FsmBtree.keys, hr, leaf]
    have hp : 0 < (btreeInsertNonfull cmp btree.order x (0 + 1) leaf).1.nrActive := by
      have := congrArg List.length hi.keys
      simp only [toList_zero, insertKey, List.length_append, List.length_cons] at this
      simp only [nrActive]
      omega
    simp only [fsmBtreeInsert, hr, Option.getD_none]
    rw [if_neg hn]
    exact fsmBtreeInsert_of_inserted (by simp [leaf]) hi hk hp
  | some root =>
    have hs := hw.shape root (by simp [hr])
    have hl := hw.sorted root (by simp [hr])
    have hk : btree.keys = toList root.level root := by simp [FsmBtree.keys, hr]
    simp only [fsmBtreeInsert, hr, Option.getD_some]
    by_cases hn : root.nrActive = 2 * btree.order - 1
    case pos =>
      obtain ⟨node, hsplit, hsn, hnn, htn⟩ := exists_split_root ho hs hn
      have hi := btreeInsertNonfull_inserted hc (x := x) ho hsn (by omega) (htn ▸ hl)
      simp only [if_pos hn, hsplit, hsn.level_eq]
      exact fsmBtreeInsert_of_inserted (htn ▸ hl) hi (hk.trans htn.symm) hi.shape.le_nrActive
    case neg =>
      have := hs.nrActive_le
      have hi := btreeInsertNonfull_inserted hc (x := x) ho hs (by omega) hl
      simp only [if_neg hn]
      exact fsmBtreeInsert_of_inserted hl hi hk hi.shape.le_nrActive

end Emmcfs
