import EmmcfsModel.Fsm.Theorems.Access

namespace Emmcfs

open FsmNode SortedList

section Insert

variable {κ : Type} {ks last : List κ} {cs : List (FsmNode κ)}

-- An index node over leaves, given by all its children but the last one and the keys of that one.
def overLeaves (ks : List κ) (cs : List (FsmNode κ)) (last : List κ) : FsmNode κ :=
  mk 1 .index ks (cs ++ [mk 0 .leaf last []])

@[simp] theorem keyVals_overLeaves : (overLeaves ks cs last).keyVals = ks := rfl
@[simp] theorem nrActive_overLeaves : (overLeaves ks cs last).nrActive = ks.length := rfl
@[simp] theorem type_overLeaves : (overLeaves ks cs last).type = .index := rfl

theorem child_overLeaves (hl : cs.length = ks.length) :
    (overLeaves ks cs last).children[ks.length]? = some (mk 0 .leaf last []) := by
  simp [overLeaves, ← hl]

theorem setChild_overLeaves (hl : cs.length = ks.length) :
    (overLeaves ks cs last).setChild ks.length (mk 0 .leaf last' []) = overLeaves ks cs last' := by
  simp [overLeaves, setChild, ← hl]

theorem splitChild_overLeaves (ho : 2 ≤ order) (hl : cs.length = ks.length)
    (hn : last.length = 2 * order - 1) :
    ∃ a k b, last = a ++ k :: b ∧ a.length = order - 1 ∧ b.length = order - 1 ∧
      btreeSplitChild order (overLeaves ks cs last) ks.length =
        overLeaves (ks ++ [k]) (cs ++ [mk 0 .leaf a []]) b := by
  obtain ⟨a, k, b, he, ha, hb, h₁, h₂, h₃⟩ := keyVals_split ho hn
  refine ⟨a, k, b, he, ha, hb, ?_⟩
  rw [btreeSplitChild, child_overLeaves hl]
  simp only [overLeaves, children_mk, keyVals_mk, level_mk, type_mk, List.take_length, h₁, h₂, h₃,
    List.drop_length, List.append_nil, List.take_nil, List.drop_nil]
  simp [← hl]

variable [LinearOrder κ] {cmp : κ → κ → Int} (hc : Compares cmp) {x : κ}

theorem Located.eq_length (h : Located x ks o) (hx : ∀ y ∈ ks, y < x) : o = some ks.length := by
  match o, h with
  | none, h   => exact absurd (hx x h) (lt_irrefl x)
  | some i, h =>
    refine congrArg some (le_antisymm h.le (Nat.le_of_not_lt fun hi => ?_))
    have hd : ks[i] ∈ ks.drop i := by
      rw [List.drop_eq_getElem_cons hi]
      exact List.mem_cons_self
    exact lt_asymm (h.above _ hd) (hx _ (List.getElem_mem hi))

include hc in
theorem btreeInsertNonfull_leaf_end (hs : Sorted last) (hx : ∀ y ∈ last, y < x) :
    btreeInsertNonfull cmp order x (fuel + 1) (mk 0 .leaf last []) =
      (mk 0 .leaf (last ++ [x]) [], none) := by
  have hloc : Located x last (searchLeaf cmp x last last.length 0 last.length) :=
    searchLeaf_located hc hs (by omega) (by omega) le_rfl (by simp) (by simp)
  simp [btreeInsertNonfull, hloc.eq_length hx]

include hc in
theorem scanIndex_end (hs : Sorted ks) (hx : ∀ y ∈ ks, y < x) :
    scanIndex cmp x ks ks.length = some ks.length :=
  (scanIndex_located hc hs le_rfl (by simp)).eq_length hx

include hc in
-- A key beyond all others goes to the last leaf, which is split if it is full.
theorem insertNonfull_room (fuel : Nat) (hl : cs.length = ks.length) (hs : Sorted (ks ++ last))
    (hx : ∀ y ∈ ks ++ last, y < x) (hn : last.length ≠ 2 * order - 1) :
    btreeInsertNonfull cmp order x (fuel + 2) (overLeaves ks cs last) =
      (overLeaves ks cs (last ++ [x]), none) := by
  have hscan := scanIndex_end hc (hs.sublist (List.sublist_append_left ..))
    fun y hy => hx y (List.mem_append_left _ hy)
  have hleaf : btreeInsertNonfull cmp order x (fuel + 1) (mk 0 .leaf last []) = _ :=
    btreeInsertNonfull_leaf_end hc (hs.sublist (List.sublist_append_right ..))
      fun y hy => hx y (List.mem_append_right _ hy)
  have henter : enterChild cmp order x (overLeaves ks cs last) =
      some (overLeaves ks cs last, ks.length) := by
    simp [enterChild, hscan, child_overLeaves hl, hn]
  simp only [btreeInsertNonfull, type_overLeaves, henter, child_overLeaves hl] at hleaf ⊢
  rw [hleaf, setChild_overLeaves hl]

include hc in
theorem insertNonfull_full (fuel : Nat) (ho : 2 ≤ order) (hl : cs.length = ks.length)
    (hs : Sorted (ks ++ last)) (hx : ∀ y ∈ ks ++ last, y < x) (hn : last.length = 2 * order - 1) :
    ∃ a k b, last = a ++ k :: b ∧ a.length = order - 1 ∧ b.length = order - 1 ∧
      btreeInsertNonfull cmp order x (fuel + 2) (overLeaves ks cs last) =
        (overLeaves (ks ++ [k]) (cs ++ [mk 0 .leaf a []]) (b ++ [x]), none) := by
  obtain ⟨a, k, b, he, ha, hb, hsplit⟩ := splitChild_overLeaves ho hl hn
  refine ⟨a, k, b, he, ha, hb, ?_⟩
  have hscan := scanIndex_end hc (hs.sublist (List.sublist_append_left ..))
    fun y hy => hx y (List.mem_append_left _ hy)
  have hsl := hs.sublist (List.sublist_append_right ks last)
  have hxl : ∀ y ∈ last, y < x := fun y hy => hx y (List.mem_append_right _ hy)
  have hkey : hasKey cmp x last = false := by
    rw [Bool.eq_false_iff, Ne, hasKey_iff hc hsl]
    exact fun h => lt_irrefl x (hxl x h)
  have hk : 0 < cmp x k := hc.pos_iff .. |>.mpr (hxl k (by simp [he]))
  have hleaf : btreeInsertNonfull cmp order x (fuel + 1) (mk 0 .leaf b []) = _ :=
    btreeInsertNonfull_leaf_end hc (hsl.sublist (by simp [he])) fun y hy => hxl y (by simp [he, hy])
  have henter : enterChild cmp order x (overLeaves ks cs last) =
      some (overLeaves (ks ++ [k]) (cs ++ [mk 0 .leaf a []]) b, ks.length + 1) := by
    simp [enterChild, hscan, child_overLeaves hl, hn, hkey, hsplit, hk]
  have hl' : (cs ++ [mk 0 .leaf a []]).length = (ks ++ [k]).length := by simp [hl]
  have hch := @child_overLeaves _ _ b _ hl'
  have hset := @setChild_overLeaves _ _ b _ (b ++ [x]) hl'
  rw [List.length_append, List.length_singleton] at hch hset
  rw [btreeInsertNonfull]
  simp only [type_overLeaves, henter, hch, hleaf, hset]

end Insert

section Grow

variable {b : Nat} {ks last : List FsmBtreeKey} {cs : List (FsmNode FsmBtreeKey)}

-- What a series of chunks with rising numbers makes of a tree: all leaves but the last one have
-- been split.
structure Grown (order b : Nat) (ks : List FsmBtreeKey) (cs : List (FsmNode FsmBtreeKey))
    (last : List FsmBtreeKey) : Prop where
  length  : cs.length = ks.length
  minimal : ∀ c ∈ cs, c.nrActive = order - 1
  sorted  : Sorted (ks ++ last)
  lt      : ∀ key ∈ ks ++ last, key < ⟨b, 1⟩

def Reached (order : Nat) (ho : 2 ≤ order) (root : FsmNode FsmBtreeKey) : Prop :=
  ∃ calls, Run (FsmBtree.Step fsmBtreeCmpFn) ⟨order, ho, none⟩ calls ⟨order, ho, some root⟩

theorem Reached.step (hr : Reached order ho root)
    (hi : fsmBtreeInsert fsmBtreeCmpFn ⟨order, ho, some root⟩ key = (⟨order, ho, some root'⟩, err)) :
    Reached order ho root' := by
  obtain ⟨_, hr⟩ := hr
  exact ⟨_, hr.snoc (.insert hi)⟩

theorem Reached.insert (hr : Reached order ho root) (hn : root.nrActive ≠ 2 * order - 1)
    (hi : btreeInsertNonfull fsmBtreeCmpFn order key (root.level + 1) root = (root', err)) :
    Reached order ho root' := by
  have : fsmBtreeInsert fsmBtreeCmpFn ⟨order, ho, some root⟩ key =
      (⟨order, ho, some root'⟩, err) := by
    simp [fsmBtreeInsert, hn, hi]
  exact hr.step this

theorem sorted_snoc (hs : Sorted ks) (hlt : ∀ key ∈ ks, key < ⟨b, 1⟩) : Sorted (ks ++ [⟨b, 1⟩]) :=
  sorted_cons_iff_around.mpr ⟨hs, by simp, hlt, by simp⟩

theorem lt_snoc (hlt : ∀ key ∈ ks, key < ⟨b, 1⟩) : ∀ key ∈ ks ++ [⟨b, 1⟩], key < ⟨b + 1, 1⟩ := by
  intro key hk
  have hb : (⟨b, 1⟩ : FsmBtreeKey) < ⟨b + 1, 1⟩ := FsmBtreeKey.lt_iff.mpr (.inl (Nat.lt_succ_self b))
  cases List.mem_append.mp hk
  case inl hk => exact (hlt key hk).trans hb
  case inr hk => exact List.mem_singleton.mp hk ▸ hb

namespace Grown

theorem snoc (hg : Grown order b ks cs last) : Grown order (b + 1) ks cs (last ++ [⟨b, 1⟩]) := by
  refine ⟨hg.length, hg.minimal, ?_, ?_⟩
  · rw [← List.append_assoc]
    exact sorted_snoc hg.sorted hg.lt
  · rw [← List.append_assoc]
    exact lt_snoc hg.lt

theorem split (hg : Grown order b ks cs (l ++ k :: r)) (hl : l.length = order - 1) :
    Grown order b (ks ++ [k]) (cs ++ [FsmNode.mk 0 .leaf l []]) r := by
  have hsub : List.Sublist (ks ++ [k] ++ r) (ks ++ (l ++ k :: r)) := by simp
  refine ⟨by simp [hg.length], fun c hc => ?_, hg.sorted.sublist hsub, fun key hk => ?_⟩
  · cases List.mem_append.mp hc
    case inl hc => exact hg.minimal c hc
    case inr hc => rw [List.mem_singleton.mp hc, nrActive_mk, hl]
  · exact hg.lt key (hsub.subset hk)

theorem room (hg : Grown order b ks cs last) (hn : last.length ≠ 2 * order - 1) :
    btreeInsertNonfull fsmBtreeCmpFn order ⟨b, 1⟩ 2 (overLeaves ks cs last) =
      (overLeaves ks cs (last ++ [⟨b, 1⟩]), none) :=
  insertNonfull_room fsmBtreeCmpFn_compares 0 hg.length hg.sorted hg.lt hn

theorem full (ho : 2 ≤ order) (hg : Grown order b ks cs last) (hn : last.length = 2 * order - 1)
    (hk : ks.length ≠ 2 * order - 1) (hr : Reached order ho (overLeaves ks cs last)) :
    ∃ ks' cs' last', ks'.length = ks.length + 1 ∧ last'.length = order ∧
      Grown order (b + 1) ks' cs' last' ∧ Reached order ho (overLeaves ks' cs' last') := by
  obtain ⟨l, k, r, he, hl, hrl, hi⟩ :=
    insertNonfull_full fsmBtreeCmpFn_compares 0 ho hg.length hg.sorted hg.lt hn
  refine ⟨_, _, _, by simp, ?_, ((he ▸ hg).split hl).snoc, hr.insert hk hi⟩
  simp
  omega

theorem exists_last (hg : Grown order b ks cs last) (hk : ks.length ≠ 2 * order - 1)
    (hr : Reached order ho (overLeaves ks cs last)) (hm : last.length ≤ m)
    (hle : m ≤ 2 * order - 1) :
    ∃ b' last', last'.length = m ∧ Grown order b' ks cs last' ∧
      Reached order ho (overLeaves ks cs last') := by
  induction m, hm using Nat.le_induction
  case base         => exact ⟨b, last, rfl, hg, hr⟩
  case succ m hm ih =>
    obtain ⟨b', last', hl, hg, hr⟩ := ih (by omega)
    exact ⟨_, _, by simp [hl], hg.snoc, hr.insert hk (hg.room (by omega))⟩

end Grown

theorem exists_leaf (ho : 2 ≤ order) (m : Nat) (hm : m < 2 * order - 1) :
    ∃ b last, last.length = m + 1 ∧ Grown order b [] [] last ∧
      Reached order ho (mk 0 .leaf last []) := by
  induction m
  case zero =>
    refine ⟨1, [⟨0, 1⟩], rfl, ⟨rfl, by simp, by simp, by simp [FsmBtreeKey.lt_iff]⟩,
      [.insert ⟨0, 1⟩ none], .cons (.insert ?_) .nil⟩
    have hn : ¬0 = 2 * order - 1 := by omega
    simp [fsmBtreeInsert, nrActive, hn, btreeInsertNonfull, searchLeaf]
  case succ m ih =>
    obtain ⟨b, last, hl, hg, hr⟩ := ih (by omega)
    have hi : btreeInsertNonfull fsmBtreeCmpFn order ⟨b, 1⟩ 1 (mk 0 .leaf last []) = _ :=
      btreeInsertNonfull_leaf_end fsmBtreeCmpFn_compares hg.sorted hg.lt
    exact ⟨b + 1, _, by simp [hl], hg.snoc, hr.insert (by rw [nrActive_mk]; omega) hi⟩

-- The first leaf becomes the first child of a new root.
theorem exists_grown_one (ho : 2 ≤ order) :
    ∃ b ks cs last, ks.length = 1 ∧ last.length = order ∧ Grown order b ks cs last ∧
      Reached order ho (overLeaves ks cs last) := by
  obtain ⟨b, last, hl, hg, hr⟩ := exists_leaf ho (2 * order - 2) (by omega)
  have hn : last.length = 2 * order - 1 := by omega
  obtain ⟨l, k, r, he, hll, hrl, hsplit⟩ := splitChild_overLeaves ho hg.length hn
  have hg := (he ▸ hg).split hll
  have hi : fsmBtreeInsert fsmBtreeCmpFn ⟨order, ho, some (mk 0 .leaf last [])⟩ ⟨b, 1⟩ =
      (⟨order, ho, some (overLeaves [k] [mk 0 .leaf l []] (r ++ [⟨b, 1⟩]))⟩, none) := by
    have hi := hg.room (by omega)
    simp only [fsmBtreeInsert, Option.getD_some, nrActive_mk, hn, if_true, level_mk]
    rw [show btreeSplitChild order (mk (0 + 1) .index [] [mk 0 .leaf last []]) 0 = _ from hsplit]
    exact hi ▸ rfl
  refine ⟨b + 1, _, _, _, rfl, ?_, hg.snoc, hr.step hi⟩
  simp
  omega

theorem exists_grown (ho : 2 ≤ order) (n : Nat) (hn : n < 2 * order - 1) :
    ∃ b ks cs last, ks.length = n + 1 ∧ last.length = order ∧ Grown order b ks cs last ∧
      Reached order ho (overLeaves ks cs last) := by
  induction n
  case zero      => exact exists_grown_one ho
  case succ n ih =>
    obtain ⟨b, ks, cs, last, hk, hl, hg, hr⟩ := ih (by omega)
    have hk' : ks.length ≠ 2 * order - 1 := by omega
    obtain ⟨b', last', hl, hg, hr⟩ := hg.exists_last hk' hr (by omega) le_rfl
    obtain ⟨ks', cs', last', hk', h⟩ := hg.full ho hl hk' hr
    exact ⟨_, ks', cs', last', by omega, h⟩

end Grow

-- The loop of merge_siblings in a full node with children that have no key to spare.
theorem deleteAccesses_full {cmp : κ → κ → Int} {ks : List κ} {c₀ c₁ : FsmNode κ}
    (ho : 2 ≤ order) (hk : (k :: ks).length = 2 * order - 1) (h₀ : c₀.nrActive = order - 1)
    (h₁ : c₁.nrActive = order - 1) (hx : cmp x k < 0) :
    ¬InRange order (deleteLoopAccesses cmp order x (fuel + 1) isRoot
      (mk l .index (k :: ks) (c₀ :: c₁ :: cs))) := by
  intro hr
  have hidx : (k :: ks).findIdx (fun k => cmp x k ≤ 0) = 0 := by
    simp [List.findIdx_cons, hx.le]
  have hfix : fixChildAccesses order (mk l .index (k :: ks) (c₀ :: c₁ :: cs)) 0 =
      .child 1 :: mergeSiblingsAccesses order (mk l .index (k :: ks) (c₀ :: c₁ :: cs)) 0 := by
    simp [fixChildAccesses, h₀, h₁]
  have hstep := (inRange_append.mp hr).left
  simp only [deleteStepAccesses, keyVals_mk, nrActive_mk, type_mk, hidx, List.getElem?_cons_zero,
    Option.any_some, hx.ne, decide_false, Bool.false_eq_true, if_false, hfix] at hstep
  rw [if_neg (by simp), inRange_append, inRange_cons, inRange_cons] at hstep
  have hn : (mk l .index (k :: ks) (c₀ :: c₁ :: cs)).nrActive = 2 * order - 1 := hk
  exact (mergeSiblingsAccesses_inRange_iff ho (by omega) hn.le (Nat.zero_le _)).mp
    hstep.right.right.right hn

-- Such a tree can be reached with any order.
theorem exists_delete_out_of_range (ho : 2 ≤ order) :
    ∃ calls btree key, Run (FsmBtree.Step fsmBtreeCmpFn) ⟨order, ho, none⟩ calls btree ∧
      key ∈ btree.keys ∧ ¬InRange order (fsmBtreeDeleteAccesses fsmBtreeCmpFn btree key) := by
  obtain ⟨b, ks, cs, last, hk, _, hg, calls, hr⟩ := exists_grown ho (2 * order - 2) (by omega)
  match ks, cs, hk, hg.length with
  | k :: ks, c₀ :: c₁ :: cs, hk, _  =>
    have h₀ := hg.minimal c₀ (by simp)
    have h₁ := hg.minimal c₁ (by simp)
    have hpos : 0 < c₀.keyVals.length := by
      rw [← nrActive]
      omega
    obtain ⟨x, hx⟩ := List.exists_mem_of_length_pos hpos
    obtain ⟨_, _, hrep⟩ := exists_represents ho hr
    have hs := hrep.wf.sorted _ rfl
    have ht : toList 1 (overLeaves (k :: ks) (c₀ :: c₁ :: cs) last) = c₀.keyVals ++ k :: _ :=
      congrArg (c₀.keyVals ++ ·) Interleave.after_cons
    have hlt : x < k := (sorted_cons_iff_around.mp (ht ▸ hs)).right.right.left x hx
    have hmem : x ∈ toList 1 (overLeaves (k :: ks) (c₀ :: c₁ :: cs) last) :=
      ht ▸ List.mem_append_left _ hx
    exact ⟨calls, _, x, hr, hmem, deleteAccesses_full ho (by omega) h₀ h₁
      (fsmBtreeCmpFn_compares.neg_iff .. |>.mpr hlt)⟩
  | [k], [c], hk, _ =>
    simp at hk
    omega

theorem delete_out_of_range : ∃ calls btree key,
    Run (FsmBtree.Step fsmBtreeCmpFn) ⟨32, by decide, none⟩ calls btree ∧
      key ∈ btree.keys ∧ ¬InRange 32 (fsmBtreeDeleteAccesses fsmBtreeCmpFn btree key) :=
  exists_delete_out_of_range (by decide)

end Emmcfs
