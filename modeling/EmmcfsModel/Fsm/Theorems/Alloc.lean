import EmmcfsModel.Fsm.Theorems.Delete
import EmmcfsModel.Fsm.Theorems.Insert

namespace Emmcfs

open FsmNode SortedList

section Marks

variable {allocs allocs' outcomes : List Bool}

theorem firstFailure_nil : firstFailure allocs [] = none := by
  cases allocs <;> rfl

theorem firstFailure_cons : firstFailure (harm :: allocs) outcomes =
    if (allocateBtreeNode outcomes).1 then firstFailure allocs (allocateBtreeNode outcomes).2
    else some harm := by
  match outcomes with
  | []         => exact firstFailure_nil.symm
  | true :: _  => rfl
  | false :: _ => rfl

theorem drop_succ : outcomes.drop (n + 1) = (allocateBtreeNode outcomes).2.drop n := by
  cases outcomes
  case nil  => simp [allocateBtreeNode]
  case cons => rfl

theorem firstFailure_append : firstFailure (allocs ++ allocs') outcomes =
    (firstFailure allocs outcomes).or (firstFailure allocs' (outcomes.drop allocs.length)) := by
  induction allocs generalizing outcomes
  case nil => rfl
  case cons harm allocs ih =>
    match outcomes with
    | []                => cases allocs' <;> rfl
    | true :: outcomes  => exact ih
    | false :: outcomes => rfl

theorem firstFailure_map (mark : Bool → Bool) :
    firstFailure (allocs.map mark) outcomes = (firstFailure allocs outcomes).map mark := by
  induction allocs generalizing outcomes
  case nil => rfl
  case cons harm allocs ih =>
    match outcomes with
    | []                => rfl
    | true :: outcomes  => exact ih
    | false :: outcomes => rfl

-- A computation makes the allocations in the list as long as they succeed. Then it ends as without
-- failures, otherwise `cut` says how it ends.
def Follows (allocs outcomes : List Bool) (full : α) (cut : Bool → α → Prop) (res : α × List Bool) :
    Prop :=
  match firstFailure allocs outcomes with
  | none      => res = (full, outcomes.drop allocs.length)
  | some harm => cut harm res.1

namespace Follows

variable {full : α} {cut : Bool → α → Prop} {res : α × List Bool}

theorem of_none (h : Follows allocs outcomes full cut res)
    (hn : firstFailure allocs outcomes = none) : res = (full, outcomes.drop allocs.length) := by
  rwa [Follows, hn] at h

theorem of_some (h : Follows allocs outcomes full cut res)
    (hs : firstFailure allocs outcomes = some harm) : cut harm res.1 := by
  rwa [Follows, hs] at h

theorem nil : Follows [] outcomes full cut (full, outcomes) := rfl

theorem map (mark : Bool → Bool) {g : α → β} {cut' : Bool → β → Prop}
    (h : Follows allocs outcomes full cut res) (hc : ∀ harm a, cut harm a → cut' (mark harm) (g a)) :
    Follows (allocs.map mark) outcomes (g full) cut' (g res.1, res.2) := by
  unfold Follows at h ⊢
  rw [firstFailure_map, List.length_map]
  cases hf : firstFailure allocs outcomes
  case none      => rw [hf] at h; rw [h]; rfl
  case some harm => rw [hf] at h; exact hc harm res.1 h

end Follows

def needed (c : Bool) : List Bool := if c then [false] else []

-- An allocation whose failure does no harm, and what comes after it.
theorem Follows.allocateIf {full failed : α} {cut : Bool → α → Prop} {res : α × List Bool}
    (hc : cut false failed) (h : Follows allocs (allocateIf c outcomes).2 full cut res) :
    Follows (needed c ++ allocs) outcomes full cut
      (if (allocateIf c outcomes).1 then res else (failed, (allocateIf c outcomes).2)) := by
  cases c
  case false => exact h
  case true  =>
    match outcomes with
    | true :: _  => exact h
    | false :: _ => exact hc
    | []         =>
      simp only [Emmcfs.allocateIf, allocateBtreeNode, Follows, firstFailure_nil, List.drop_nil,
        if_true] at h ⊢
      exact h

end Marks

section Insert

variable {κ : Type} {cmp : κ → κ → Int} {x : κ}

theorem scanIndex_le (h : scanIndex cmp x keys i = some j) : j ≤ i := by
  induction i
  case zero => cases h; rfl
  case succ i ih =>
    rw [scanIndex] at h
    split at h
    case h_1 => exact (ih h).trans (Nat.le_succ i)
    case h_2 =>
      split at h
      case isTrue  => cases h
      case isFalse =>
        split at h
        case isTrue  => cases h; rfl
        case isFalse => exact (ih h).trans (Nat.le_succ i)

theorem enterChild_opened (ho : 2 ≤ order) (hs : node.Shape order (h + 1) lo)
    (hn : node.nrActive < 2 * order - 1) (he : enterChild cmp order x node = some (node', i)) :
    ∃ H c, H.keys.length = i ∧ Opened order h node node' H c := by
  simp only [enterChild] at he
  split at he
  case h_1 => cases he
  case h_2 j hj =>
    obtain ⟨H, c, hf, hw, _, _, hlen, hsc⟩ := hs.exists_hole (scanIndex_le hj)
    subst hf hlen
    simp only [H.child_fill hw] at he
    split at he
    case isFalse hfull =>
      cases he
      have := hsc.nrActive_le
      exact ⟨H, c, rfl, rfl, hw, hsc, by omega, rfl, le_rfl, hn.le⟩
    case isTrue hfull =>
      obtain ⟨k, l, r, hsl, hsr, hnl, hnr, ht, _, hsplit⟩ := hsc.split ho hfull hw
      rw [hsplit] at he
      split at he
      case isTrue => cases he
      case isFalse =>
        obtain ⟨hleft, hright⟩ := opened_of_split hw hn hsl hsr ht (by omega) (by omega)
        simp only [keyVals_mk, List.getElem?_append_right le_rfl, Nat.sub_self,
          List.getElem?_cons_zero, Option.some.injEq, Prod.mk.injEq] at he
        obtain ⟨rfl, rfl⟩ := he
        split
        case isTrue  => exact ⟨_, _, by simp, hright⟩
        case isFalse => exact ⟨⟨H.keys, H.children, k :: H.keys', r :: H.children'⟩, l, rfl, hleft⟩

-- A split that gets no node does no harm.
structure NotInserted (order h lo : Nat) (node : FsmNode κ) (harm : Bool)
    (res : FsmNode κ × Option Errno) : Prop where
  harm  : harm = false
  err   : res.2 = some .enomem
  shape : res.1.Shape order h lo
  same  : toList h res.1 = toList h node

theorem insertNonfullAlloc_follows (ho : 2 ≤ order) (hs : node.Shape order h lo)
    (hn : node.nrActive < 2 * order - 1) : Follows (nonfullAllocs cmp order x (h + 1) node) outcomes
      (btreeInsertNonfull cmp order x (h + 1) node) (NotInserted order h lo node)
      (insertNonfullAlloc cmp order x (h + 1) node outcomes) := by
  induction h generalizing node lo outcomes
  case zero =>
    have hty : node.type = .leaf := by cases hs; rfl
    simp only [insertNonfullAlloc, nonfullAllocs, hty]
    exact .nil
  case succ h ih =>
    have hty : node.type = .index := by cases hs; rfl
    rw [insertNonfullAlloc, nonfullAllocs, btreeInsertNonfull]
    simp only [hty]
    change Follows (needed (splitsChild cmp order x node) ++ _) _ _ _ _
    have hcut : NotInserted order (h + 1) lo node false (node, some .enomem) := ⟨rfl, rfl, hs, rfl⟩
    refine Follows.allocateIf hcut ?_
    generalize (allocateIf (splitsChild cmp order x node) outcomes).2 = outcomes
    cases he : enterChild cmp order x node
    case none         => exact .nil
    case some entered =>
      obtain ⟨node', i⟩ := entered
      obtain ⟨H, c, rfl, hop⟩ := enterChild_opened ho hs hn he
      have heq := hop.eq
      subst heq
      have ih := @ih c outcomes (order - 1) hop.shape hop.room
      simp only [H.child_fill hop.wf, H.setChild_fill hop.wf, Option.elim_some]
      rw [← List.map_id (nonfullAllocs cmp order x (h + 1) c)]
      refine ih.map id (g := fun res => (H.fill h res.1, res.2)) fun harm res hres => ?_
      have hfill : (H.fill h res.1).Shape order (h + 1) lo :=
        H.shape_fill hop.wf hres.shape (hs.le_nrActive.trans hop.le) hop.bound
      refine ⟨hres.harm, hres.err, hfill, ?_⟩
      rw [← hop.same, H.toList_fill hop.wf, H.toList_fill hop.wf, hres.same]

-- The same loop in a tree whose keys are in any order: it adds the key somewhere, or nothing.
def Added (x : κ) (keys keys' : List κ) : Prop :=
  keys'.Perm keys ∨ keys'.Perm (x :: keys)

theorem Added.around (h : Added x keys keys') : Added x (pre ++ keys ++ post) (pre ++ keys' ++ post) := by
  cases h
  case inl h => exact .inl ((h.append_left _).append_right _)
  case inr h =>
    refine .inr (((h.append_left pre).append_right post).trans ?_)
    rw [List.append_assoc, List.append_assoc, List.cons_append]
    exact List.perm_middle

theorem btreeInsertNonfull_added (ho : 2 ≤ order) (hs : node.Shape order h lo)
    (hn : node.nrActive < 2 * order - 1) :
    (btreeInsertNonfull cmp order x (h + 1) node).1.level = h ∧
      Added x (toList h node) (toList h (btreeInsertNonfull cmp order x (h + 1) node).1) := by
  induction h generalizing node lo
  case zero =>
    cases hs with
    | @leaf _ ks hlo hu =>
      simp only [btreeInsertNonfull, type_mk, keyVals_mk]
      split
      case h_1     => exact ⟨rfl, .inl .rfl⟩
      case h_2 i _ =>
        have hp : (ks.take i ++ x :: ks.drop i).Perm (x :: (ks.take i ++ ks.drop i)) :=
          List.perm_middle
        rw [List.take_append_drop] at hp
        exact ⟨rfl, .inr hp⟩
  case succ h ih =>
    have hty : node.type = .index := by cases hs; rfl
    rw [btreeInsertNonfull, hty]
    simp only
    split
    case h_1 => exact ⟨hs.level_eq, .inl .rfl⟩
    case h_2 node' i he =>
      obtain ⟨H, c, rfl, hop⟩ := enterChild_opened ho hs hn he
      have heq := hop.eq
      subst heq
      simp only [H.child_fill hop.wf, H.setChild_fill hop.wf]
      rw [← hop.same, H.toList_fill hop.wf, H.toList_fill hop.wf]
      exact ⟨rfl, (ih hop.shape hop.room).right.around⟩

end Insert

section Delete

variable {κ : Type} [LinearOrder κ] {cmp : κ → κ → Int} {x : κ} {node : FsmNode κ}

-- The keys after a deletion that has not come to its end: all of them are there still, and in order
-- if no harm has been done.
structure Kept (harm : Bool) (keys keys' : List κ) : Prop where
  perm  : keys'.Perm keys
  order : if harm then ¬Sorted keys' else keys' = keys

theorem Kept.refl {keys : List κ} : Kept false keys keys := ⟨.rfl, rfl⟩

theorem FsmNode.Moved.kept {H : Hole κ} {c : FsmNode κ} (hw : H.WF order h)
    (hm : Moved swaps h x node H c) (hk : Kept harm (toList h c) keys) :
    Kept (swaps || harm) (toList (h + 1) node) (H.pre h ++ keys ++ H.post h) := by
  have hperm : (H.pre h ++ keys ++ H.post h).Perm (toList (h + 1) (H.fill h c)) := by
    rw [H.toList_fill hw]
    exact (hk.perm.append_left _).append_right _
  cases swaps
  case false =>
    have hm : toList (h + 1) (H.fill h c) = toList (h + 1) node := hm
    refine ⟨hm ▸ hperm, ?_⟩
    cases harm
    case false =>
      have hk : keys = toList h c := hk.order
      rw [← hm, hk, H.toList_fill hw]
      rfl
    case true =>
      intro hs
      rw [List.append_assoc] at hs
      exact hk.order (List.pairwise_append.mp (List.pairwise_append.mp hs).right.left).left
  case true =>
    have hm : Exchanged h x node H c := hm
    refine ⟨hperm.trans hm.perm, fun hs => ?_⟩
    have hx : x ∈ keys := hk.perm.mem_iff.mpr hm.mem
    rw [List.append_assoc] at hs
    obtain ⟨_, hs, hpre⟩ := List.pairwise_append.mp hs
    obtain ⟨_, _, hpost⟩ := List.pairwise_append.mp hs
    obtain ⟨k, ⟨hk, hlt⟩ | ⟨hk, hlt⟩⟩ := hm.between
    case inl => exact (hlt.trans (hpost x hx k hk)).false
    case inr => exact (hlt.trans (hpre k hk x (by simp [hx]))).false

def NotDeleted (order h lo : Nat) (keys : List κ) (harm : Bool) (res : Option (FsmNode κ) × Bool) :
    Prop :=
  res.2 = false ∧ ∃ node, res.1 = some node ∧ node.Shape order h lo ∧ Kept harm keys (toList h node)

theorem NotDeleted.fill {H : Hole κ} {c : FsmNode κ} (hw : H.WF order h)
    (hm : Moved swaps h x node H c) (hl : lo ≤ (H.fill h c).nrActive)
    (hu : (H.fill h c).nrActive ≤ 2 * order - 1)
    (hn : NotDeleted order h (order - 1) (toList h c) harm res) :
    NotDeleted order (h + 1) lo (toList (h + 1) node) (swaps || harm)
      (res.1.map (H.fill h), res.2) := by
  obtain ⟨hd, c', hc, hs, hk⟩ := hn
  exact ⟨hd, H.fill h c', by rw [hc]; rfl, H.shape_fill hw hs hl hu,
    H.toList_fill hw ▸ hm.kept hw hk⟩

omit [LinearOrder κ] in
theorem deleteStep_leaf (hty : node.type = .leaf) : deleteStep cmp order x isRoot node = .stop ∨
    ∃ pos, deleteStep cmp order x isRoot node = .remove pos := by
  simp only [deleteStep, hty]
  split
  case isTrue  => exact .inl rfl
  case isFalse =>
    split
    case isTrue =>
      split
      case isTrue  => exact .inr ⟨_, rfl⟩
      case isFalse => exact .inl rfl
    case isFalse => exact .inl rfl

omit [LinearOrder κ] in
theorem deleteLoopAlloc_leaf {cut : Bool → Option (FsmNode κ) × Bool → Prop}
    (hs : node.Shape order 0 lo) : Follows (loopAllocs cmp order x (fuel + 1) isRoot node) outcomes
      (deleteLoop cmp order x (fuel + 1) isRoot node, true) cut
      (deleteLoopAlloc cmp order x (fuel + 1) isRoot node outcomes) := by
  have hty : node.type = .leaf := by cases hs; rfl
  have hm : deleteMerges cmp order x node = false := by simp [deleteMerges, hty]
  rw [loopAllocs, deleteLoop, deleteLoopAlloc, hm]
  obtain h | ⟨pos, h⟩ := @deleteStep_leaf _ cmp x node order isRoot hty
  all_goals
    rw [h]
    exact .nil

theorem ite_allHarmful {swaps : Bool} :
    (if swaps then allHarmful allocs else allocs) = allocs.map (swaps || ·) := by
  cases swaps
  case false => exact (List.map_id _).symm
  case true  => rfl

variable (hc : Compares cmp)

include hc in
theorem deleteLoopAlloc_child (ho : 2 ≤ order) (hs : node.Shape order h order)
    (hl : Sorted (toList h node)) : Follows (loopAllocs cmp order x (h + 1) false node) outcomes
      (deleteLoop cmp order x (h + 1) false node, true)
      (NotDeleted order h (order - 1) (toList h node))
      (deleteLoopAlloc cmp order x (h + 1) false node outcomes) := by
  induction h generalizing node outcomes
  case zero => exact deleteLoopAlloc_leaf hs
  case succ h ih =>
    obtain ⟨H, c, hstep, hd, hm⟩ := deleteStep_index hc (x := x) false ho hs (by omega) hl
    have hlo : order - 1 ≤ node.nrActive := (Nat.sub_le ..).trans hs.le_nrActive
    have hcut : NotDeleted order (h + 1) (order - 1) (toList (h + 1) node) false (some node, false) :=
      ⟨rfl, node, rfl, hs.of_le_nrActive hlo, .refl⟩
    rw [loopAllocs, deleteLoop, deleteLoopAlloc, hstep]
    simp only [H.child_fill hd.wf, ite_allHarmful, Option.elim_some, Bool.false_eq_true, and_false,
      decide_false, if_false, H.setChild_fill_eq hd.wf]
    change Follows (needed (deleteMerges cmp order x node) ++ _) _ _ _ _
    refine Follows.allocateIf hcut ?_
    generalize (allocateIf (deleteMerges cmp order x node) outcomes).2 = outcomes
    have hge : order ≤ (H.fill h c).nrActive + 1 := hs.le_nrActive.trans hd.ge
    refine (@ih c outcomes hd.shape hd.sorted).map _ (g := fun res => (res.1.map (H.fill h), res.2)) fun harm res hres => ?_
    exact hres.fill hd.wf hm (Nat.sub_le_of_le_add hge) (hd.le.trans hs.nrActive_le)

include hc in
-- The root may have lost its last key before.
theorem deleteLoopAlloc_root (ho : 2 ≤ order) (hs : node.Shape order h 1)
    (hl : Sorted (toList h node)) : Follows (loopAllocs cmp order x (h + 1) true node) outcomes
      (deleteLoop cmp order x (h + 1) true node, true)
      (fun harm res => ∃ h', NotDeleted order h' 1 (toList h node) harm res)
      (deleteLoopAlloc cmp order x (h + 1) true node outcomes) := by
  induction h generalizing node outcomes
  case zero => exact deleteLoopAlloc_leaf hs
  case succ h ih =>
    obtain ⟨H, c, hstep, hd, hm⟩ := deleteStep_index hc (x := x) true ho hs (by omega) hl
    have hcut : ∃ h', NotDeleted order h' 1 (toList (h + 1) node) false (some node, false) :=
      ⟨h + 1, rfl, node, rfl, hs, .refl⟩
    rw [loopAllocs, deleteLoop, deleteLoopAlloc, hstep]
    simp only [H.child_fill hd.wf, ite_allHarmful, Option.elim_some, and_true,
      H.setChild_fill_eq hd.wf]
    change Follows (needed (deleteMerges cmp order x node) ++ _) _ _ _ _
    refine Follows.allocateIf hcut ?_
    generalize (allocateIf (deleteMerges cmp order x node) outcomes).2 = outcomes
    by_cases hn : (H.fill h c).nrActive = 0
    case pos =>
      have hpos : 1 ≤ c.nrActive := by have := hd.shape.le_nrActive; omega
      obtain ⟨hpre, hpost⟩ := H.around_of_nrActive hd.wf hn
      simp only [hn, if_true, decide_true]
      have ih := @ih c outcomes (hd.shape.of_le_nrActive hpos) hd.sorted
      refine ih.map _ (g := id) fun harm res hres => ?_
      obtain ⟨h', hdone, c', hc', hs', hk⟩ := hres
      have hk := hm.kept hd.wf hk
      rw [hpre, hpost, List.nil_append, List.append_nil] at hk
      exact ⟨h', hdone, c', hc', hs', hk⟩
    case neg =>
      simp only [hn, if_false, decide_false]
      refine (deleteLoopAlloc_child hc ho hd.shape hd.sorted).map _ (g := fun res => (res.1.map (H.fill h), res.2)) fun harm res hres => ?_
      exact ⟨h + 1, hres.fill hd.wf hm (Nat.pos_of_ne_zero hn) (hd.le.trans hs.nrActive_le)⟩

end Delete

end Emmcfs
