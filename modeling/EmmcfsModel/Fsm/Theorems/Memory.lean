import EmmcfsModel.Fsm.Theorems.Alloc

namespace Emmcfs

open FsmNode SortedList

variable {κ : Type} {cmp : κ → κ → Int} {x : κ}

def FsmBtree.Shaped (btree : FsmBtree κ) : Prop :=
  ∀ root ∈ btree.root, root.Shape btree.order root.level 1

theorem FsmBtree.wf_iff [LinearOrder κ] {btree : FsmBtree κ} :
    btree.WF ↔ btree.Shaped ∧ Sorted btree.keys := by
  constructor
  case mp =>
    intro hw
    refine ⟨hw.shape, ?_⟩
    match hr : btree.root with
    | none      => simp [FsmBtree.keys, hr]
    | some root => simpa [FsmBtree.keys, hr] using hw.sorted root (by simp [hr])
  case mpr =>
    rintro ⟨hs, hl⟩
    refine ⟨hs, fun root hr => ?_⟩
    rwa [FsmBtree.keys, Option.mem_def.mp hr] at hl

theorem FsmBtree.shaped_some {btree : FsmBtree κ} {node : FsmNode κ}
    (hs : node.Shape btree.order h 1) :
    ({ btree with root := some node } : FsmBtree κ).Shaped ∧
      ({ btree with root := some node } : FsmBtree κ).keys = toList h node := by
  obtain rfl := hs.level_eq
  refine ⟨?_, rfl⟩
  rintro _ ⟨⟩
  exact hs

namespace FsmMemory

-- How a call ends that returns `err`.
def ending (err : Option Errno) (m : FsmMemory κ) : Outcome Errno (FsmMemory κ) Unit :=
  err.elim (.ok () m) (.fail · m)

-- A call that has made the tree useless.
def Broken : Outcome Errno (FsmMemory κ) Unit → Prop
  | .ok _ _   => False
  | .fail _ m => m.rootIsErr ∨ ¬m.btree.Shaped
  | .halt     => True

-- A call that has failed and changed no key.
def Refused (keys : List κ) (res : Outcome Errno (FsmMemory κ) Unit) : Prop :=
  ∃ btree outcomes, res = .fail .enomem ⟨btree, false, outcomes⟩ ∧ btree.Shaped ∧ btree.keys = keys

variable {m : FsmMemory κ} {node : FsmNode κ}

def rooted (m : FsmMemory κ) (res : (FsmNode κ × Option Errno) × List Bool) :
    Outcome Errno (FsmMemory κ) Unit :=
  ending res.1.2 ⟨{ m.btree with root := some res.1.1 }, m.rootIsErr, res.2⟩

theorem allocate_bind {f : Bool → FsmCode κ α} : (allocate >>= f) m =
    f (allocateBtreeNode m.outcomes).1 { m with outcomes := (allocateBtreeNode m.outcomes).2 } :=
  rfl

theorem insertNonfull_apply : insertNonfull cmp x node m =
    rooted m (insertNonfullAlloc cmp m.btree.order x (node.level + 1) node m.outcomes) := by
  simp only [insertNonfull, Code.get_bind, Code.modify_bind]
  generalize insertNonfullAlloc cmp m.btree.order x (node.level + 1) node m.outcomes = res
  obtain ⟨⟨root, _ | err⟩, outcomes⟩ := res
  case none => rfl
  case some => rfl

theorem insertNonfull_spec (hr : m.rootIsErr = false) (hs : node.Shape m.btree.order h 1)
    (hn : node.nrActive < 2 * m.btree.order - 1) :
    match firstFailure (nonfullAllocs cmp m.btree.order x (h + 1) node) m.outcomes with
    | none      => insertNonfull cmp x node m =
      rooted m (btreeInsertNonfull cmp m.btree.order x (h + 1) node,
        m.outcomes.drop (nonfullAllocs cmp m.btree.order x (h + 1) node).length)
    | some harm => harm = false ∧ Refused (toList h node) (insertNonfull cmp x node m) := by
  have hf := @insertNonfullAlloc_follows _ cmp x _ _ _ m.outcomes _ m.btree.order_ge hs hn
  rw [insertNonfull_apply, hs.level_eq]
  generalize insertNonfullAlloc cmp m.btree.order x (h + 1) node m.outcomes = res at hf ⊢
  cases hff : firstFailure (nonfullAllocs cmp m.btree.order x (h + 1) node) m.outcomes
  case none      => exact congrArg _ (hf.of_none hff)
  case some harm =>
    obtain ⟨⟨root, err⟩, outcomes⟩ := res
    have hf := hf.of_some hff
    obtain rfl : err = some .enomem := hf.err
    obtain ⟨hs', hk⟩ := FsmBtree.shaped_some hf.shape
    refine ⟨hf.harm, { m.btree with root := some root }, outcomes, ?_, hs', hk.trans hf.same⟩
    rw [rooted, hr]
    rfl

-- An insertion ends as without failures, or it is refused, or the tree is broken: its root becomes
-- an ERR_PTR or an index node without keys, or new_root is written to though it is an ERR_PTR.
def Inserts (cmp : κ → κ → Int) (x : κ) (m : FsmMemory κ)
    (res : Outcome Errno (FsmMemory κ) Unit) : Prop :=
  match firstFailure (insertAllocs cmp m.btree x) m.outcomes with
  | none       => res = ending (fsmBtreeInsert cmp m.btree x).2
    ⟨(fsmBtreeInsert cmp m.btree x).1, false, m.outcomes.drop (insertAllocs cmp m.btree x).length⟩
  | some false => Refused m.btree.keys res
  | some true  => Broken res

theorem insert_empty (hr : m.rootIsErr = false) (hroot : m.btree.root = none) :
    Inserts cmp x m (insert cmp x m) := by
  have ho := m.btree.order_ge
  have hn : ¬(FsmNode.mk 0 .leaf [] [] : FsmNode κ).nrActive = 2 * m.btree.order - 1 := by
    simp; omega
  simp only [Inserts, insertAllocs, hroot, firstFailure_cons, List.length_cons, drop_succ]
  simp only [insert, Code.get_bind, hr, hroot, allocate_bind, fsmBtreeInsert, Option.getD_none,
    Bool.false_eq_true, if_false, if_neg hn]
  generalize allocateBtreeNode m.outcomes = alloc
  obtain ⟨_ | _, outcomes⟩ := alloc
  case false => exact .inl rfl
  case true  =>
    simp only [if_true, firstFailure, insertNonfull_apply]
    rfl

theorem insert_full (hr : m.rootIsErr = false) (hroot : m.btree.root = some root)
    (hs : root.Shape m.btree.order root.level 1) (hn : root.nrActive = 2 * m.btree.order - 1) :
    Inserts cmp x m (insert cmp x m) := by
  have ho := m.btree.order_ge
  obtain ⟨node, hsplit, hsn, hone, htl⟩ := exists_split_root ho hs hn
  have hk : toList (root.level + 1) node = m.btree.keys := by rw [htl, FsmBtree.keys, hroot]
  simp only [Inserts, insertAllocs, hroot, if_pos hn, firstFailure_cons, List.length_cons, drop_succ]
  simp only [insert, Code.get_bind, hr, hroot, allocate_bind, fsmBtreeInsert, Option.getD_some,
    Bool.false_eq_true, if_false, if_pos hn, hsplit]
  generalize allocateBtreeNode m.outcomes = alloc
  obtain ⟨_ | _, outcomes⟩ := alloc
  case false => trivial
  case true =>
    simp only [Code.haltOn_bind, setRoot, Code.modify_bind, allocate_bind, if_true,
      Bool.true_eq_false, if_false]
    generalize allocateBtreeNode outcomes = alloc
    obtain ⟨_ | _, outcomes⟩ := alloc
    case false =>
      -- the new root has one child and no key
      refine .inr fun hshape => ?_
      exact absurd (hshape _ rfl).le_nrActive (by simp)
    case true =>
      have hspec := @insertNonfull_spec _ cmp x
        ⟨{ m.btree with root := some (FsmNode.mk (root.level + 1) .index [] [root]) }, false,
          outcomes⟩ node _ rfl hsn (by simp only [hone]; omega)
      simp only [if_true, hsn.level_eq]
      split at hspec
      case h_1 hf => simpa only [hf, rooted] using hspec
      case h_2 hf =>
        obtain ⟨rfl, hspec⟩ := hspec
        simpa only [hf, hk] using hspec

theorem insert_spec (hr : m.rootIsErr = false) (hs : m.btree.Shaped) :
    Inserts cmp x m (insert cmp x m) := by
  match hroot : m.btree.root with
  | none      => exact insert_empty hr hroot
  | some root =>
    have hs := hs root hroot
    by_cases hn : root.nrActive = 2 * m.btree.order - 1
    case pos => exact insert_full hr hroot hs hn
    case neg =>
      have hlt : root.nrActive < 2 * m.btree.order - 1 := lt_of_le_of_ne hs.nrActive_le hn
      have hspec := @insertNonfull_spec _ cmp x m root _ hr hs hlt
      have hk : toList root.level root = m.btree.keys := by rw [FsmBtree.keys, hroot]
      simp only [Inserts, insertAllocs, hroot, if_neg hn]
      simp only [insert, Code.get_bind, hr, hroot, fsmBtreeInsert, Option.getD_some,
        Bool.false_eq_true, if_false, if_neg hn]
      split at hspec
      case h_1 hf => simpa only [hf, rooted, hr] using hspec
      case h_2 hf =>
        obtain ⟨rfl, hspec⟩ := hspec
        simpa only [hf, hk] using hspec

theorem delete_spec [LinearOrder κ] (hc : Compares cmp) (hr : m.rootIsErr = false)
    (hw : m.btree.WF) : match firstFailure (deleteAllocs cmp m.btree x) m.outcomes with
    | none      => delete cmp x m = .ok () ⟨fsmBtreeDelete cmp m.btree x, false,
      m.outcomes.drop (deleteAllocs cmp m.btree x).length⟩
    | some harm => ∃ btree outcomes, delete cmp x m = .fail .enomem ⟨btree, false, outcomes⟩ ∧
      btree.Shaped ∧ Kept harm m.btree.keys btree.keys := by
  obtain ⟨⟨order, ho, root⟩, rootIsErr, outcomes⟩ := m
  obtain rfl : rootIsErr = false := hr
  cases root
  case none      => rfl
  case some root =>
    have hf := @deleteLoopAlloc_root _ _ cmp x root hc order _ outcomes ho (hw.shape root rfl)
      (hw.sorted root rfl)
    simp only [deleteAllocs, Option.elim_some]
    simp only [delete, Code.get_bind, Bool.false_eq_true, if_false, Code.modify_bind]
    generalize deleteLoopAlloc cmp order x (root.level + 1) true root outcomes = res at hf ⊢
    obtain ⟨⟨root', done⟩, outcomes'⟩ := res
    split
    case h_1 hff =>
      cases hf.of_none hff
      rfl
    case h_2 harm hff =>
      obtain ⟨h', rfl, node, rfl, hs, hk⟩ := hf.of_some hff
      obtain ⟨hs', hk'⟩ := @FsmBtree.shaped_some _ _ ⟨order, ho, root⟩ node hs
      exact ⟨⟨order, ho, some node⟩, outcomes', rfl, hs', hk' ▸ hk⟩

-- An insertion into a tree whose keys are in any order.
def Unsettled (x : κ) (keys : List κ) (m : FsmMemory κ) : Prop :=
  (m.rootIsErr ∨ ¬m.btree.Shaped) ∨ Added x keys m.btree.keys

theorem added_of_nonfull {btree : FsmBtree κ} (hs : node.Shape btree.order h lo)
    (hn : node.nrActive < 2 * btree.order - 1) :
    Added x (toList h node) (FsmBtree.keys { btree with
      root := some (btreeInsertNonfull cmp btree.order x (h + 1) node).1 }) := by
  obtain ⟨hl, ha⟩ := @btreeInsertNonfull_added _ cmp x _ _ _ _ btree.order_ge hs hn
  simpa only [FsmBtree.keys, hl] using ha

theorem fsmBtreeInsert_added {btree : FsmBtree κ} (hs : btree.Shaped) :
    Added x btree.keys (fsmBtreeInsert cmp btree x).1.keys := by
  have ho := btree.order_ge
  match hroot : btree.root with
  | none      =>
    let leaf : FsmNode κ := FsmNode.mk 0 .leaf [] []
    have hsl : leaf.Shape btree.order 0 0 := .leaf (by simp) (by simp)
    have hn : leaf.nrActive < 2 * btree.order - 1 := by simp [leaf]; omega
    have hk : btree.keys = toList 0 leaf := by simp [FsmBtree.keys, hroot, leaf]
    simp only [fsmBtreeInsert, hroot, Option.getD_none]
    rw [if_neg hn.ne, hk]
    exact added_of_nonfull hsl hn
  | some root =>
    have hs := hs root hroot
    have hk : btree.keys = toList root.level root := by rw [FsmBtree.keys, hroot]
    simp only [fsmBtreeInsert, hroot, Option.getD_some]
    by_cases hn : root.nrActive = 2 * btree.order - 1
    case pos =>
      obtain ⟨node, hsplit, hsn, hone, htl⟩ := exists_split_root ho hs hn
      simp only [if_pos hn, hsplit, hsn.level_eq]
      rw [hk, ← htl]
      exact added_of_nonfull hsn (by omega)
    case neg =>
      rw [if_neg hn, hk]
      exact added_of_nonfull hs (lt_of_le_of_ne hs.nrActive_le hn)

theorem insert_added (hr : m.rootIsErr = false) (hs : m.btree.Shaped) :
    Code.wp (insert cmp x) (fun _ => Unsettled x m.btree.keys) (fun _ => Unsettled x m.btree.keys)
      True m := by
  have hspec : Inserts cmp x m (insert cmp x m) := insert_spec hr hs
  unfold Code.wp
  unfold Inserts at hspec
  generalize insert cmp x m = res at hspec ⊢
  split at hspec
  case h_1 =>
    subst hspec
    have ha : Added x m.btree.keys (fsmBtreeInsert cmp m.btree x).1.keys := fsmBtreeInsert_added hs
    cases (fsmBtreeInsert cmp m.btree x).2
    case none => exact .inr ha
    case some => exact .inr ha
  case h_2 =>
    obtain ⟨btree, outcomes, rfl, _, hk⟩ := hspec
    exact .inr (.inl (hk ▸ .rfl))
  case h_3 =>
    match res, hspec with
    | .fail _ _, hb => exact .inl hb
    | .halt, _      => trivial

end FsmMemory

end Emmcfs
