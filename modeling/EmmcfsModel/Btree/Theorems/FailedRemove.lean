import EmmcfsModel.Btree.Theorems.Failure
import EmmcfsModel.Extents.Tree

namespace Emmcfs

open Code

variable {tree : BtreeOps κ} {s s' : Btree κ ν} {key : κ} {r : BtreeRecord κ ν}

-- The record that is removed is not the first one of its leaf, or there is no level above.
def Btree.RemovesBehind (tree : BtreeOps κ) (s : Btree κ ν) (key : κ) : Prop :=
  ∀ i pos path, s.SearchPath tree key s.btreeHeight ((i, pos) :: path) →
    pos ≠ 0 ∨ s.btreeHeight = 1

theorem faultOrBug_settles {P : Btree κ ν → Prop} {e : Errno} (hm : tree.isMountFinished = true) :
    Settles P (faultOrBug tree e : BtreeCode κ ν α) := by
  rw [faultOrBug, if_pos hm]
  exact .halt

theorem destroyBnode_settles (hm : tree.isMountFinished = true) :
    Settles (fun s : Btree κ ν => s.btreeHeight = n)
      (Code.onFail (destroyBnode tree i) (faultOrBug tree)) := by
  refine fun s hs => wp_onFail.mpr (wp_bind.mpr (wp_haltOn.mpr ⟨fun _ => trivial, fun _ => ?_⟩))
  refine wp_bind.mpr (wp_request (fun s₁ h₁ => ?_) fun e s₁ h₁ => ?_)
  case refine_1 =>
    have h : s₁.btreeHeight = n := by rw [h₁.unchanged]; exact hs
    refine wp_bind.mpr (wp_ite.mpr ⟨fun _ => ?_, fun _ => h⟩)
    exact wp_mono (faultOrBug_settles (P := fun s => s.btreeHeight = n) hm s₁ h) (fun _ _ => id)
      (fun _ _ => False.elim) id
  case refine_2 => exact faultOrBug_settles hm s₁ (by rw [h₁]; exact hs)

-- Above the root there is nothing to remove from.
theorem btreeRemove_above (h : s.btreeHeight < level) :
    wp (btreeRemove tree fuel level key) (fun _ _ => True) (fun _ _ => False) True s := by
  cases fuel
  case zero => trivial
  case succ fuel =>
    rw [btreeRemove, wp_bind, wp_get, wp_bind, wp_haltOn]
    exact ⟨fun _ => trivial, fun hn => absurd h hn⟩

-- An error behind the removal of the record is answered by a halt.
theorem afterRemove_settles {remove : κ → BtreeCode κ ν Unit} (hm : tree.isMountFinished = true) :
    wp (afterRemove tree remove key 1 i) (fun _ _ => True) (fun _ _ => False) True s := by
  rw [afterRemove, wp_bind, wp_get, wp_ite]
  refine ⟨fun _ => wp_ite.mpr ⟨fun _ => ?_, fun hl => wp_ite.mpr ⟨fun hr => ?_, fun _ => trivial⟩⟩,
    fun _ => trivial⟩
  case refine_1 =>
    rw [wp_onFail, wp]
    split
    case h_1 => trivial
    case h_2 => exact faultOrBug_settles hm _ trivial
    case h_3 => trivial
  case refine_2 => exact absurd hr.right hl

theorem btreeRemove_fails (hm : tree.isMountFinished = true) (hb : s.RemovesBehind tree key) :
    wp (btreeRemove tree fuel 1 key) (fun _ _ => True) (fun _ s' => s.Unchanged s') True s := by
  cases fuel
  case zero => trivial
  case succ fuel =>
    rw [btreeRemove, wp_bind, wp_get, wp_bind, wp_haltOn]
    refine ⟨fun _ => trivial, fun _ => wp_bind.mpr ?_⟩
    refine wp_imp btreeFindLevel_spec ?_
    rintro ⟨⟨i, pos⟩, path⟩ s₁ ⟨hreq, hp⟩
    have h₁ := hreq.unchanged
    have hcase := hb i pos path hp
    have hheight : s₁.btreeHeight = s.btreeHeight := by rw [h₁]
    rw [wp_bind, wp_bnodeAt, wp_bind]
    refine wp_mono getRecord_spec ?_ (fun _ _ h => h₁.trans h) id
    rintro record s₂ ⟨he, hrec⟩
    subst he
    refine wp_ite.mpr ⟨fun _ => h₁, fun _ => ?_⟩
    -- from here on the record is gone, and no error may be returned
    refine wp_mono (Q := fun _ _ => True) (E := fun _ _ => False) (H := True) ?_
      (fun _ _ => id) (fun _ _ => False.elim) id
    simp only [deleteFromNode, wp_bind, wp_bnodeAt, hrec, wp_updateBnode, wp_get, wp_ite]
    refine ⟨fun hempty => ?_, fun _ => ⟨fun hlow => ?_, fun _ => ?_⟩⟩
    case refine_1 =>
      have hlt := (List.getElem?_eq_some_iff.mp hrec).1
      rw [Btree.bnode_setBnode_self] at hempty
      have htake := congrArg List.length (List.append_eq_nil_iff.mp hempty).left
      rw [List.length_take, List.length_nil] at htake
      have hone : s₂.btreeHeight = 1 := by omega
      have hstable : Btree.Stable [] fun s : Btree κ ν => s.btreeHeight = 1 :=
        ⟨fun s s' hs hr => by rw [hr.unchanged]; exact hs, fun _ _ _ hs _ => hs⟩
      refine wp_imp (hstable.setNextOf_settles _ hone) (fun _ s₃ h₃ => ?_)
      refine wp_bind.mpr (wp_imp (hstable.setPrevOf_settles s₃ h₃) (fun _ s₄ h₄ => ?_))
      refine wp_bind.mpr (wp_imp (destroyBnode_settles hm s₄ h₄) (fun _ s₅ h₅ => ?_))
      exact btreeRemove_above (by omega)
    case refine_2 =>
      obtain ⟨hz, hl⟩ : _ ∧ 1 < s₂.btreeHeight := hlow
      omega
    case refine_3 => exact afterRemove_settles hm

-- An extents tree of two leaves. The third request of the next call fails.
def twoLeaves : Btree ExttreeKey (Option ExtentInfo) where
  bnodes      := [
    (1, ⟨.index, [nodeRecord ⟨10, 0⟩ 2, nodeRecord ⟨11, 0⟩ 3], 4069 - 2 * 36, 0, 0⟩),
    (2, ⟨.leaf, [leafRecord ⟨10, 0⟩ 20, leafRecord ⟨10, 1⟩ 22], 4069 - 2 * 44, 0, 3⟩),
    (3, ⟨.leaf, [leafRecord ⟨11, 0⟩ 24, leafRecord ⟨11, 1⟩ 26], 4069 - 2 * 44, 2, 0⟩)]
  bitmap      := 2 ^ 4 - 1
  firstFreeId := 4
  freeNum     := 32636
  rootBnodeId := 1
  btreeHeight := 2
  env         := ⟨4, [none, none, some .enomem]⟩

theorem twoLeaves_upper : twoLeaves.Upper (extTree true) 1 [[2, 3], [1]]
    [leafRecord ⟨10, 0⟩ 20, leafRecord ⟨10, 1⟩ 22, leafRecord ⟨11, 0⟩ 24, leafRecord ⟨11, 1⟩ 26] where
  shape  := by decide +kernel
  nodup  := by decide
  bitmap := .of_ones (k := 4) (by decide) rfl rfl rfl
  height := rfl

theorem twoLeaves_searchPath :
    twoLeaves.SearchPath (extTree true) ⟨11, 2⟩ 2 [(3, 1), (1, 1)] :=
  have hroot : twoLeaves.SearchPath (extTree true) ⟨11, 2⟩ 1 [(1, 1)] :=
    .root (s := twoLeaves) (.inl rfl) rfl
  .child (r := nodeRecord ⟨11, 0⟩ 3) hroot rfl rfl rfl

end Emmcfs
