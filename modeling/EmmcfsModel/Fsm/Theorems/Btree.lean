import EmmcfsModel.Lib.Run
import EmmcfsModel.Fsm.Theorems.Insert
import EmmcfsModel.Fsm.Theorems.Delete
import Mathlib.Data.Prod.Lex
import Mathlib.Data.Set.Insert

namespace Emmcfs

open SortedList

-- Free chunks are ordered by their start, then by their length.
instance : LinearOrder FsmBtreeKey :=
  LinearOrder.lift' (fun key => toLex (key.blockOffset, key.length)) fun a b h => by
    obtain ⟨hb, hl⟩ := Prod.mk.inj (toLex.injective h)
    exact FsmBtreeKey.ext hb hl

theorem FsmBtreeKey.lt_iff {a b : FsmBtreeKey} : a < b ↔
    a.blockOffset < b.blockOffset ∨ a.blockOffset = b.blockOffset ∧ a.length < b.length :=
  Prod.Lex.toLex_lt_toLex

theorem fsmBtreeCmpFn_compares : Compares fsmBtreeCmpFn where
  neg_iff a b := by
    rw [FsmBtreeKey.lt_iff, fsmBtreeCmpFn]
    split_ifs <;> simp <;> omega
  zero_iff a b := by
    rw [FsmBtreeKey.ext_iff, fsmBtreeCmpFn]
    split_ifs <;> simp <;> omega

-- A call on the free space tree with what it returns.
inductive FsmCall (κ : Type)
  | insert (keyVal : κ) (err : Option Errno)
  | delete (keyVal : κ)

section Runs

variable {κ : Type}

inductive FsmBtree.Step (cmp : κ → κ → Int) : FsmBtree κ → FsmCall κ → FsmBtree κ → Prop
  | insert : fsmBtreeInsert cmp btree keyVal = (btree', err) →
    Step cmp btree (.insert keyVal err) btree'
  | delete : fsmBtreeDelete cmp btree keyVal = btree' →
    Step cmp btree (.delete keyVal) btree'

-- The same calls on a set of keys.
inductive SetStep : Set κ → FsmCall κ → Set κ → Prop
  | insert : keyVal ∉ s → SetStep s (.insert keyVal none) (insert keyVal s)
  | exists : keyVal ∈ s → SetStep s (.insert keyVal (some .eexist)) s
  | delete : SetStep s (.delete keyVal) (s \ {keyVal})

variable [LinearOrder κ] {cmp : κ → κ → Int}

-- A tree that keeps the invariant stands for the set of its keys.
structure FsmBtree.Represents (btree : FsmBtree κ) (s : Set κ) : Prop where
  wf   : btree.WF
  keys : ∀ k, k ∈ btree.keys ↔ k ∈ s

theorem FsmBtree.Step.represents (hc : Compares cmp) {btree btree' : FsmBtree κ} {s : Set κ}
    (hr : btree.Represents s) (hs : Step cmp btree call btree') :
    ∃ s', SetStep s call s' ∧ btree'.Represents s' := by
  cases hs
  case insert keyVal err h =>
    obtain ⟨hw, hk, he⟩ := fsmBtreeInsert_wf hc (x := keyVal) hr.wf
    rw [h] at hw hk he
    by_cases hm : keyVal ∈ btree.keys
    case pos =>
      rw [if_pos hm] at he
      subst he
      refine ⟨s, .exists ((hr.keys _).mp hm), hw, fun k => ?_⟩
      rw [← hr.keys, hk, mem_insertKey, or_iff_right_of_imp (fun he => he ▸ hm)]
    case neg =>
      rw [if_neg hm] at he
      subst he
      refine ⟨Insert.insert keyVal s, .insert (fun h => hm ((hr.keys _).mpr h)), hw, fun k => ?_⟩
      rw [hk, mem_insertKey, hr.keys, Set.mem_insert_iff]
  case delete keyVal h =>
    obtain ⟨hw, hk⟩ := fsmBtreeDelete_wf hc (x := keyVal) hr.wf
    rw [h] at hw hk
    refine ⟨s \ {keyVal}, .delete, hw, fun k => ?_⟩
    rw [hk, mem_removeKey, hr.keys, Set.mem_sdiff, Set.mem_singleton_iff, and_comm]

-- From the empty tree on.
theorem FsmBtree.represents_empty {btree : FsmBtree κ} (h : btree.root = none) :
    btree.Represents ∅ := by
  refine ⟨⟨by simp [h], by simp [h]⟩, by simp [FsmBtree.keys, h]⟩

end Runs

theorem exists_represents (ho : 2 ≤ order)
    (hr : Run (FsmBtree.Step fsmBtreeCmpFn) ⟨order, ho, none⟩ calls btree) :
    ∃ s, Run SetStep ∅ calls s ∧ btree.Represents s :=
  hr.simulates (fun _ _ _ _ hrep hs => hs.represents fsmBtreeCmpFn_compares hrep)
    (FsmBtree.represents_empty rfl)

-- Whatever is inserted and deleted, the free space tree keeps the invariant of a B-tree, holds the
-- keys that a set would hold and answers as the set does.
theorem fsmBtree_refines_set (order : Nat) (ho : 2 ≤ order)
    (hr : Run (FsmBtree.Step fsmBtreeCmpFn) ⟨order, ho, none⟩ calls btree) :
    btree.WF ∧ Run SetStep ∅ calls { k | k ∈ btree.keys } := by
  obtain ⟨s, hs, hrep⟩ := exists_represents ho hr
  obtain rfl : s = { k | k ∈ btree.keys } := Set.ext fun k => (hrep.keys k).symm
  exact ⟨hrep.wf, hs⟩

theorem fsmBtree_refines_set_twice : Run SetStep ∅
    [.insert ⟨8, 2⟩ none, .insert ⟨8, 2⟩ (some .eexist), .delete (⟨8, 2⟩ : FsmBtreeKey)] ∅ := by
  have hr : Run (FsmBtree.Step fsmBtreeCmpFn) ⟨2, le_rfl, none⟩
      [.insert ⟨8, 2⟩ none, .insert ⟨8, 2⟩ (some .eexist), .delete ⟨8, 2⟩] ⟨2, le_rfl, none⟩ :=
    .cons (.insert rfl) (.cons (.insert rfl) (.cons (.delete rfl) .nil))
  simpa [FsmBtree.keys] using (fsmBtree_refines_set 2 le_rfl hr).right

end Emmcfs
