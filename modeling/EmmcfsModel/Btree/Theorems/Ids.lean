import EmmcfsModel.Lib.Run
import EmmcfsModel.Btree.Theorems.Node

namespace Emmcfs

open Code

-- A call of the allocator with its result.
inductive BnodeCall
  | alloc (id : Nat)
  | allocFails (e : Errno)
  | destroy (id : Nat)
  | destroyFails (id : Nat) (e : Errno)

-- The calls meet any outcomes of their requests. Nodes that are in use are destroyed, the head bnode
-- is not.
inductive Btree.IdStep (tree : BtreeOps κ) : Btree κ ν → BnodeCall → Btree κ ν → Prop
  | alloc {v : BtreeEnv} : allocNewBnode tree { s with env := v } = .ok n s' →
    IdStep tree s (.alloc n) s'
  | allocFails {v : BtreeEnv} : allocNewBnode tree { s with env := v } = .fail e s' →
    IdStep tree s (.allocFails e) s'
  | destroy {v : BtreeEnv} : s.Live n → destroyBnode tree n { s with env := v } = .ok () s' →
    IdStep tree s (.destroy n) s'
  | destroyFails {v : BtreeEnv} : s.Live n →
    destroyBnode tree n { s with env := v } = .fail e s' → IdStep tree s (.destroyFails n e) s'

variable {tree : BtreeOps κ} {s s' : Btree κ ν} {id i : Nat}

-- The tree is the same; the requests that have been made are not undone.
def Btree.Unchanged (s s' : Btree κ ν) : Prop :=
  s' = { s with env := s'.env }

namespace Btree.Unchanged

theorem of_env {env : BtreeEnv} : s.Unchanged { s with env := env } := rfl

theorem symm (h : s.Unchanged s') : s'.Unchanged s := by
  rw [Unchanged] at h ⊢
  rw [h]

theorem trans {s'' : Btree κ ν} (h : s.Unchanged s') (h' : s'.Unchanged s'') :
    s.Unchanged s'' := by
  rw [Unchanged] at h h' ⊢
  rw [h', h]

theorem bitmapOk (h : s.Unchanged s') (hb : s.BitmapOk tree) : s'.BitmapOk tree := by
  rw [h]
  exact ⟨hb.head, hb.lt, hb.count, hb.least, hb.clear⟩

end Btree.Unchanged

-- Only requests have been made.
structure Btree.Requested (s s' : Btree κ ν) : Prop where
  unchanged : s.Unchanged s'
  outcomes  : s'.env.outcomes <:+ s.env.outcomes

namespace Btree.Requested

theorem refl : s.Requested s :=
  ⟨rfl, List.suffix_rfl⟩

theorem trans {s'' : Btree κ ν} (h : s.Requested s') (h' : s'.Requested s'') : s.Requested s'' :=
  ⟨h.unchanged.trans h'.unchanged, h'.outcomes.trans h.outcomes⟩

end Btree.Requested

section Requests

variable {Q : Unit → Btree κ ν → Prop} {E : Errno → Btree κ ν → Prop} {H : Prop}

-- A request ends in any way.
theorem wp_request (hq : ∀ s', s.Requested s' → Q () s') (he : ∀ e s', s.Unchanged s' → E e s') :
    wp request Q E H s := by
  rw [request, wp_bind, wp_get]
  cases ho : s.env.outcomes
  case nil => exact hq s .refl
  case cons o outcomes =>
    rw [wp_bind, wp_modify]
    cases o
    case none   => exact hq _ ⟨rfl, ho ▸ List.suffix_cons ..⟩
    case some e => exact he e _ rfl

theorem wp_kmalloc (hq : ∀ s', s.Requested s' → Q () s') (he : ∀ s', s.Unchanged s' → E .enomem s') :
    wp kmalloc Q E H s :=
  wp_onFail.mpr (wp_request hq fun _ => he)

-- The first clear bit goes to the caller, or nothing changes.
theorem allocNewBnode_spec (h : s.BitmapOk tree) : wp (allocNewBnode tree)
    (fun id s' => s.freeNum ≠ 0 ∧ id = s.firstFreeId ∧ (s.taken tree).Unchanged s')
    (fun e s' => s.Unchanged s' ∧ (s.freeNum = 0 → e = .enospc)) False s := by
  have hclear := h.clear
  have hback : (s.bitmap ||| 1 <<< s.firstFreeId) ^^^ 1 <<< s.firstFreeId = s.bitmap := by
    refine Nat.eq_of_testBit_eq fun i => ?_
    rw [Nat.testBit_xor, Nat.testBit_or, Nat.one_shiftLeft, Nat.testBit_two_pow]
    by_cases hi : s.firstFreeId = i
    case pos => simp [← hi, hclear]
    case neg => simp [hi]
  rw [allocNewBnode, wp_bind, wp_get, wp_ite]
  refine ⟨fun h0 => ⟨rfl, fun _ => rfl⟩, fun h0 => wp_bind.mpr (wp_request ?_ ?_)⟩
  case refine_2 => exact fun e s₁ h₁ => ⟨h₁, (absurd · h0)⟩
  case refine_1 =>
    rintro s₁ ⟨h₁, _⟩
    rw [Btree.Unchanged] at h₁
    simp only [wp_bind, wp_haltOn, hclear, wp_modify, wp_onFail]
    refine ⟨by simp, fun _ => wp_request ?_ ?_⟩
    case refine_1 =>
      rintro s₂ ⟨h₂, _⟩
      rw [Btree.Unchanged] at h₂
      refine ⟨h0, rfl, ?_⟩
      rw [h₂, h₁]
      rfl
    case refine_2 =>
      intro e s₂ h₂
      rw [Btree.Unchanged] at h₂
      refine ⟨?_, (absurd · h0)⟩
      rw [h₂, h₁]
      simp [Btree.Unchanged, hback]

theorem destroyBnode_spec (h : s.Live id) : wp (destroyBnode tree id)
    (fun _ s' => (s.given id).Unchanged s') (fun _ s' => s.Unchanged s') False s := by
  rw [destroyBnode, wp_bind, wp_haltOn]
  refine ⟨fun h0 => absurd h0 h.ne_zero, fun _ => wp_bind.mpr (wp_request ?_ fun _ _ h => h)⟩
  rintro s₁ ⟨h₁, _⟩
  rw [Btree.Unchanged] at h₁
  have hu : s₁.bitmap.testBit id = true := by
    rw [h₁]
    exact h.used
  simp only [wp_bind, wp_get, hu]
  rw [h₁]
  rfl

end Requests

section Build

theorem bitmapWeight_eq : n - bitmapWeight m n =
    ((Finset.range n).filter (m.testBit · = false)).card := by
  have hlen := List.length_eq_countP_add_countP m.testBit (l := List.range n)
  have hcard : ((Finset.range n).filter (m.testBit · = false)).card =
      (List.range n).countP fun i => !m.testBit i := by
    rw [List.countP_eq_length_filter, ← List.toFinset_card_of_nodup (List.nodup_range.filter _)]
    congr 1
    ext i
    simp
  rw [List.length_range] at hlen
  rw [hcard, bitmapWeight]
  simp only [Bool.not_eq_true, Bool.decide_eq_false] at hlen
  omega

theorem buildFreeBnodeBitmap_spec {data : BitVec tree.bitsNum} (h : data.getLsbD 0 = true) :
    wp (buildFreeBnodeBitmap tree data) (fun _ s' => s'.BitmapOk tree)
      (fun _ s' => s.Unchanged s') False s := by
  refine wp_bind.mpr (wp_kmalloc (fun s₁ _ => ?_) fun _ h => h)
  obtain ⟨_, hle, hset, hclear⟩ := @findNextZeroBit_spec 0 data.toNat tree.bitsNum
  rw [Nat.zero_add] at hle hclear
  have hlt (i) (hi : data.toNat.testBit i = true) : i < tree.bitsNum := by
    by_contra hge
    rw [Nat.testBit_lt_two_pow (data.isLt.trans_le (Nat.pow_le_pow_right (by omega) (not_lt.mp hge)))]
      at hi
    cases hi
  exact {
    head  := h
    lt    := hlt
    count := bitmapWeight_eq
    least := fun i => hset i (Nat.zero_le i)
    clear := by
      by_cases hl : findNextZeroBit data.toNat tree.bitsNum 0 < tree.bitsNum
      case pos => exact hclear hl
      case neg => exact Bool.not_eq_true _ ▸ fun hb => hl (hlt _ hb) }

end Build

namespace Btree

theorem BitmapOk.of_env {v : BtreeEnv} (h : s.BitmapOk tree) : BitmapOk tree { s with env := v } :=
  Unchanged.of_env.bitmapOk h

-- When the counter is 0 there is no clear bit.
theorem BitmapOk.full (h : s.BitmapOk tree) (hf : s.freeNum = 0) :
    ∀ i < tree.bitsNum, s.bitmap.testBit i = true := by
  intro i hi
  rw [h.count, Finset.card_eq_zero] at hf
  have hn := Finset.eq_empty_iff_forall_notMem.mp hf i
  simpa [hi] using hn

theorem Live.of_env {v : BtreeEnv} (h : s.Live id) : Live { s with env := v } id :=
  ⟨h.ne_zero, h.used⟩

theorem IdStep.bitmapOk (h : s.BitmapOk tree) (hs : IdStep tree s call s') : s'.BitmapOk tree := by
  cases hs
  case alloc hr =>
    obtain ⟨hf, _, hu⟩ := wp_ok (allocNewBnode_spec h.of_env) hr
    exact hu.bitmapOk (h.of_env.taken hf)
  case allocFails hr        => exact (wp_error (allocNewBnode_spec h.of_env) hr).left.bitmapOk h.of_env
  case destroy hl hr        =>
    exact (wp_ok (destroyBnode_spec hl.of_env) hr).bitmapOk (h.of_env.given hl.of_env)
  case destroyFails hl hr   => exact (wp_error (destroyBnode_spec hl.of_env) hr).bitmapOk h.of_env

-- The counter and the lowest clear bit are right, and what the next call does.
structure IdsOk (tree : BtreeOps κ) (s : Btree κ ν) : Prop where
  count     : s.freeNum = ((Finset.range tree.bitsNum).filter (s.bitmap.testBit · = false)).card
  below     : ∀ i < s.firstFreeId, s.bitmap.testBit i = true
  first     : s.firstFreeId = tree.bitsNum ∨
    s.firstFreeId < tree.bitsNum ∧ s.bitmap.testBit s.firstFreeId = false
  refuses   : s.freeNum = 0 → ∀ i < tree.bitsNum, s.bitmap.testBit i = true
  no_bug    : ∀ v, allocNewBnode tree { s with env := v } ≠ .halt
  fresh     : ∀ v id s', allocNewBnode tree { s with env := v } = .ok id s' →
    id < tree.bitsNum ∧ s.bitmap.testBit id = false ∧
      ∀ i, s'.bitmap.testBit i = (s.bitmap.testBit i || decide (id = i))
  fails     : ∀ v e s', allocNewBnode tree { s with env := v } = .fail e s' → s.Unchanged s'
  destroys  : ∀ v id, s.Live id → destroyBnode tree id { s with env := v } ≠ .halt

theorem BitmapOk.idsOk (h : s.BitmapOk tree) : s.IdsOk tree where
  count   := h.count
  below   := h.least
  first   := by
    by_cases hf : s.freeNum = 0
    case neg => exact .inr ⟨h.exists_free hf, h.clear⟩
    case pos =>
      refine .inl (Nat.le_antisymm ?_ ?_)
      · exact Nat.le_of_not_lt fun hlt => Nat.lt_irrefl _ (h.lt _ (h.least _ hlt))
      · refine Nat.le_of_not_lt fun hlt => ?_
        have := h.full hf _ hlt
        rw [h.clear] at this
        cases this
  refuses := h.full
  no_bug v hr := by
    have := allocNewBnode_spec h.of_env (s := { s with env := v })
    simp [wp, hr] at this
  fresh v id s' hr := by
    obtain ⟨hf, he, hu⟩ := wp_ok (allocNewBnode_spec h.of_env) hr
    subst he
    refine ⟨h.exists_free hf, h.clear, fun i => ?_⟩
    rw [hu]
    exact @testBit_taken _ _ tree _ _
  fails v e s' hr := (wp_error (allocNewBnode_spec h.of_env) hr).left
  destroys v id hl hr := by
    have := @destroyBnode_spec _ _ tree _ _ (hl.of_env (v := v))
    simp [wp, hr] at this

end Btree

-- Whatever is allocated and destroyed, the counter and the lowest free id stay right.
theorem bnode_ids_of_run {s₀ : Btree κ ν} {data : BitVec tree.bitsNum} (hd : data.getLsbD 0 = true)
    (hb : buildFreeBnodeBitmap tree data s₀ = .ok () s) (hr : Run (Btree.IdStep tree) s calls s') :
    s'.IdsOk tree :=
  have h := wp_ok (buildFreeBnodeBitmap_spec hd) hb
  (hr.invariant (fun _ _ _ => Btree.IdStep.bitmapOk) h).idsOk

-- A tree with eight ids.
def eightIds : BtreeOps Nat where
  compFn a b      := a - b
  keyLen _        := 8
  nodeSizeBytes   := 4096
  maxRecordLen    := 16
  bitsNum         := 8
  isMountFinished := true
  node_size_ge    := pageNode_size_ge
  node_size_le    := pageNode_size_le
  record_len_le   := by decide

theorem bnode_ids_of_run_eightIds : ∃ s : Btree Nat Nat, s.firstFreeId = 2 ∧ s.IdsOk eightIds := by
  have hb : buildFreeBnodeBitmap eightIds 1#8 (⟨[], 0, 0, 0, 1, 1, ⟨0, []⟩⟩ : Btree Nat Nat) =
    .ok () ⟨[], 1, 1, 7, 1, 1, ⟨0, []⟩⟩ := rfl
  have h₁ : Btree.IdStep eightIds ⟨[], 1, 1, 7, 1, 1, ⟨0, []⟩⟩ (.alloc 1)
    (⟨[], 3, 2, 6, 1, 1, ⟨0, []⟩⟩ : Btree Nat Nat) := .alloc (v := ⟨0, []⟩) (by rfl)
  have h₂ : Btree.IdStep eightIds ⟨[], 3, 2, 6, 1, 1, ⟨0, []⟩⟩ (.allocFails .enomem)
    (⟨[], 3, 2, 6, 1, 1, ⟨0, []⟩⟩ : Btree Nat Nat) :=
    .allocFails (v := ⟨0, [none, some .enomem]⟩) (by rfl)
  exact ⟨_, rfl, bnode_ids_of_run (by decide) hb (.cons h₁ (.cons h₂ .nil))⟩

end Emmcfs
