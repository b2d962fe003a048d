import EmmcfsModel.Btree.Theorems.Ids
import EmmcfsModel.Btree.Theorems.Level

namespace Emmcfs

open Code

variable {tree : BtreeOps κ} {s s' : Btree κ ν} {key : κ} {r : BtreeRecord κ ν}

-- The way of the search for a key over `n` levels from the root down, the last node first.
inductive Btree.SearchPath (tree : BtreeOps κ) (s : Btree κ ν) (key : κ) :
    Nat → List (Nat × Nat) → Prop
  | nil : SearchPath tree s key 0 []
  | root : s.bitmap.testBit s.rootBnodeId = true ∨ s.rootBnodeId = 0 →
    searchBnode tree (s.bnode s.rootBnodeId).recs key = some pos →
    SearchPath tree s key 1 [(s.rootBnodeId, pos)]
  | child {r : BtreeRecord κ ν} : SearchPath tree s key n ((i, pos) :: path) →
    (s.bnode i).recs[pos]? = some r → s.bitmap.testBit r.nodeId = true →
    searchBnode tree (s.bnode r.nodeId).recs key = some pos' →
    SearchPath tree s key (n + 1) ((r.nodeId, pos') :: (i, pos) :: path)

-- There is only one way.
theorem Btree.SearchPath.unique {path' : List (Nat × Nat)} (h : s.SearchPath tree key n path)
    (h' : s.SearchPath tree key n path') : path = path' := by
  induction h generalizing path'
  case nil =>
    cases h'
    rfl
  case root hs =>
    cases h'
    case root hs' =>
      cases hs.symm.trans hs'
      rfl
    case child h' => cases h'
  case child h hr _ hs ih =>
    cases h'
    case root => cases h
    case child hr' _ hs' h' =>
      cases ih h'
      cases hr.symm.trans hr'
      cases hs.symm.trans hs'
      rfl

-- All requests that are left succeed.
def Btree.Steady (s : Btree κ ν) : Prop :=
  ∀ o ∈ s.env.outcomes, o = none

section Find

variable {E : Errno → Btree κ ν → Prop}

theorem getBnode_spec {n : Nat} : wp (getBnode n)
    (fun b s' => s.Requested s' ∧ b = s.bnode n ∧ (n = 0 ∨ s.bitmap.testBit n = true))
    (fun _ s' => s.Unchanged s') True s := by
  rw [getBnode, wp_bind, wp_get, wp_ite]
  refine ⟨fun _ => rfl, fun hb => wp_bind.mpr (wp_request (fun s' hs => ⟨hs, rfl, ?_⟩) fun _ _ => id)⟩
  by_cases h0 : n = 0
  case pos => exact .inl h0
  case neg => exact .inr (by simpa [h0] using hb)

theorem getRecord_spec {b : Bnode κ ν} {n : Nat} : wp (getRecord b n)
    (fun r s' => s' = s ∧ b.recs[n]? = some r) (fun _ s' => s.Unchanged s') True s := by
  rw [getRecord]
  cases h : b.recs[n]?
  case none   => exact rfl
  case some r => exact ⟨rfl, rfl⟩

theorem faultOrBug_unchanged {e : Errno} {Q : α → Btree κ ν → Prop} :
    wp (faultOrBug tree e) Q (fun _ s' => s.Unchanged s') True s := by
  rw [faultOrBug]
  split
  · trivial
  · exact rfl

theorem Btree.Unchanged.searchPath (h : s.Unchanged s') (hp : s.SearchPath tree key n path) :
    s'.SearchPath tree key n path := by
  rw [h]
  induction hp
  case nil                 => exact .nil
  case root hl hs          => exact .root hl hs
  case child hr hl hs ih   => exact .child ih hr hl hs

theorem findInBnode_spec {n : Nat} : wp (findInBnode tree key n)
    (fun p s' => s' = s ∧ p.1 = n ∧ searchBnode tree (s.bnode n).recs key = some p.2)
    (fun _ s' => s.Unchanged s') True s := by
  rw [findInBnode, wp_bind, wp_bnodeAt, wp_ite]
  refine ⟨fun _ => rfl, fun _ => ?_⟩
  cases h : searchBnode tree (s.bnode n).recs key
  case none     => trivial
  case some pos => exact ⟨rfl, rfl, rfl⟩

-- The node in which the search goes on.
theorem nextBnode_spec {path : List (Nat × Nat)} (h : s.SearchPath tree key n path) :
    wp (nextBnode tree path) (fun i s' => s.Requested s' ∧
      ∀ pos, searchBnode tree (s.bnode i).recs key = some pos →
        s.SearchPath tree key (n + 1) ((i, pos) :: path))
      (fun _ s' => s.Unchanged s') True s := by
  cases path
  case nil =>
    cases h
    rw [nextBnode, wp_bind, wp_get, wp_bind]
    refine wp_imp getBnode_spec ?_
    rintro _ s' ⟨hr, _, hl⟩
    exact ⟨hr, fun pos hp => .root hl.symm hp⟩
  case cons step path =>
    rw [nextBnode, wp_bind, wp_bnodeAt, wp_bind]
    refine wp_imp getRecord_spec ?_
    rintro r s' ⟨he, hr⟩
    subst he
    rw [getChildBnode, wp_ite]
    refine ⟨fun _ => faultOrBug_unchanged, fun h0 => wp_bind.mpr ?_⟩
    refine wp_imp getBnode_spec ?_
    rintro _ s' ⟨hreq, _, hl⟩
    exact ⟨hreq, fun pos hp => .child h hr (hl.resolve_left h0) hp⟩

theorem btreeFind_spec : wp (btreeFind tree key n)
    (fun path s' => s.Requested s' ∧ s.SearchPath tree key n path)
    (fun _ s' => s.Unchanged s') True s := by
  induction n
  case zero => exact ⟨.refl, .nil⟩
  case succ n ih =>
    refine wp_bind.mpr (wp_imp ih ?_)
    rintro path s₁ ⟨h₁, hp⟩
    have hback {s' : Btree κ ν} (h : s₁.Unchanged s') : s.Unchanged s' := h₁.unchanged.trans h
    refine wp_bind.mpr (wp_mono (nextBnode_spec (h₁.unchanged.searchPath hp)) ?_ (fun _ _ => hback) id)
    rintro i s₂ ⟨h₂, hnext⟩
    refine wp_bind.mpr (wp_mono findInBnode_spec ?_ (fun _ _ h => hback (h₂.unchanged.trans h)) id)
    rintro ⟨j, pos⟩ s₃ ⟨h₃, hj, hpos⟩
    subst h₃ hj
    rw [h₂.unchanged] at hpos
    exact ⟨h₁.trans h₂, h₁.unchanged.symm.searchPath (hnext pos hpos)⟩

theorem btreeFindLevel_spec : wp (btreeFindLevel tree key level)
    (fun p s' => s.Requested s' ∧
      s.SearchPath tree key (s.btreeHeight + 1 - level) (p.1 :: p.2))
    (fun _ s' => s.Unchanged s') True s := by
  rw [btreeFindLevel, wp_bind, wp_get, wp_bind]
  refine wp_imp btreeFind_spec ?_
  rintro path s' ⟨h, hp⟩
  cases path
  case nil  => trivial
  case cons => exact ⟨h, hp⟩

end Find

section Settles

-- A property that requests do not change, nor what happens to nodes as long as the free space of those
-- that are not `new` stays as it is.
structure Btree.Stable (new : List Nat) (P : Btree κ ν → Prop) : Prop where
  requested : ∀ s s', P s → s.Requested s' → P s'
  updated   : ∀ s i (f : Bnode κ ν → Bnode κ ν), P s → i ∈ new ∨ (∀ b, (f b).freeSpace = b.freeSpace) →
    P (s.setBnode i (f (s.bnode i)))

variable {P : Btree κ ν → Prop} {new : List Nat} {f : Bnode κ ν → Bnode κ ν}

namespace Btree.Stable

variable (h : Stable new P)

include h

theorem updateBnode (hf : i ∈ new ∨ ∀ b, (f b).freeSpace = b.freeSpace) :
    Settles P (updateBnode i f) :=
  .modify fun s hs => h.updated s i f hs hf

theorem getBnode_settles : Settles P (bugOnError (getBnode i)) :=
  fun s hs => wp_bugOnError.mpr (wp_mono getBnode_spec (fun _ _ hr => h.requested s _ hs hr.left)
    (fun _ _ _ => trivial) id)

theorem request_settles : Settles P (bugOnError request) :=
  fun s hs => wp_bugOnError.mpr (wp_request (h.requested s · hs) fun _ _ _ => trivial)

theorem setNextOf_settles : Settles P (setNextOf i j) :=
  .ite .pure (.bind h.getBnode_settles fun _ => h.updateBnode (.inr fun _ => rfl))

theorem setPrevOf_settles : Settles P (setPrevOf i j) :=
  .ite .pure (.bind h.getBnode_settles fun _ => h.updateBnode (.inr fun _ => rfl))

theorem setNodeId_settles : Settles P (setNodeId i index n) :=
  h.updateBnode (.inr fun _ => rfl)

theorem insertIntoNode_settles (hi : i ∈ new) : Settles P (insertIntoNode i r pos) :=
  .bind .gets fun _ => .bind .haltOn fun _ => .bind .haltOn fun _ => h.updateBnode (.inl hi)

theorem splitRecords_settles (h₁ : i ∈ new) (h₂ : j ∈ new) :
    Settles P (splitRecords tree i j used part recs) := by
  induction recs generalizing used part
  case nil => exact .pure
  case cons r recs ih =>
    refine .bind .gets fun _ => .bind ?_ fun _ => ih
    cases part
    case false => exact h.insertIntoNode_settles h₁
    case true  => exact h.insertIntoNode_settles h₂

theorem splitNode_settles (h₁ : i ∈ new) (h₂ : j ∈ new) :
    Settles P (splitNode tree n k r i j) :=
  .bind .gets fun _ => .bind (h.updateBnode (.inl h₁)) fun _ =>
    .bind (h.updateBnode (.inl h₂)) fun _ =>
    .bind (.bind .gets fun _ => .bind (h.updateBnode (.inr fun _ => rfl)) fun _ =>
      .bind (h.updateBnode (.inr fun _ => rfl)) fun _ =>
      .bind h.setNextOf_settles fun _ => h.setPrevOf_settles) fun _ =>
    .bind .gets fun _ => .bind .haltOn fun _ => h.splitRecords_settles h₁ h₂

end Btree.Stable

theorem Btree.Stable.trivial : Btree.Stable new fun _ : Btree κ ν => True :=
  ⟨fun _ _ _ _ => True.intro, fun _ _ _ _ _ => True.intro⟩

end Settles

theorem Btree.Unchanged.upper (h : s.Unchanged s') (hu : s.Upper tree level levels recs) :
    s'.Upper tree level levels recs := by
  have hroot : s'.rootBnodeId = s.rootBnodeId := by rw [h]
  have hnode (i) : s'.bnode i = s.bnode i := by rw [h]; rfl
  have hlive {i} (hl : s.Live i) : s'.Live i := hl.congr (by rw [h])
  exact {
    shape  := hu.shape.congr (fun i hi => hlive (hu.shape.live i hi)) (fun i _ => hnode i) hroot
    nodup  := hu.nodup
    bitmap := h.bitmapOk hu.bitmap
    height := by rw [hu.height, h] }

end Emmcfs
