import EmmcfsModel.Btree.Theorems.FailedRemove

namespace Emmcfs

open Code

variable {tree : BtreeOps κ} {s s' : Btree κ ν} {key : κ} {r : BtreeRecord κ ν}

-- The bitmap tells what the counter and the lowest free id are.
theorem Btree.BitmapOk.eq_of_bitmap (h : s.BitmapOk tree) (h' : s'.BitmapOk tree)
    (he : s'.bitmap = s.bitmap) : s'.firstFreeId = s.firstFreeId ∧ s'.freeNum = s.freeNum := by
  refine ⟨?_, by rw [h.count, h'.count, he]⟩
  rcases Nat.lt_trichotomy s'.firstFreeId s.firstFreeId with hlt | heq | hlt
  · have := h.least _ hlt
    rw [← he, h'.clear] at this
    cases this
  · exact heq
  · have := h'.least _ hlt
    rw [he, h.clear] at this
    cases this

-- After a node has been taken into use and given back everything is as before.
theorem Btree.given_taken (h : s.BitmapOk tree) (hf : s.freeNum ≠ 0) :
    (s.taken tree).given s.firstFreeId = s := by
  have hbits : ((s.taken tree).given s.firstFreeId).bitmap = s.bitmap := by
    refine Nat.eq_of_testBit_eq fun i => ?_
    rw [testBit_given, testBit_taken]
    by_cases hi : s.firstFreeId = i
    case pos => simp [← hi, h.clear]
    case neg => simp [hi]
  have hlive : (s.taken tree).Live s.firstFreeId := (live_taken_iff h).mpr (.inr rfl)
  obtain ⟨hfirst, hnum⟩ := h.eq_of_bitmap ((h.taken hf).given hlive) hbits
  obtain ⟨bnodes, bitmap, firstFreeId, freeNum, rootBnodeId, btreeHeight, env⟩ := s
  simp only [given, taken] at hbits hfirst hnum ⊢
  rw [hbits, hfirst, hnum]

-- Two nodes that were not in use, or nothing has changed.
theorem allocPair_spec (h : s.BitmapOk tree) : wp (allocPair tree)
    (fun p s' => s.bitmap.testBit p.1 = false ∧ s.bitmap.testBit p.2 = false ∧
      ∀ i, s'.bnode i = s.bnode i) (fun _ s' => s.Unchanged s') True s := by
  refine wp_bind.mpr (wp_onFail.mpr (wp_mono (allocNewBnode_spec h) ?_ (fun _ _ h => h.left)
    False.elim))
  rintro i s₁ ⟨hf, hi, h₁⟩
  subst hi
  have hb₁ := h₁.bitmapOk (h.taken hf)
  have hbit (i) : s₁.bitmap.testBit i = (s.bitmap.testBit i || decide (s.firstFreeId = i)) := by
    rw [h₁]
    exact @Btree.testBit_taken _ _ tree _ _
  refine wp_bind.mpr (wp_onFail.mpr (wp_mono (allocNewBnode_spec hb₁) ?_ ?_ False.elim))
  case refine_1 =>
    rintro j s₂ ⟨_, hj, h₂⟩
    subst hj
    have hclear := hb₁.clear
    rw [hbit, Bool.or_eq_false_iff] at hclear
    refine ⟨h.clear, hclear.left, fun i => ?_⟩
    rw [h₂, h₁]
    rfl
  case refine_2 =>
    rintro e s₂ ⟨h₂, _⟩
    have hlive : s₂.Live s.firstFreeId := by
      have hl : (s.taken tree).Live s.firstFreeId := (Btree.live_taken_iff h).mpr (.inr rfl)
      exact hl.congr (by rw [h₂, h₁])
    refine wp_bind.mpr (wp_bugOnError.mpr (wp_mono (destroyBnode_spec hlive) ?_
      (fun _ _ _ => trivial) False.elim))
    intro _ s₃ h₃
    have hgiven : ((s.taken tree).given s.firstFreeId).Unchanged (s₂.given s.firstFreeId) := by
      rw [h₂, h₁]
      rfl
    rw [Btree.given_taken h hf] at hgiven
    exact hgiven.trans h₃

theorem formNewAddingRecord_spec : wp (formNewAddingRecord tree i)
    (fun r s' => s' = s ∧ r.recordLen = tree.keyLen r.key + sizeofIndexValue) (fun _ _ => False)
    True s := by
  rw [formNewAddingRecord, wp_bind, wp_bnodeAt]
  cases (s.bnode i).recs[0]?
  case none   => trivial
  case some r => exact wp_bind.mpr (wp_haltOn.mpr ⟨fun _ => trivial, fun _ => ⟨rfl, rfl⟩⟩)

theorem updateRootDescriptor_settles : Settles (fun _ => True)
    (updateRootDescriptor tree i r r' n : BtreeCode κ ν Unit) :=
  have h : Btree.Stable [i] fun _ : Btree κ ν => True := .trivial
  .bind (h.updateBnode (.inl (.head _))) fun _ => .bind (h.insertIntoNode_settles (.head _)) fun _ =>
    .bind (h.insertIntoNode_settles (.head _)) fun _ => .bind h.setNodeId_settles fun _ =>
    .bind (.bind h.request_settles fun _ => .modify fun _ => id) fun _ =>
    .bind h.request_settles fun _ => .modify fun _ => id

theorem insertIntoNode_never_fails :
    wp (insertIntoNode i r n) (fun _ _ => True) (fun _ _ => False) True s :=
  have h : Btree.Stable [i] fun _ : Btree κ ν => True := .trivial
  h.insertIntoNode_settles (.head _) s trivial

-- So many nodes can be taken into use.
structure Btree.Ample (n : Nat) (s : Btree κ ν) : Prop where
  ids    : n ≤ s.freeNum
  steady : s.Steady

theorem Btree.Requested.ample (h : s.Requested s') (ha : s.Ample n) : s'.Ample n where
  ids      := by rw [h.unchanged]; exact ha.ids
  steady o ho := ha.steady o (h.outcomes.subset ho)

theorem Btree.Stable.ample : Btree.Stable new fun s : Btree κ ν => s.Ample n :=
  ⟨fun _ _ ha hr => hr.ample ha, fun _ _ _ ha _ => ⟨ha.ids, ha.steady⟩⟩

theorem Btree.Steady.request (h : s.Steady) :
    wp request (fun _ s' => s.Requested s') (fun _ _ => False) True s := by
  rw [Emmcfs.request, wp_bind, wp_get]
  cases ho : s.env.outcomes
  case nil => exact .refl
  case cons o outcomes =>
    have hn := h o (by rw [ho]; exact .head _)
    subst hn
    exact ⟨rfl, ho ▸ List.suffix_cons ..⟩

theorem allocNewBnode_ample (h : s.Ample (n + 1)) :
    wp (allocNewBnode tree) (fun _ s' => s'.Ample n) (fun _ _ => False) True s := by
  have hids := h.ids
  rw [allocNewBnode, wp_bind, wp_get, wp_ite]
  refine ⟨fun h0 => by omega, fun _ => wp_bind.mpr ?_⟩
  refine wp_imp h.steady.request (fun _ s₁ h₁ => ?_)
  have ha₁ := h₁.ample h
  refine wp_bind.mpr (wp_haltOn.mpr ⟨fun _ => trivial, fun _ => ?_⟩)
  have hs₂ : Btree.Steady { s₁ with bitmap := s₁.bitmap ||| 1 <<< s.firstFreeId } := ha₁.steady
  refine wp_bind.mpr (wp_bind.mpr (wp_onFail.mpr (wp_mono hs₂.request (fun _ s₃ h₃ => ?_)
    (fun _ _ => False.elim) id)))
  have ha₃ := h₃.ample (n := n + 1) ⟨ha₁.ids, hs₂⟩
  exact ⟨Nat.le_sub_of_add_le ha₃.ids, ha₃.steady⟩

theorem allocPair_ample (h : s.Ample (n + 2)) :
    wp (allocPair tree) (fun _ s' => s'.Ample n) (fun _ _ => False) True s := by
  refine wp_bind.mpr (wp_onFail.mpr (wp_mono (allocNewBnode_ample h) (fun _ s₁ h₁ => ?_)
    (fun _ _ => False.elim) id))
  exact wp_bind.mpr (wp_onFail.mpr (wp_mono (allocNewBnode_ample h₁) (fun _ s₂ h₂ => h₂)
    (fun _ _ => False.elim) id))

theorem destroyBnode_ample (h : s.Ample n) :
    wp (bugOnError (destroyBnode tree i)) (fun _ s' => s'.Ample (n + 1)) (fun _ _ => False) True
      s := by
  refine wp_bugOnError.mpr (wp_bind.mpr (wp_haltOn.mpr ⟨fun _ => trivial, fun _ => wp_bind.mpr ?_⟩))
  refine wp_mono h.steady.request (fun _ s₁ h₁ => ?_) (fun _ _ _ => trivial) id
  have ha := h₁.ample h
  refine wp_bind.mpr (wp_ite.mpr ⟨fun _ => ?_, fun _ => ⟨Nat.succ_le_succ ha.ids, ha.steady⟩⟩)
  rw [faultOrBug]
  split <;> trivial

theorem checkReserveAt_ample (h : s.Ample n) :
    wp (checkReserveAt tree level) (fun _ s' => s'.Ample n) (fun _ _ => False) True s := by
  refine wp_ite.mpr ⟨fun _ => ?_, fun _ => h⟩
  refine wp_bind.mpr (wp_ite.mpr ⟨fun _ => h, fun _ => ?_⟩)
  exact wp_imp h.steady.request (fun _ _ hr => hr.ample h)

-- With enough nodes no level fails.
theorem insertLoop_ample (h : s.Ample (path.length + 1)) :
    wp (insertLoop tree path level r c) (fun _ _ => True) (fun _ _ => False) True s := by
  induction path generalizing s level r c
  case nil => trivial
  case cons step path ih =>
    obtain ⟨i, index⟩ := step
    have hset : wp (changeNodeId i index c) (fun _ s' => s'.Ample (path.length + 2)) (fun _ _ => False) True s := by
      cases c
      case none   => exact h
      case some n => exact Btree.Stable.setNodeId_settles (Btree.Stable.ample : Btree.Stable [] _) s h
    refine wp_bind.mpr (wp_imp hset (fun _ s₁ h₁ => ?_))
    refine wp_bind.mpr (wp_ite.mpr ⟨fun _ => wp_bind.mpr ?_, fun _ => ?_⟩)
    case refine_2 => exact insertIntoNode_never_fails
    case refine_1 =>
      refine wp_imp (checkReserveAt_ample h₁) (fun _ s₂ h₂ => ?_)
      refine wp_bind.mpr (wp_imp (allocPair_ample h₂) (fun p s₃ h₃ => ?_))
      have hstable : Btree.Stable [p.1, p.2] fun s : Btree κ ν => s.Ample path.length := .ample
      refine wp_bind.mpr (wp_imp (hstable.splitNode_settles (.head _) (.tail _ (.head _)) s₃ h₃)
        (fun _ s₄ h₄ => ?_))
      refine wp_bind.mpr (wp_imp (formNewAddingRecord_spec) (fun second s₅ h₅ => ?_))
      obtain ⟨rfl, _⟩ := h₅
      refine wp_bind.mpr (wp_ite.mpr ⟨fun _ => wp_bind.mpr ?_, fun _ => wp_bind.mpr ?_⟩)
      case refine_1 =>
        refine wp_imp formNewAddingRecord_spec (fun first s₆ h₆ => ?_)
        exact updateRootDescriptor_settles s₆ trivial
      case refine_2 =>
        refine wp_imp (destroyBnode_ample h₄) (fun _ s₆ h₆ => ?_)
        exact ih h₆

-- A node with room for an index record of any key.
def Bnode.HasRoom (tree : BtreeOps κ) (b : Bnode κ ν) : Prop :=
  ∀ key, tree.keyLen key + sizeofIndexValue + sizeofBtOff ≤ b.freeSpace

theorem insertLoop_room (hr : r.recordLen = tree.keyLen r.key + sizeofIndexValue)
    (h : (s.bnode i).HasRoom tree) :
    wp (insertLoop tree ((i, index) :: path) level r (some n)) (fun _ _ => True) (fun _ _ => False)
      True s := by
  have hroom := h r.key
  rw [insertLoop, changeNodeId, setNodeId, wp_bind, wp_updateBnode, wp_bind, wp_bnodeAt, wp_ite,
    Btree.bnode_setBnode_self]
  refine ⟨fun hfull => ?_, fun _ => insertIntoNode_never_fails⟩
  have hfull : (s.bnode i).freeSpace < r.recordLen + sizeofBtOff := hfull
  omega

-- The nodes of a way are in use.
theorem Btree.SearchPath.used (h : s.SearchPath tree key n path) (hb : s.BitmapOk tree)
    (hp : (i, pos) ∈ path) : s.bitmap.testBit i = true := by
  induction h
  case nil => cases hp
  case root hl _ =>
    cases List.mem_singleton.mp hp
    exact hl.elim id fun h0 => h0 ▸ hb.head
  case child hl _ ih =>
    cases hp
    case head    => exact hl
    case tail hp => exact ih hp

theorem Btree.SearchPath.length (h : s.SearchPath tree key n path) : path.length = n := by
  induction h
  case nil           => rfl
  case root          => rfl
  case child ih      => rw [List.length_cons, ih]

theorem Btree.Stable.hasRoom (hn : p ∉ new) :
    Btree.Stable new fun s : Btree κ ν => (s.bnode p).HasRoom tree where
  requested s s' hs hr := by
    rw [hr.unchanged]
    exact hs
  updated s i f hs hf  := by
    by_cases hi : p = i
    case neg => rwa [bnode_setBnode_of_ne hi]
    case pos =>
      subst hi
      rw [bnode_setBnode_self]
      intro key
      rw [hf.resolve_left hn]
      exact hs key

-- The node above the leaf has room, or there is none.
def Btree.RoomAbove (tree : BtreeOps κ) (s : Btree κ ν) : List (Nat × Nat) → Prop
  | []               => True
  | (parent, _) :: _ => (s.bnode parent).HasRoom tree

theorem Btree.Stable.roomAbove (h : ∀ p ∈ path, p.1 ∉ new) :
    Btree.Stable new fun s : Btree κ ν => s.RoomAbove tree path := by
  cases path
  case nil  => exact .trivial
  case cons => exact .hasRoom (h _ (.head _))

theorem Btree.RoomAbove.congr (h : s.RoomAbove tree path) (hn : ∀ i, s'.bnode i = s.bnode i) :
    s'.RoomAbove tree path := by
  cases path
  case nil  => trivial
  case cons => rwa [RoomAbove, hn]

theorem destroyBnode_bnodes : wp (bugOnError (destroyBnode tree i))
    (fun _ s' => ∀ j, s'.bnode j = s.bnode j) (fun _ _ => False) True s := by
  refine wp_bugOnError.mpr (wp_bind.mpr (wp_haltOn.mpr ⟨fun _ => trivial, fun _ => wp_bind.mpr ?_⟩))
  refine wp_request (fun s₁ h₁ => ?_) fun _ _ _ => trivial
  refine wp_bind.mpr (wp_ite.mpr ⟨fun _ => ?_, fun _ j => ?_⟩)
  case refine_1 =>
    rw [faultOrBug]
    split <;> trivial
  case refine_2 =>
    rw [h₁.unchanged]
    rfl

theorem insertLoop_roomAbove (hr : r.recordLen = tree.keyLen r.key + sizeofIndexValue)
    (h : s.RoomAbove tree path) :
    wp (insertLoop tree path level r (some n)) (fun _ _ => True) (fun _ _ => False) True s := by
  cases path
  case nil  => trivial
  case cons => exact insertLoop_room hr h

theorem checkReserveAt_spec : wp (checkReserveAt tree level) (fun _ s' => s.Requested s')
    (fun _ s' => s.Unchanged s') True s := by
  refine wp_ite.mpr ⟨fun _ => ?_, fun _ => .refl⟩
  exact wp_bind.mpr (wp_ite.mpr ⟨fun _ => .refl, fun _ => wp_request (fun _ h => h) fun _ _ h => h⟩)

-- A full leaf is split, and nothing has changed if that fails.
theorem insertLoop_leaf (hb : s.BitmapOk tree)
    (hp : s.SearchPath tree key n ((i, index) :: path))
    (hc : ¬isNodeFull (s.bnode i) r ∨ s.RoomAbove tree path) :
    wp (insertLoop tree ((i, index) :: path) 1 r none) (fun _ _ => True) (fun _ s' => s.Unchanged s')
      True s := by
  refine wp_bind.mpr (wp_bind.mpr (wp_ite.mpr ⟨fun hfull => wp_bind.mpr ?_, fun _ => ?_⟩))
  case refine_2 => exact wp_mono insertIntoNode_never_fails (fun _ _ => id) (fun _ _ => False.elim) id
  case refine_1 =>
    have hroom := hc.resolve_left (not_not.mpr hfull)
    refine wp_imp checkReserveAt_spec (fun _ s₁ h₁ => ?_)
    have hb₁ := h₁.unchanged.bitmapOk hb
    refine wp_bind.mpr (wp_mono (allocPair_spec hb₁) ?_ (fun _ _ h => h₁.unchanged.trans h) id)
    rintro p s₂ ⟨hc₁, hc₂, hnodes⟩
    refine wp_mono (Q := fun _ _ => True) (E := fun _ _ => False) (H := True) ?_
      (fun _ _ => id) (fun _ _ => False.elim) id
    have hfresh : ∀ q ∈ path, q.1 ∉ [p.1, p.2] := by
      intro q hq hm
      have hu := (h₁.unchanged.searchPath hp).used hb₁ (.tail _ hq)
      simp only [List.mem_cons, List.not_mem_nil, or_false] at hm
      rcases hm with he | he
      · rw [he, hc₁] at hu
        cases hu
      · rw [he, hc₂] at hu
        cases hu
    have hstable : Btree.Stable [p.1, p.2] fun s : Btree κ ν => s.RoomAbove tree path :=
      .roomAbove hfresh
    have h₂ : s₂.RoomAbove tree path := hroom.congr fun j => by
      rw [hnodes, h₁.unchanged]
      rfl
    refine wp_bind.mpr (wp_imp (hstable.splitNode_settles (.head _) (.tail _ (.head _)) s₂ h₂)
      (fun _ s₃ h₃ => ?_))
    refine wp_bind.mpr (wp_imp formNewAddingRecord_spec (fun second s₄ h₄ => ?_))
    obtain ⟨rfl, hlen⟩ := h₄
    refine wp_bind.mpr (wp_ite.mpr ⟨fun _ => wp_bind.mpr ?_, fun _ => wp_bind.mpr ?_⟩)
    case refine_1 =>
      refine wp_imp formNewAddingRecord_spec (fun first s₅ _ => ?_)
      exact updateRootDescriptor_settles s₅ trivial
    case refine_2 =>
      refine wp_imp destroyBnode_bnodes (fun _ s₅ h₅ => ?_)
      exact insertLoop_roomAbove hlen (h₃.congr h₅)

-- Where the search for the key of a record ends, the leaf has room for it, or the node above the leaf
-- has room for an index record, or there are more free nodes than levels and no request fails.
def Btree.InsertsSafely (tree : BtreeOps κ) (s : Btree κ ν) (r : BtreeRecord κ ν) : Prop :=
  ∀ i pos path, s.SearchPath tree r.key s.btreeHeight ((i, pos) :: path) →
    ¬isNodeFull (s.bnode i) r ∨ s.RoomAbove tree path ∨ s.Ample (s.btreeHeight + 1)

theorem insertLoop_fails (hb : s.BitmapOk tree) (hr : s.Requested s')
    (hp : s.SearchPath tree key s.btreeHeight ((i, pos) :: path))
    (hc : ¬isNodeFull (s.bnode i) r ∨ s.RoomAbove tree path ∨ s.Ample (s.btreeHeight + 1)) :
    wp (insertLoop tree ((i, pos) :: path) 1 r none) (fun _ _ => True) (fun _ s' => s.Unchanged s')
      True s' := by
  have hnode (j) : s'.bnode j = s.bnode j := by
    rw [hr.unchanged]
    rfl
  have hleaf (h : ¬isNodeFull (s'.bnode i) r ∨ s'.RoomAbove tree path) :
      wp (insertLoop tree ((i, pos) :: path) 1 r none) (fun _ _ => True)
        (fun _ s' => s.Unchanged s') True s' :=
    wp_mono (insertLoop_leaf (hr.unchanged.bitmapOk hb) (hr.unchanged.searchPath hp) h)
      (fun _ _ => id) (fun _ _ h => hr.unchanged.trans h) id
  rcases hc with hc | hc | hc
  · exact hleaf (.inl (by rwa [hnode]))
  · exact hleaf (.inr (hc.congr hnode))
  · have ha := hr.ample hc
    rw [← hp.length] at ha
    exact wp_mono (insertLoop_ample ha) (fun _ _ => id) (fun _ _ => False.elim) id

theorem btreeInsert_fails (hb : s.BitmapOk tree) (hc : s.InsertsSafely tree r) :
    wp (emmcfsBtreeInsert tree r) (fun _ _ => True) (fun _ s' => s.Unchanged s') True s := by
  refine wp_bind.mpr (wp_kmalloc (fun s₁ h₁ => ?_) fun _ h => h)
  refine wp_bind.mpr (wp_mono btreeFindLevel_spec ?_ (fun _ _ h => h₁.unchanged.trans h) id)
  rintro ⟨⟨i, pos⟩, path⟩ s₂ ⟨h₂, hp⟩
  have hr₂ := h₁.trans h₂
  refine wp_bind.mpr (wp_bind.mpr (wp_mono getRecord_spec ?_ (fun _ _ h => hr₂.unchanged.trans h) id))
  rintro record s₃ ⟨he, _⟩
  subst he
  refine wp_ite.mpr ⟨fun _ => hr₂.unchanged, fun _ => wp_bind.mpr ?_⟩
  refine wp_kmalloc (fun s₄ h₄ => wp_bind.mpr ?_) fun _ h => hr₂.unchanged.trans h
  have hr₄ := hr₂.trans h₄
  refine wp_kmalloc (fun s₅ h₅ => ?_) fun _ h => hr₄.unchanged.trans h
  have hheight : s₁.btreeHeight + 1 - 1 = s.btreeHeight := by
    rw [h₁.unchanged]
    rfl
  have hp := h₁.unchanged.symm.searchPath (hheight ▸ hp)
  exact wp_bind.mpr (wp_haltOn.mpr ⟨fun _ => trivial, fun _ =>
    insertLoop_fails hb (hr₄.trans h₅) hp (hc i pos path hp)⟩)

-- An extents tree with a full root over 113 leaves, the first of which is full too. The file has
-- blocks for all nodes that an insertion may need, and the fifteenth request of the next call fails.
def fullLeaf : List (BtreeRecord ExttreeKey (Option ExtentInfo)) :=
  (List.range 92).map fun j => leafRecord ⟨10, j⟩ (1000 + j)

def smallLeaves : List (Nat × BtreeRecord ExttreeKey (Option ExtentInfo)) :=
  (List.range 112).map fun j => (j + 3, leafRecord ⟨j + 11, 0⟩ (2000 + j))

@[irreducible]
def fullLeaves : Btree ExttreeKey (Option ExtentInfo) where
  bnodes      :=
    (1, ⟨.index, nodeRecord ⟨10, 0⟩ 2 :: smallLeaves.map fun p => nodeRecord p.2.key p.1,
      4069 - 113 * 36, 0, 0⟩) ::
    (2, ⟨.leaf, fullLeaf, 4069 - 92 * 44, 0, 3⟩) ::
    smallLeaves.map fun p =>
      (p.1, ⟨.leaf, [p.2], 4069 - 44, p.1 - 1, if p.1 = 114 then 0 else p.1 + 1⟩)
  bitmap      := 2 ^ 115 - 1
  firstFreeId := 115
  freeNum     := 32640 - 115
  rootBnodeId := 1
  btreeHeight := 2
  env         := ⟨936, List.replicate 14 none ++ [some .enospc]⟩

theorem fullLeaves_upper : fullLeaves.Upper (extTree true) 1 [2 :: smallLeaves.map Prod.fst, [1]]
    (fullLeaf ++ smallLeaves.map Prod.snd) where
  shape  := by decide +kernel
  nodup  := by decide +kernel
  bitmap := .of_ones (k := 115) (by decide) (by decide +kernel) (by decide +kernel) (by decide +kernel)
  height := by decide +kernel

end Emmcfs
