import EmmcfsModel.Btree.Theorems.Bnode

namespace Emmcfs

open Code

variable {tree : BtreeOps κ} {s s' : Btree κ ν} {id i : Nat}
variable {Q : α → Btree κ ν → Prop} {E : Errno → Btree κ ν → Prop} {H : Prop}

section Access

@[simp]
theorem wp_bnodeAt {Q : Bnode κ ν → Btree κ ν → Prop} :
    wp (bnodeAt id) Q E H s ↔ Q (s.bnode id) s := .rfl

@[simp]
theorem wp_updateBnode {f : Bnode κ ν → Bnode κ ν} {Q : Unit → Btree κ ν → Prop} :
    wp (updateBnode id f) Q E H s ↔ Q () (s.setBnode id (f (s.bnode id))) := .rfl

@[simp]
theorem wp_bugOnError {m : BtreeCode κ ν α} :
    wp (bugOnError m) Q E H s ↔ wp m Q (fun _ _ => H) H s := by
  rw [bugOnError, wp_onFail]
  rfl

theorem wp_request_of {Q : Unit → Btree κ ν → Prop} (h : s.Calm) :
    wp request Q E H s ↔ Q () s := by
  rw [request, wp_bind, wp_get, show s.env.outcomes = [] from h]
  rfl

theorem wp_getBnode {Q : Bnode κ ν → Btree κ ν → Prop} (hc : s.Calm) (h : s.Live id) :
    wp (getBnode id) Q E H s ↔ Q (s.bnode id) s := by
  simp [getBnode, h.used, wp_request_of hc]

theorem wp_allocNewBnode {Q : Nat → Btree κ ν → Prop} (hc : s.Calm) (h : s.BitmapOk tree) :
    wp (allocNewBnode tree) Q E H s ↔
      (s.freeNum = 0 → E .enospc s) ∧ (s.freeNum ≠ 0 → Q s.firstFreeId (s.taken tree)) := by
  have hc' : Btree.Calm { s with bitmap := s.bitmap ||| 1 <<< s.firstFreeId } := hc
  simp [allocNewBnode, h.clear, wp_request_of hc, wp_request_of hc', Btree.taken]

theorem wp_destroyBnode {Q : Unit → Btree κ ν → Prop} (hc : s.Calm) (h : s.Live id) :
    wp (destroyBnode tree id) Q E H s ↔ Q () (s.given id) := by
  simp [destroyBnode, h.ne_zero, h.used, wp_request_of hc, Btree.given]

theorem wp_getRecord {b : Bnode κ ν} {Q : BtreeRecord κ ν → Btree κ ν → Prop}
    (h : b.recs[pos]? = some r) : wp (getRecord b pos) Q E H s ↔ Q r s := by
  rw [getRecord, h, wp_pure]

theorem wp_getChildBnode {r : BtreeRecord κ ν} {Q : Nat → Btree κ ν → Prop} (hc : s.Calm)
    (h : s.Live r.nodeId) : wp (getChildBnode tree r) Q E H s ↔ Q r.nodeId s := by
  rw [getChildBnode, if_neg h.ne_zero, wp_bind, wp_getBnode hc h, wp_pure]

end Access

-- The bytes of a node for records and their offsets.
def BtreeOps.capacity (tree : BtreeOps κ) : Nat :=
  tree.nodeSizeBytes - sizeofNodeDescr - sizeofBtOff - bnodeFirstOffset

theorem BtreeOps.capacity_eq : tree.capacity + 27 = tree.nodeSizeBytes := by
  have := tree.node_size_ge
  simp only [BtreeOps.capacity, sizeofNodeDescr, sizeofBtOff, bnodeFirstOffset]
  omega

theorem BtreeOps.u16_capacity (tree : BtreeOps κ) :
    u16 (tree.nodeSizeBytes - sizeofNodeDescr - sizeofBtOff - bnodeFirstOffset) = tree.capacity := by
  have := tree.capacity_eq
  have := tree.node_size_le
  exact Nat.mod_eq_of_lt (show tree.capacity < _ by omega)

-- A record, and the index record for its key, of a length that the tree allows.
@[mk_iff]
structure BtreeRecord.Short (tree : BtreeOps κ) (r : BtreeRecord κ ν) : Prop where
  record : r.recordLen ≤ tree.maxRecordLen
  index  : tree.keyLen r.key + sizeofIndexValue ≤ tree.maxRecordLen

instance {r : BtreeRecord κ ν} : Decidable (r.Short tree) :=
  decidable_of_iff' _ (BtreeRecord.short_iff ..)

section UsedSpace

variable {recs recs' : List (BtreeRecord κ ν)}

@[simp]
theorem usedSpace_nil : usedSpace ([] : List (BtreeRecord κ ν)) = 0 := rfl

@[simp]
theorem usedSpace_cons : usedSpace (r :: recs) = r.recordLen + sizeofBtOff + usedSpace recs := by
  simp [usedSpace]

@[simp]
theorem usedSpace_append : usedSpace (recs ++ recs') = usedSpace recs + usedSpace recs' := by
  simp [usedSpace]

theorem usedSpace_le (h : ∀ r ∈ recs, r.Short tree) :
    usedSpace recs ≤ recs.length * (tree.maxRecordLen + sizeofBtOff) := by
  induction recs
  case nil => simp
  case cons r recs ih =>
    have hr := (h r (by simp)).record
    have := ih fun r hr => h r (by simp [hr])
    rw [usedSpace_cons, List.length_cons, Nat.succ_mul]
    omega

theorem lt_length_of_usedSpace (h : ∀ r ∈ recs, r.Short tree)
    (hn : n * (tree.maxRecordLen + sizeofBtOff) < usedSpace recs) : n < recs.length := by
  by_contra hle
  have := Nat.mul_le_mul_right (tree.maxRecordLen + sizeofBtOff) (Nat.not_lt.mp hle)
  have := usedSpace_le h
  omega

end UsedSpace

-- A node as it is between two calls.
@[mk_iff]
structure Bnode.Fits (tree : BtreeOps κ) (b : Bnode κ ν) : Prop where
  nonempty : b.recs ≠ []
  space    : b.freeSpace + usedSpace b.recs = tree.capacity
  short    : ∀ r ∈ b.recs, r.Short tree

instance {b : Bnode κ ν} : Decidable (b.Fits tree) :=
  decidable_of_iff' _ (Bnode.fits_iff ..)

-- The same node with more records behind the ones it has, or with one record more or less.
def Bnode.extend (b : Bnode κ ν) (recs : List (BtreeRecord κ ν)) : Bnode κ ν :=
  { b with recs := b.recs ++ recs, freeSpace := b.freeSpace - usedSpace recs }

section Change

variable {b : Bnode κ ν} {r : BtreeRecord κ ν} {before behind : List (BtreeRecord κ ν)}
  {Q : Unit → Btree κ ν → Prop}

theorem freeSpace_lt (h : b.freeSpace + usedSpace b.recs = tree.capacity) :
    b.freeSpace < 2 ^ 16 := by
  have := tree.capacity_eq
  have := tree.node_size_le
  omega

theorem wp_insertIntoNode (hb : s.bnode id = b) (hr : b.recs = before ++ behind)
    (hs : b.freeSpace + usedSpace b.recs = tree.capacity)
    (hf : r.recordLen + sizeofBtOff ≤ b.freeSpace) :
    wp (insertIntoNode id r before.length) Q E H s ↔ Q () (s.setBnode id { b with
      recs := before ++ r :: behind, freeSpace := b.freeSpace - (r.recordLen + sizeofBtOff) }) := by
  have hlt := freeSpace_lt hs
  have hu : u16 (b.freeSpace + 2 ^ 16 - (r.recordLen + sizeofBtOff)) =
      b.freeSpace - (r.recordLen + sizeofBtOff) := by
    rw [u16]
    omega
  have h₁ : ¬b.freeSpace < r.recordLen := by omega
  have h₂ : ¬b.freeSpace < sizeofBtOff := by omega
  simp only [insertIntoNode, wp_bind, wp_bnodeAt, hb, wp_haltOn, h₁, h₂, not_false_eq_true,
    false_imp_iff, true_imp_iff, true_and, wp_updateBnode, hr, List.take_left', List.drop_left', hu]

theorem wp_deleteFromNode (hb : s.bnode id = b) (hr : b.recs = before ++ r :: behind)
    (hs : b.freeSpace + usedSpace b.recs = tree.capacity) :
    wp (deleteFromNode tree id before.length) Q E H s ↔ Q () (s.setBnode id { b with
      recs := before ++ behind, freeSpace := b.freeSpace + (r.recordLen + sizeofBtOff) }) := by
  have hlt : b.freeSpace + (r.recordLen + sizeofBtOff) < 2 ^ 16 := by
    have := tree.capacity_eq
    have := tree.node_size_le
    rw [hr, usedSpace_append, usedSpace_cons] at hs
    omega
  have hget : b.recs[before.length]? = some r := by simp [hr]
  have hdrop : (before ++ r :: behind).drop (before.length + 1) = behind := by simp
  have hu : u16 (b.freeSpace + (r.recordLen + sizeofBtOff)) =
      b.freeSpace + (r.recordLen + sizeofBtOff) := Nat.mod_eq_of_lt hlt
  simp only [deleteFromNode, wp_bind, wp_bnodeAt, hb, hget, wp_updateBnode, hu]
  rw [hr, List.take_left' rfl, hdrop]

end Change

-- Only pages of nodes differ.
structure SameHead (s s' : Btree κ ν) : Prop where
  bitmap      : s'.bitmap = s.bitmap
  firstFreeId : s'.firstFreeId = s.firstFreeId
  freeNum     : s'.freeNum = s.freeNum
  rootBnodeId : s'.rootBnodeId = s.rootBnodeId
  btreeHeight : s'.btreeHeight = s.btreeHeight
  env         : s'.env = s.env

namespace SameHead

theorem refl : SameHead s s := ⟨rfl, rfl, rfl, rfl, rfl, rfl⟩

theorem trans (h : SameHead s s') (h' : SameHead s' s'') : SameHead s s'' where
  bitmap      := h'.bitmap.trans h.bitmap
  firstFreeId := h'.firstFreeId.trans h.firstFreeId
  freeNum     := h'.freeNum.trans h.freeNum
  rootBnodeId := h'.rootBnodeId.trans h.rootBnodeId
  btreeHeight := h'.btreeHeight.trans h.btreeHeight
  env         := h'.env.trans h.env

theorem setBnode : SameHead s (s.setBnode id b) := ⟨rfl, rfl, rfl, rfl, rfl, rfl⟩

theorem calm (h : SameHead s s') (hc : s.Calm) : s'.Calm :=
  (congrArg _ h.env).trans hc

theorem live_iff (h : SameHead s s') : s'.Live id ↔ s.Live id :=
  ⟨fun hl => hl.congr h.bitmap.symm, fun hl => hl.congr h.bitmap⟩

theorem bitmapOk (h : SameHead s s') (hb : s.BitmapOk tree) : s'.BitmapOk tree where
  head  := h.bitmap ▸ hb.head
  lt    := h.bitmap ▸ hb.lt
  count := by rw [h.freeNum, h.bitmap, hb.count]
  least := by rw [h.firstFreeId, h.bitmap]; exact hb.least
  clear := by rw [h.firstFreeId, h.bitmap]; exact hb.clear

end SameHead

-- A change of one node, by what is seen of it.
theorem wp_updateBnode_of {f : Bnode κ ν → Bnode κ ν} {Q : Unit → Btree κ ν → Prop}
    (hq : ∀ s', SameHead s s' → s'.bnode id = f (s.bnode id) →
      (∀ i, i ≠ id → s'.bnode i = s.bnode i) → Q () s') : wp (updateBnode id f) Q E H s :=
  hq _ .setBnode Btree.bnode_setBnode_self fun _ => Btree.bnode_setBnode_of_ne

section Links

variable {p v n w : Nat} {Q : Unit → Btree κ ν → Prop}

-- The node `i` when `p` has been given the next node `v`, and `n` the previous node `w`.
def Btree.relinked (s : Btree κ ν) (p v n w i : Nat) : Bnode κ ν :=
  { s.bnode i with
    nextNodeId := if i = p then v else (s.bnode i).nextNodeId
    prevNodeId := if i = n then w else (s.bnode i).prevNodeId }

theorem wp_setNextOf (hc : s.Calm) (hp : p = 0 ∨ s.Live p)
    (hq : ∀ s', SameHead s s' → (∀ i, i ≠ 0 → s'.bnode i = { s.bnode i with
      nextNodeId := if i = p then v else (s.bnode i).nextNodeId }) → Q () s') :
    wp (setNextOf p v) Q E H s := by
  rw [setNextOf, wp_ite]
  constructor
  case left =>
    intro h0
    exact hq s .refl fun i hi => by rw [if_neg (h0 ▸ hi)]
  case right =>
    intro h0
    rw [wp_bind, wp_bugOnError, wp_getBnode hc (hp.resolve_left h0), wp_updateBnode]
    refine hq _ .setBnode fun i _ => ?_
    by_cases he : i = p
    case pos => rw [he, Btree.bnode_setBnode_self, if_pos rfl]
    case neg => rw [Btree.bnode_setBnode_of_ne he, if_neg he]

theorem wp_setPrevOf (hc : s.Calm) (hn : n = 0 ∨ s.Live n)
    (hq : ∀ s', SameHead s s' → (∀ i, i ≠ 0 → s'.bnode i = { s.bnode i with
      prevNodeId := if i = n then w else (s.bnode i).prevNodeId }) → Q () s') :
    wp (setPrevOf n w) Q E H s := by
  rw [setPrevOf, wp_ite]
  constructor
  case left =>
    intro h0
    exact hq s .refl fun i hi => by rw [if_neg (h0 ▸ hi)]
  case right =>
    intro h0
    rw [wp_bind, wp_bugOnError, wp_getBnode hc (hn.resolve_left h0), wp_updateBnode]
    refine hq _ .setBnode fun i _ => ?_
    by_cases he : i = n
    case pos => rw [he, Btree.bnode_setBnode_self, if_pos rfl]
    case neg => rw [Btree.bnode_setBnode_of_ne he, if_neg he]

theorem wp_relink (hc : s.Calm) (hp : p = 0 ∨ s.Live p) (hn : n = 0 ∨ s.Live n)
    (hq : ∀ s', SameHead s s' → (∀ i, i ≠ 0 → s'.bnode i = s.relinked p v n w i) → Q () s') :
    wp (setNextOf p v) (fun _ => wp (setPrevOf n w) Q E H) E H s := by
  refine wp_setNextOf hc hp fun s₁ hh₁ hi₁ => ?_
  refine wp_setPrevOf (hh₁.calm hc) (hn.imp_right hh₁.live_iff.mpr) fun s₂ hh₂ hi₂ => ?_
  refine hq s₂ (hh₁.trans hh₂) fun i hi => ?_
  rw [hi₂ i hi, hi₁ i hi, Btree.relinked]

theorem wp_setNextPrevLinks {b b₁ b₂ : Bnode κ ν} (hb : s.bnode id = b) (hb₁ : s.bnode v = b₁)
    (hb₂ : s.bnode w = b₂) (hne : v ≠ w) (hc : s.Calm)
    (hprev : b.prevNodeId = 0 ∨ s.Live b.prevNodeId)
    (hnext : b.nextNodeId = 0 ∨ s.Live b.nextNodeId)
    (hv : v ≠ 0 ∧ v ≠ b.prevNodeId ∧ v ≠ b.nextNodeId)
    (hw : w ≠ 0 ∧ w ≠ b.prevNodeId ∧ w ≠ b.nextNodeId)
    (hq : ∀ s', SameHead s s' →
      s'.bnode v = { b₁ with prevNodeId := b.prevNodeId, nextNodeId := w } →
      s'.bnode w = { b₂ with prevNodeId := v, nextNodeId := b.nextNodeId } →
      (∀ i, i ≠ 0 → i ≠ v → i ≠ w → s'.bnode i = s.relinked b.prevNodeId v b.nextNodeId w i) →
      Q () s') : wp (setNextPrevLinks id v w) Q E H s := by
  simp only [setNextPrevLinks, wp_bind, wp_bnodeAt, hb]
  refine wp_updateBnode_of fun s₁ hh₁ he₁ hi₁ => ?_
  rw [wp_bind]
  refine wp_updateBnode_of fun s₂ hh₂ he₂ hi₂ => ?_
  rw [wp_bind]
  have hh := hh₁.trans hh₂
  refine wp_relink (hh.calm hc) (hprev.imp_right hh.live_iff.mpr) (hnext.imp_right hh.live_iff.mpr) ?_
  intro s₃ hh₃ hi₃
  refine hq s₃ (hh.trans hh₃) ?_ ?_ fun i h0 h₁ h₂ => ?_
  case refine_1 =>
    rw [hi₃ v hv.left, Btree.relinked, hi₂ v hne, he₁, hb₁, if_neg hv.right.left,
      if_neg hv.right.right]
  case refine_2 =>
    rw [hi₃ w hw.left, Btree.relinked, he₂, hi₁ w hne.symm, hb₂, if_neg hw.right.left,
      if_neg hw.right.right]
  case refine_3 =>
    rw [hi₃ i h0, Btree.relinked, hi₂ i h₂, hi₁ i h₁, Btree.relinked]

end Links

section Split

variable {part₁ part₂ used : Nat} {recs : List (BtreeRecord κ ν)} {Q : Unit → Btree κ ν → Prop}

theorem Bnode.extend_cons {b : Bnode κ ν} : b.extend (r :: recs) =
    Bnode.extend { b with
      recs := b.recs ++ [r], freeSpace := b.freeSpace - (r.recordLen + sizeofBtOff) } recs := by
  simp only [Bnode.extend, usedSpace_cons, List.append_assoc, List.singleton_append, Nat.sub_sub]

-- One record goes to the end of a node.
theorem wp_insertLast (hs : (s.bnode id).freeSpace + usedSpace (s.bnode id).recs = tree.capacity)
    (hf : r.recordLen + sizeofBtOff ≤ (s.bnode id).freeSpace) :
    wp (insertIntoNode id r (s.bnode id).recs.length) Q E H s ↔
      Q () (s.setBnode id { s.bnode id with
        recs      := (s.bnode id).recs ++ [r]
        freeSpace := (s.bnode id).freeSpace - (r.recordLen + sizeofBtOff) }) :=
  wp_insertIntoNode rfl (List.append_nil _).symm hs hf

-- All records go to the second part.
theorem splitRecords_second
    (hs : (s.bnode part₂).freeSpace + usedSpace (s.bnode part₂).recs = tree.capacity)
    (hf : usedSpace recs ≤ (s.bnode part₂).freeSpace)
    (hq : ∀ s', SameHead s s' → (∀ i, i ≠ part₂ → s'.bnode i = s.bnode i) →
      s'.bnode part₂ = (s.bnode part₂).extend recs → Q () s') :
    wp (splitRecords tree part₁ part₂ used true recs) Q E H s := by
  induction recs generalizing s used
  case nil => exact hq s .refl (fun _ _ => rfl) (by simp [Bnode.extend])
  case cons r recs ih =>
    rw [usedSpace_cons] at hf
    rw [splitRecords]
    simp only [wp_bind, wp_bnodeAt, if_true, Bool.true_or]
    rw [wp_insertLast hs (by omega)]
    refine ih ?_ ?_ fun s' hh hi hp => hq s' (SameHead.setBnode.trans hh) (fun i hne => ?_) ?_
    case refine_1 =>
      rw [Btree.bnode_setBnode_self, usedSpace_append, usedSpace_cons, usedSpace_nil]
      dsimp only
      omega
    case refine_2 =>
      rw [Btree.bnode_setBnode_self]
      dsimp only
      omega
    case refine_3 => rw [hi i hne, Btree.bnode_setBnode_of_ne hne]
    case refine_4 => rw [hp, Btree.bnode_setBnode_self, Bnode.extend_cons]

-- The first records fill half of the first part, and the last of them may go beyond.
theorem splitRecords_first (hne : part₁ ≠ part₂) (hshort : ∀ r ∈ recs, r.Short tree)
    (hs₁ : (s.bnode part₁).freeSpace + usedSpace (s.bnode part₁).recs = tree.capacity)
    (hs₂ : (s.bnode part₂).freeSpace + usedSpace (s.bnode part₂).recs = tree.capacity)
    (hused : (s.bnode part₁).freeSpace + used = tree.nodeSizeBytes)
    (hhalf : used ≤ tree.nodeSizeBytes / 2) (hlt : tree.nodeSizeBytes / 2 < used + usedSpace recs)
    (hle : used + usedSpace recs ≤ tree.nodeSizeBytes / 2 + (s.bnode part₂).freeSpace)
    (hq : ∀ s' recs₁ recs₂, SameHead s s' →
      (∀ i, i ≠ part₁ → i ≠ part₂ → s'.bnode i = s.bnode i) → recs = recs₁ ++ recs₂ →
      s'.bnode part₁ = (s.bnode part₁).extend recs₁ →
      s'.bnode part₂ = (s.bnode part₂).extend recs₂ →
      tree.nodeSizeBytes / 2 < used + usedSpace recs₁ →
      used + usedSpace recs₁ ≤ tree.nodeSizeBytes / 2 + (tree.maxRecordLen + sizeofBtOff) →
      Q () s') :
    wp (splitRecords tree part₁ part₂ used false recs) Q E H s := by
  have hN := tree.node_size_ge
  have hM := tree.record_len_le
  induction recs generalizing s used
  case nil =>
    rw [usedSpace_nil] at hlt
    omega
  case cons r recs ih =>
    have hr := (hshort r (by simp)).record
    rw [usedSpace_cons] at hlt hle
    rw [splitRecords]
    simp only [wp_bind, wp_bnodeAt, Bool.false_eq_true, if_false, Bool.false_or]
    rw [wp_insertLast hs₁ (by simp only [sizeofBtOff]; omega)]
    have hp₂ : ∀ b, (s.setBnode part₁ b).bnode part₂ = s.bnode part₂ :=
      fun _ => Btree.bnode_setBnode_of_ne hne.symm
    by_cases hover : tree.nodeSizeBytes / 2 < used + (r.recordLen + sizeofBtOff)
    case pos =>
      rw [decide_eq_true hover]
      refine splitRecords_second (by rw [hp₂]; exact hs₂) (by rw [hp₂]; omega) ?_
      intro s' hh hi hp
      rw [hp₂] at hp
      refine hq s' [r] recs (SameHead.setBnode.trans hh) (fun i h₁ h₂ => ?_) rfl ?_ hp ?_ ?_
      case refine_1 => rw [hi i h₂, Btree.bnode_setBnode_of_ne h₁]
      case refine_2 =>
        rw [hi part₁ hne, Btree.bnode_setBnode_self, Bnode.extend]
        rfl
      case refine_3 => simpa using hover
      case refine_4 =>
        rw [usedSpace_cons, usedSpace_nil]
        omega
    case neg =>
      rw [decide_eq_false hover]
      refine ih (fun r hr => hshort r (by simp [hr])) ?_ ?_ ?_ (by omega) (by omega) ?_ ?_
      case refine_1 =>
        rw [Btree.bnode_setBnode_self, usedSpace_append, usedSpace_cons, usedSpace_nil]
        dsimp only
        simp only [sizeofBtOff] at hover ⊢
        omega
      case refine_2 => rw [hp₂]; exact hs₂
      case refine_3 =>
        rw [Btree.bnode_setBnode_self]
        dsimp only
        omega
      case refine_4 => rw [hp₂]; omega
      case refine_5 =>
        intro s' recs₁ recs₂ hh hi he h₁ h₂ hlow hhigh
        rw [hp₂] at h₂
        refine hq s' (r :: recs₁) recs₂ (SameHead.setBnode.trans hh) (fun i h₁ h₂ => ?_)
          (by rw [he, List.cons_append]) ?_ h₂ ?_ ?_
        case refine_1 => rw [hi i h₁ h₂, Btree.bnode_setBnode_of_ne h₁]
        case refine_2 => rw [h₁, Btree.bnode_setBnode_self, Bnode.extend_cons]
        case refine_3 => rw [usedSpace_cons]; omega
        case refine_4 => rw [usedSpace_cons]; omega

-- A node into which a full one has been split: more than one record, and room for another.
structure Bnode.Part (tree : BtreeOps κ) (b : Bnode κ ν) : Prop where
  fits : b.Fits tree
  two  : 2 ≤ b.recs.length

theorem Bnode.part_of_usedSpace {b : Bnode κ ν} (hs : ∀ r ∈ b.recs, r.Short tree)
    (hf : b.freeSpace + usedSpace b.recs = tree.capacity)
    (hu : tree.maxRecordLen + sizeofBtOff < usedSpace b.recs) : b.Part tree := by
  have htwo : 1 < b.recs.length := lt_length_of_usedSpace hs (by omega)
  exact ⟨⟨fun h => by simp [h] at htwo, hf, hs⟩, htwo⟩

theorem wp_splitNode {b : Bnode κ ν} {before behind : List (BtreeRecord κ ν)}
    (hb : s.bnode id = b) (hfits : b.Fits tree) (hrecs : b.recs = before ++ behind)
    (hr : r.Short tree) (hfull : b.freeSpace < r.recordLen + sizeofBtOff)
    (h₁₂ : part₁ ≠ part₂) (hid : id ≠ part₁ ∧ id ≠ part₂) (hc : s.Calm)
    (hprev : b.prevNodeId = 0 ∨ s.Live b.prevNodeId)
    (hnext : b.nextNodeId = 0 ∨ s.Live b.nextNodeId)
    (h₁ : part₁ ≠ 0 ∧ part₁ ≠ b.prevNodeId ∧ part₁ ≠ b.nextNodeId)
    (h₂ : part₂ ≠ 0 ∧ part₂ ≠ b.prevNodeId ∧ part₂ ≠ b.nextNodeId)
    (hq : ∀ s', SameHead s s' → (s'.bnode part₁).Part tree → (s'.bnode part₂).Part tree →
      before ++ r :: behind = (s'.bnode part₁).recs ++ (s'.bnode part₂).recs →
      (s'.bnode part₁).type = b.type ∧ (s'.bnode part₁).prevNodeId = b.prevNodeId ∧
        (s'.bnode part₁).nextNodeId = part₂ →
      (s'.bnode part₂).type = b.type ∧ (s'.bnode part₂).prevNodeId = part₁ ∧
        (s'.bnode part₂).nextNodeId = b.nextNodeId →
      (∀ i, i ≠ 0 → i ≠ part₁ → i ≠ part₂ →
        s'.bnode i = s.relinked b.prevNodeId part₁ b.nextNodeId part₂ i) →
      3 ≤ (s'.bnode part₁).recs.length ∧ 3 ≤ (s'.bnode part₂).recs.length → Q () s') :
    wp (splitNode tree id before.length r part₁ part₂) Q E H s := by
  have hN := tree.node_size_ge
  have hM := tree.record_len_le
  have hcap := tree.capacity_eq
  have hspace := hfits.space
  rw [hrecs, usedSpace_append] at hspace
  have hshort : ∀ q ∈ before ++ r :: behind, q.Short tree := by
    intro q hmem
    by_cases he : q = r
    case pos => exact he ▸ hr
    case neg => exact hfits.short q (by rw [hrecs]; simpa [he] using hmem)
  simp only [splitNode, initNewNodeDescr, wp_bind, wp_bnodeAt, tree.u16_capacity]
  rw [hb]
  refine wp_updateBnode_of fun s₁ hh₁ he₁ hi₁ => ?_
  rw [wp_bind]
  refine wp_updateBnode_of fun s₂ hh₂ he₂ hi₂ => ?_
  rw [wp_bind]
  have hh := hh₁.trans hh₂
  have hb' : s₂.bnode id = b := by rw [hi₂ id hid.right, hi₁ id hid.left, hb]
  refine wp_setNextPrevLinks hb' (by rw [hi₂ part₁ h₁₂, he₁]) he₂ h₁₂ (hh.calm hc)
    (hprev.imp_right hh.live_iff.mpr) (hnext.imp_right hh.live_iff.mpr) h₁ h₂ ?_
  intro s₃ hh₃ he₃ hf₃ hi₃
  rw [wp_bind, wp_bnodeAt, wp_bind, wp_haltOn, hrecs, List.take_left' rfl, List.drop_left' rfl, he₃]
  refine ⟨fun h => absurd (hrecs.trans h) hfits.nonempty, fun _ => ?_⟩
  have hhalf : tree.nodeSizeBytes - tree.capacity = 27 := by omega
  have htotal : usedSpace (before ++ r :: behind) =
      tree.capacity - b.freeSpace + (r.recordLen + sizeofBtOff) := by
    rw [usedSpace_append, usedSpace_cons]
    omega
  have hm := hr.record
  refine splitRecords_first h₁₂ hshort ?_ ?_ ?_ ?_ ?_ ?_ ?_
  case refine_1 => rw [he₃]; rfl
  case refine_2 => rw [hf₃]; rfl
  case refine_3 => rw [he₃]; dsimp only; omega
  case refine_4 => dsimp only; omega
  case refine_5 =>
    rw [htotal]
    dsimp only [sizeofBtOff] at hfull ⊢
    omega
  case refine_6 =>
    rw [htotal, hf₃]
    dsimp only [sizeofBtOff] at hfull ⊢
    omega
  case refine_7 =>
    intro s₄ recs₁ recs₂ hh₄ hi₄ hsplit hp₁ hp₂ hlow hhigh
    rw [he₃] at hp₁
    rw [hf₃] at hp₂
    dsimp only at hlow hhigh
    have hsum := congrArg usedSpace hsplit
    rw [htotal, usedSpace_append] at hsum
    dsimp only [sizeofBtOff] at hfull hlow hhigh hsum
    have hshort₁ : ∀ q ∈ recs₁, q.Short tree :=
      fun q hq => hshort q (by rw [hsplit]; exact List.mem_append_left _ hq)
    have hshort₂ : ∀ q ∈ recs₂, q.Short tree :=
      fun q hq => hshort q (by rw [hsplit]; exact List.mem_append_right _ hq)
    refine hq s₄ ((hh.trans hh₃).trans hh₄) ?_ ?_ ?_ ?_ ?_ ?_ ⟨?_, ?_⟩
    case refine_1 =>
      refine Bnode.part_of_usedSpace ?_ ?_ ?_ <;> rw [hp₁]
      · exact hshort₁
      · simp only [Bnode.extend, List.nil_append]
        omega
      · simp only [Bnode.extend, List.nil_append, sizeofBtOff]
        omega
    case refine_2 =>
      refine Bnode.part_of_usedSpace ?_ ?_ ?_ <;> rw [hp₂]
      · exact hshort₂
      · simp only [Bnode.extend, List.nil_append]
        omega
      · simp only [Bnode.extend, List.nil_append, sizeofBtOff]
        omega
    case refine_3 => rw [hsplit, hp₁, hp₂]; rfl
    case refine_4 => rw [hp₁]; exact ⟨rfl, rfl, rfl⟩
    case refine_5 => rw [hp₂]; exact ⟨rfl, rfl, rfl⟩
    case refine_6 =>
      intro i h0 hi₁' hi₂'
      rw [hi₄ i hi₁' hi₂', hi₃ i h0 hi₁' hi₂', Btree.relinked, hi₂ i hi₂', hi₁ i hi₁',
        Btree.relinked]
    case refine_7 =>
      rw [hp₁]
      exact lt_length_of_usedSpace (n := 2) hshort₁ (by
        dsimp only [Bnode.extend, List.nil_append, sizeofBtOff]
        omega)
    case refine_8 =>
      rw [hp₂]
      exact lt_length_of_usedSpace (n := 2) hshort₂ (by
        dsimp only [Bnode.extend, List.nil_append, sizeofBtOff]
        omega)

end Split

end Emmcfs
