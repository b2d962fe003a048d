import EmmcfsModel.Btree.Theorems.Update

namespace Emmcfs

open Code Search SortedList

variable {tree : BtreeOps κ} {s s' s₁ s₂ : Btree κ ν} {id i level left right fuel : Nat} {key : κ}
  {q n : BtreeRecord κ ν} {recs recs' before behind l l' : List (BtreeRecord κ ν)}
  {as bs ids ids' : List Nat} {up levels : List (List Nat)}

namespace Bnode

-- A node with the records of its right neighbour, too.
def join (b b' : Bnode κ ν) (next : Nat) : Bnode κ ν :=
  { b with
    recs       := b.recs ++ b'.recs
    freeSpace  := u16 (b.freeSpace + 2 ^ 16 - usedSpace b'.recs)
    nextNodeId := next }

theorem Fits.join {b b' : Bnode κ ν} (hb : b.Fits tree) (hb' : b'.Fits tree)
    (hfit : tree.nodeSizeBytes ≤ b.freeSpace + b'.freeSpace) : (b.join b' next).Fits tree := by
  have hcap := tree.capacity_eq
  have hlt := freeSpace_lt hb.space
  have hspace := hb.space
  have hspace' := hb'.space
  have hu : u16 (b.freeSpace + 2 ^ 16 - usedSpace b'.recs) = b.freeSpace - usedSpace b'.recs := by
    rw [u16]
    omega
  rw [Bnode.join, hu]
  refine ⟨by simp [hb.nonempty], ?_, fun r hr => (List.mem_append.mp hr).elim (hb.short r) (hb'.short r)⟩
  rw [usedSpace_append]
  dsimp only
  omega

end Bnode

namespace Btree

-- The levels have become others, in nodes that were theirs or not in use. They are none if the lowest
-- of them was the root and is gone.
structure Changed (tree : BtreeOps κ) (s : Btree κ ν) (level : Nat) (levels : List (List Nat))
    (recs : List (BtreeRecord κ ν)) (s' : Btree κ ν) : Prop where
  calm   : s'.Calm
  height : 1 ≤ s'.btreeHeight
  upper  : ∃ levels', s'.Upper tree level levels' recs ∧
    Replaced s s' levels.flatten levels'.flatten

-- The records name nodes that are in use and not among those of the levels.
def Names (s : Btree κ ν) (levels : List (List Nat)) (recs : List (BtreeRecord κ ν)) : Prop :=
  ∀ r ∈ recs, ∃ i, r.payload = .node i ∧ s.Live i ∧ i ∉ levels.flatten

section Frames

theorem Replaced.changed (hr : Replaced s s₁ levels.flatten up.flatten)
    (hc : s₁.Changed tree level up recs s') : s.Changed tree level levels recs s' := by
  obtain ⟨hcalm, hheight, levels', hu, hrep⟩ := hc
  exact ⟨hcalm, hheight, levels', hu, hr.trans hrep⟩

theorem Changed.refl (hc : s.Calm) (hl : 1 ≤ level) (hu : s.Upper tree level (ids :: up) recs) :
    s.Changed tree level (ids :: up) recs s := by
  have := hu.height
  rw [List.length_cons] at this
  exact ⟨hc, by omega, ids :: up, hu, fun _ _ hl => ⟨hl, rfl⟩, fun _ => .inl⟩

theorem Names.replaced {levels' : List (List Nat)} (hn : s.Names levels recs)
    (hr : Replaced s s' levels.flatten levels'.flatten) : s'.Names levels' recs := by
  intro r hm
  obtain ⟨i, hp, hl, hnot⟩ := hn r hm
  exact ⟨i, hp, (hr.keep i hnot hl).left, fun h => (hr.fresh i h).elim hnot fun hn => hn hl⟩

-- The index records name the nodes of their level.
theorem Level.names (h : s.Level tree type ids recs) (hdis : ∀ i ∈ ids, i ∉ levels.flatten) :
    s.Names levels (s.indexRecords tree ids) := by
  intro r hm
  obtain ⟨i, hi, hr⟩ := List.mem_filterMap.mp hm
  obtain ⟨x, _, rfl⟩ := Option.map_eq_some_iff.mp hr
  exact ⟨i, rfl, h.live i hi, hdis i hi⟩

end Frames

-- A node of the level is no longer in use, and those that are left hold the records.
structure Vacated (tree : BtreeOps κ) (s s' : Btree κ ν) (type : NodeType) (ids ids' : List Nat)
    (recs : List (BtreeRecord κ ν)) : Prop where
  calm   : s'.Calm
  bitmap : s'.BitmapOk tree
  root   : s'.rootBnodeId = s.rootBnodeId
  height : s'.btreeHeight = s.btreeHeight
  free   : s'.freeNum = s.freeNum + 1
  level  : s'.Level tree type ids' recs
  sub    : ids'.Sublist ids
  keep   : ∀ i, s.Live i → i ∉ ids → s'.Live i ∧ s'.bnode i = s.bnode i

section Neighbours

variable {type : NodeType}

theorem Live.ne_headD (hl : s.Live i) (hm : i ∉ bs) : i ≠ bs.headD 0 := by
  rintro rfl
  exact headD_mem_or.elim hl.ne_zero hm

theorem Live.ne_getLastD (hl : s.Live i) (hm : i ∉ as) : i ≠ as.getLastD 0 := by
  rintro rfl
  exact getLastD_mem_or.elim hl.ne_zero hm

theorem SameHead.vacated (hh : SameHead s s₁) (hc : s.Calm) (hb : s.BitmapOk tree) (hl : s.Live id)
    (hid : id ∈ ids) (hlevel : (s₁.given id).Level tree type ids' recs) (hsub : ids'.Sublist ids)
    (hkeep : ∀ i, s.Live i → i ∉ ids → s₁.bnode i = s.bnode i) :
    s.Vacated tree (s₁.given id) type ids ids' recs where
  calm   := hh.calm hc
  bitmap := (hh.bitmapOk hb).given (hh.live_iff.mpr hl)
  root   := hh.rootBnodeId
  height := hh.btreeHeight
  free   := congrArg (· + 1) hh.freeNum
  level  := hlevel
  sub    := hsub
  keep   := fun i hli hm => ⟨(live_given_iff (hh.live_iff.mpr hl)).mpr
    ⟨hh.live_iff.mpr hli, fun he => hm (he ▸ hid)⟩, hkeep i hli hm⟩

end Neighbours

section Merge

variable {type : NodeType} {Q : Unit → Btree κ ν → Prop} {E : Errno → Btree κ ν → Prop} {H : Prop}

section Join

variable (hlevel : s.Level tree type (as ++ left :: right :: bs) recs)
  (hnd : (as ++ left :: right :: bs).Nodup)

include hlevel hnd

theorem Level.join_ne (hm : i ∈ as ++ bs) : s.Live i ∧ i ≠ left ∧ i ≠ right := by
  obtain ⟨hl, hnd'⟩ := List.nodup_cons.mp (List.nodup_middle.mp hnd)
  have hr := (List.nodup_middle.mp hnd').notMem
  refine ⟨hlevel.live i ?_, fun he => hl ?_, fun he => hr (he ▸ hm)⟩
  all_goals
    simp only [List.mem_append, List.mem_cons] at hm ⊢
    subst_vars
    tauto

-- The left one of two neighbours has the records of both, and the right one is given back.
theorem Level.join (hc : s.Calm) (hb : s.BitmapOk tree)
    (hfit : tree.nodeSizeBytes ≤ (s.bnode left).freeSpace + (s.bnode right).freeSpace)
    (hh : SameHead s s₁) (hleft : s₁.bnode left = (s.bnode left).join (s.bnode right) (bs.headD 0))
    (hother : ∀ i, i ≠ 0 → i ≠ left → s₁.bnode i = { s.bnode i with
      prevNodeId := if i = bs.headD 0 then left else (s.bnode i).prevNodeId }) :
    s.Vacated tree (s₁.given right) type (as ++ left :: right :: bs) (as ++ left :: bs) recs := by
  have hright : s₁.Live right := hh.live_iff.mpr (hlevel.live right (by simp))
  have hlive (i) (hl : s.Live i) (hne : i ≠ right) : (s₁.given right).Live i :=
    (live_given_iff hright).mpr ⟨hh.live_iff.mpr hl, hne⟩
  have hne : left ≠ right := by
    have := (List.nodup_middle.mp hnd).notMem
    simp only [List.mem_append, List.mem_cons, not_or] at this
    exact this.right.left
  have hrelinked (i) (hm : i ∈ as ++ bs) :
      s₁.bnode i = s.relinked (as.getLastD 0) left (bs.headD 0) left i := by
    obtain ⟨hl, hil, _⟩ := hlevel.join_ne hnd hm
    have hnext : (if i = as.getLastD 0 then left else (s.bnode i).nextNodeId) = (s.bnode i).nextNodeId := by
      split
      case isTrue he =>
        have has : as ≠ [] := by
          rintro rfl
          exact hl.ne_zero he
        have := hlevel.linked.next_last has
        rw [← he] at this
        exact this.symm
      case isFalse => rfl
    rw [hother i hl.ne_zero hil, relinked, hnext]
  have hmid : as ++ left :: right :: bs = as ++ [left, right] ++ bs := by simp
  have hnew : (s₁.given right).Level tree type (as ++ [left] ++ bs)
      (s.recsOf as ++ (s₁.given right).recsOf [left] ++ s.recsOf bs) := by
    refine (hmid ▸ hlevel).replace ?_ (fun i hm => ⟨?_, hrelinked i hm⟩)
      (List.forall_mem_singleton.mpr ⟨hlive left (hlevel.live left (by simp)) hne, ?_, ?_⟩) ⟨?_, ?_, trivial⟩
    · exact (List.nodup_middle.mp (List.nodup_middle.mp hnd).of_cons).of_cons
    · obtain ⟨hl, _, hir⟩ := hlevel.join_ne hnd hm
      exact hlive i hl hir
    · rw [bnode_given, hleft]
      exact (hlevel.fits left (by simp)).join (hlevel.fits right (by simp)) hfit
    · rw [bnode_given, hleft]
      exact hlevel.typed left (by simp)
    · dsimp only
      rw [bnode_given, hleft]
      exact hlevel.linked.prev_eq
    · dsimp only
      rw [bnode_given, hleft]
      rfl
  have hrecs : s.recsOf as ++ (s₁.given right).recsOf [left] ++ s.recsOf bs = recs := by
    rw [← hlevel.records, recsOf_cons, bnode_given, hleft, Bnode.join]
    simp
  rw [List.append_assoc, List.singleton_append, hrecs] at hnew
  refine SameHead.vacated hh hc hb (hlevel.live right (by simp)) (by simp) hnew
    ((List.Sublist.refl as).append ((List.sublist_cons_self ..).cons_cons _)) fun i hl hm => ?_
  simp only [List.mem_append, List.mem_cons, not_or] at hm
  rw [hother i hl.ne_zero hm.2.1, if_neg (hl.ne_headD hm.2.2.2)]

end Join

theorem wp_btreeMerge {remove : κ → BtreeCode κ ν Unit} (hc : s.Calm) (hb : s.BitmapOk tree)
    (hlevel : s.Level tree type (as ++ left :: right :: bs) recs)
    (hnd : (as ++ left :: right :: bs).Nodup)
    (hfit : tree.nodeSizeBytes ≤ (s.bnode left).freeSpace + (s.bnode right).freeSpace)
    (hq : ∀ s' r rest, (s.bnode right).recs = r :: rest →
      s.Vacated tree s' type (as ++ left :: right :: bs) (as ++ left :: bs) recs →
      (∀ i ∈ as ++ left :: bs, (s'.bnode i).recs.head? = (s.bnode i).recs.head?) →
      wp (remove r.key) Q E H s') : wp (btreeMerge tree remove left right) Q E H s := by
  have hleft := hlevel.live left (by simp)
  have hright := hlevel.live right (by simp)
  have hnext : (s.bnode right).nextNodeId = bs.headD 0 := by
    have h := hlevel.linked
    rw [← List.singleton_append, ← List.append_assoc] at h
    exact h.next_eq
  have hhead : left ≠ bs.headD 0 := hleft.ne_headD fun hm =>
    (hlevel.join_ne hnd (List.mem_append_right _ hm)).2.1 rfl
  obtain ⟨r, rest, hrecs⟩ := List.exists_cons_of_ne_nil (hlevel.fits right (by simp)).nonempty
  have hget : (s.bnode right).recs[0]? = some r := by rw [hrecs]; rfl
  rw [btreeMerge, wp_bind, wp_getBnode hc hleft, wp_bind, wp_getBnode hc hright, wp_bind]
  refine wp_updateBnode_of fun s₁ hh₁ hb₁ hi₁ => ?_
  dsimp only
  -- the node behind gets the link to the left one, if there is a node behind
  have hjoined : ∀ s₂, SameHead s s₂ → (∀ i, i ≠ 0 → s₂.bnode i = { s₁.bnode i with
      prevNodeId := if i = bs.headD 0 then left else (s₁.bnode i).prevNodeId }) →
      wp (do
        bugOnError request
        destroyBnode tree right
        remove r.key) Q E H s₂ := by
    intro s₂ hh₂ hi₂
    have hc₂ := hh₂.calm hc
    have hleft₂ : s₂.bnode left = (s.bnode left).join (s.bnode right) (bs.headD 0) := by
      rw [hi₂ left hleft.ne_zero, if_neg hhead, hb₁, hnext, Bnode.join]
    have hother (i) (h0 : i ≠ 0) (hne : i ≠ left) : s₂.bnode i = { s.bnode i with
        prevNodeId := if i = bs.headD 0 then left else (s.bnode i).prevNodeId } := by
      rw [hi₂ i h0, hi₁ i hne]
    rw [wp_bind, wp_bugOnError, wp_request_of hc₂, wp_bind, wp_destroyBnode hc₂ (hh₂.live_iff.mpr hright)]
    refine hq _ r rest hrecs (hlevel.join hnd hc hb hfit hh₂ hleft₂ hother) fun i hm => ?_
    by_cases he : i = left
    case pos =>
      rw [bnode_given, he, hleft₂]
      exact List.head?_append_of_ne_nil _ (hlevel.fits left (by simp)).nonempty
    case neg =>
      have hm : i ∈ as ++ bs := by
        simp only [List.mem_append, List.mem_cons] at hm ⊢
        tauto
      rw [bnode_given, hother i (hlevel.join_ne hnd hm).left.ne_zero he]
  rw [hget, hnext, wp_ite]
  refine ⟨fun hne => ?_, fun h0 => ?_⟩
  case refine_1 =>
    have hmem := List.mem_append_right as (headD_mem_or.resolve_left hne)
    rw [wp_bind, wp_getBnode (hh₁.calm hc) (hh₁.live_iff.mpr (hlevel.join_ne hnd hmem).left), wp_bind,
      wp_updateBnode]
    refine hjoined _ (hh₁.trans .setBnode) fun i _ => ?_
    by_cases he : i = bs.headD 0
    case pos => rw [he, bnode_setBnode_self, if_pos rfl]
    case neg => rw [bnode_setBnode_of_ne he, if_neg he]
  case refine_2 =>
    refine hjoined s₁ hh₁ fun i hi => ?_
    rw [if_neg fun he => hi (he.trans (not_not.mp h0))]

end Merge

-- A node is taken out of its level and given back.
theorem Level.unlink (hlevel : s.Level tree type (as ++ id :: bs) recs) (hnd : (as ++ id :: bs).Nodup)
    (hc : s.Calm) (hb : s.BitmapOk tree) (hh : SameHead s s₁)
    (hi : ∀ i, i ≠ 0 → i ≠ id →
      s₁.bnode i = s.relinked (as.getLastD 0) (bs.headD 0) (bs.headD 0) (as.getLastD 0) i) :
    s.Vacated tree (s₁.given id) type (as ++ id :: bs) (as ++ bs) (s.recsOf as ++ s.recsOf bs) := by
  have hlive : s₁.Live id := hh.live_iff.mpr (hlevel.live id (by simp))
  obtain ⟨hnot, hnd'⟩ := List.nodup_cons.mp (List.nodup_middle.mp hnd)
  have hold (i) (hm : i ∈ as ++ bs) : s.Live i ∧ i ≠ id := by
    refine ⟨hlevel.live i ?_, fun he => hnot (he ▸ hm)⟩
    simp only [List.mem_append, List.mem_cons] at hm ⊢
    tauto
  have hnew : (s₁.given id).Level tree type (as ++ [] ++ bs)
      (s.recsOf as ++ (s₁.given id).recsOf [] ++ s.recsOf bs) := by
    rw [← List.singleton_append, ← List.append_assoc] at hlevel
    refine hlevel.replace hnd' (fun i hm => ?_) (List.forall_mem_nil _) trivial
    obtain ⟨hl, hne⟩ := hold i hm
    exact ⟨(live_given_iff hlive).mpr ⟨hh.live_iff.mpr hl, hne⟩, hi i hl.ne_zero hne⟩
  rw [recsOf_nil, List.append_nil, List.append_nil] at hnew
  refine SameHead.vacated hh hc hb (hlevel.live id (by simp)) (by simp) hnew
    ((List.Sublist.refl as).append (List.sublist_cons_self ..)) fun i hl hm => ?_
  simp only [List.mem_append, List.mem_cons, not_or] at hm
  rw [hi i hl.ne_zero hm.2.1, relinked, if_neg (hl.ne_getLastD hm.1), if_neg (hl.ne_headD hm.2.2)]

end Btree

-- The only child of the root becomes the root.
theorem dropRoot_spec (hc : s.Calm) (hu : s.Upper tree level [[id]] recs)
    (hone : (s.bnode id).recs.length = 1) (hh : 1 < s.btreeHeight) (hn : s.Names [[id]] recs) :
    wp (dropRoot tree id) (fun _ => s.Changed tree level [[id]] recs) (fun _ _ => False) False s := by
  obtain ⟨r, hr⟩ := List.length_eq_one_iff.mp hone
  obtain rfl : recs = [r] := by
    rw [← hu.shape.left.records, Btree.recsOf_cons, hr]
    rfl
  obtain ⟨c, hpayload, hlive, hnot⟩ := hn r (by simp)
  have hchild : r.nodeId = c := by rw [BtreeRecord.nodeId, hpayload]
  have hid := hu.shape.left.live id (by simp)
  have hheight := hu.height
  have hget : (s.bnode id).recs[0]? = some r := by rw [hr]; rfl
  rw [dropRoot, wp_bind, wp_bnodeAt, wp_bind, wp_getRecord hget, wp_bind,
    wp_getChildBnode hc (hchild ▸ hlive), hchild, btreeSetRootId, wp_bind, wp_bind, wp_bugOnError,
    wp_request_of hc, wp_modify]
  have hc₁ : Btree.Calm { s with rootBnodeId := c } := hc
  have hc₂ : Btree.Calm { s with rootBnodeId := c, btreeHeight := s.btreeHeight - 1 } := hc
  have hlive₂ : Btree.Live { s with rootBnodeId := c, btreeHeight := s.btreeHeight - 1 } id :=
    ⟨hid.ne_zero, hid.used⟩
  rw [btreeDecHeight, wp_bind, wp_bind, wp_get, wp_bind, wp_haltOn]
  refine ⟨fun h0 => ?_, fun _ => ?_⟩
  · dsimp only at h0
    omega
  rw [wp_bind, wp_bugOnError, wp_request_of hc₁, wp_modify, wp_destroyBnode hc₂ hlive₂]
  have hb := hu.bitmap.given hid
  refine ⟨hc, Nat.le_sub_one_of_lt hh, [],
    ⟨⟨r, rfl, hpayload⟩, List.nodup_nil, ⟨hb.head, hb.lt, hb.count, hb.least, hb.clear⟩, ?_⟩,
    fun i hm hl => ⟨?_, rfl⟩, fun i hm => absurd hm List.not_mem_nil⟩
  · change level + 0 = s.btreeHeight - 1 + 1
    rw [List.length_singleton] at hheight
    omega
  · have hl' := (Btree.live_given_iff hid).mpr ⟨hl, fun he => hm (by simp [he])⟩
    exact ⟨hl'.ne_zero, hl'.used⟩

section Remove

variable [LinearOrder κ]

-- A removal at a level takes away the last record that is not above the key, which is not the first
-- one of the level. It fails only if this is the first record of a node and there are no free nodes,
-- and `H` is what a halt shows if not all index nodes have more than one record.
def RemovesAt (tree : BtreeOps κ) (ν : Type) (H : Prop) (fuel : Nat) : Prop :=
  ∀ {s : Btree κ ν} {level : Nat} {key : κ} {ids : List Nat} {up : List (List Nat)}
    {l l' : List (BtreeRecord κ ν)} {q : BtreeRecord κ ν}, 1 ≤ level → s.Calm →
    s.Upper tree level (ids :: up) (l ++ q :: l') → Sorted ((l ++ q :: l').map (·.key)) → l ≠ [] →
    q.key ≤ key → (∀ y ∈ l', key < y.key) → (level = 1 → q.key = key) →
    (level ≠ 1 → s.Names (ids :: up) (l ++ l')) → s.potential < fuel + 2 * level →
    (H ∨ s.Wide up.flatten) →
    wp (btreeRemove tree fuel level key) (fun _ => s.Changed tree level (ids :: up) (l ++ l'))
      (fun e _ => e = .enospc ∧ ∃ id, (s.places ids)[l.length]? = some (id, 0)) H s

section Levels

variable {A B : List (BtreeRecord κ ν)} {o : BtreeRecord κ ν} (hremove : RemovesAt tree ν H fuel)
  (hlevel : 1 ≤ level) (hs : Sorted (recs.map (·.key))) (hfuel : s.potential < fuel + 1 + 2 * level)

include hremove hlevel hs hfuel

-- The index record of a node that is no longer in use is removed from the levels above.
theorem removeAbove_spec (hu : s.Upper tree level (ids :: ids₁ :: up) recs)
    (hv : s.Vacated tree s' (Btree.typeAt level) ids ids' recs')
    (hold : s.indexRecords tree ids = A ++ o :: B) (hnew : s'.indexRecords tree ids' = A ++ B)
    (hA : A ≠ []) (ho : o.key ≤ key) (hB : ∀ y ∈ B, key < y.key) (hw : H ∨ s.Wide up.flatten) :
    wp (btreeRemove tree fuel (level + 1) key)
      (fun _ => s.Changed tree level (ids :: ids₁ :: up) recs')
      (fun e _ => e = .enospc ∧ ∃ id, (s.places ids₁)[A.length]? = some (id, 0)) H s' := by
  obtain ⟨hnd, hdis⟩ := hu.apart
  have hkeep (i) (hm : i ∈ (ids₁ :: up).flatten) : s'.Live i ∧ s'.bnode i = s.bnode i :=
    hv.keep i (hu.shape.right.live i hm) fun hi => hdis i hi hm
  have hnot (i) (hm : i ∈ ids') : i ∉ (ids₁ :: up).flatten := hdis i (hv.sub.subset hm)
  have hup := hu.above hlevel hkeep hv.bitmap hv.root hv.height
  rw [← hu.shape.left.records] at hs
  have hsorted := @Btree.sorted_indexRecords _ _ tree s ids _ hs
  rw [hold] at hup hsorted
  have hpot : s'.potential < fuel + 2 * (level + 1) := by
    rw [Btree.potential] at hfuel ⊢
    rw [hv.height, hv.free]
    omega
  have hwide : H ∨ s'.Wide up.flatten := hw.imp_right fun hw i hm => by
    rw [(hkeep i (List.mem_append_right _ hm)).right]
    exact hw i hm
  refine wp_mono (hremove (by omega) hv.calm hup hsorted hA ho hB (by omega)
    (fun _ => hnew ▸ hv.level.names hnot) hpot hwide) (fun _ s'' hc => ?_) (fun e _ he => ⟨he.left, ?_⟩)
    (fun h => h)
  · obtain ⟨hcalm, hheight, levels', hu', hrep⟩ := hc
    obtain ⟨hupper, hrep'⟩ := hv.level.under (hnd.sublist hv.sub) hnot hlevel (hnew ▸ hu') hrep
    refine ⟨hcalm, hheight, _, hupper, Btree.Replaced.trans ⟨fun i hm hl => ?_, fun i hm => .inl ?_⟩ hrep'⟩
    · exact hv.keep i hl fun hi => hm (List.mem_append_left _ hi)
    · rcases List.mem_append.mp hm with hm | hm
      · exact List.mem_append_left _ (hv.sub.subset hm)
      · exact List.mem_append_right _ hm
  · have hsame : s'.places ids₁ = s.places ids₁ :=
      List.flatMap_congr fun i hm => by rw [(hkeep i (List.mem_append_left _ hm)).right]
    exact hsame ▸ he.right

-- Two neighbours are merged. The index record of the right one is not the first one of its node.
theorem mergeAbove_spec (hc : s.Calm)
    (hu : s.Upper tree level ((as ++ left :: right :: bs) :: ids₁ :: up) recs)
    (hfit : tree.nodeSizeBytes ≤ (s.bnode left).freeSpace + (s.bnode right).freeSpace)
    (hloc : (s.places ids₁)[as.length + 1]? = some (i, pos + 1)) (hw : H ∨ s.Wide up.flatten) :
    wp (btreeMerge tree (btreeRemove tree fuel (level + 1)) left right)
      (fun _ => s.Changed tree level ((as ++ left :: right :: bs) :: ids₁ :: up) recs)
      (fun _ _ => False) H s := by
  refine Btree.wp_btreeMerge hc hu.bitmap hu.shape.left hu.apart.left hfit fun s' r rest hrecs hv hhead => ?_
  obtain ⟨first, hfirst⟩ := (hu.shape.left.fits left (by simp)).indexRecord
  have hsecond := @Btree.indexRecord_of_recs _ _ tree _ _ _ _ hrecs
  have hold : s.indexRecords tree (as ++ left :: right :: bs) = s.indexRecords tree as ++ [first] ++
      ⟨r.key, tree.keyLen r.key + sizeofIndexValue, .node right⟩ :: s.indexRecords tree bs := by
    rw [Btree.indexRecords_append, Btree.indexRecords_cons hfirst, Btree.indexRecords_cons hsecond,
      List.append_assoc, List.singleton_append]
  have hnew : s'.indexRecords tree (as ++ left :: bs) =
      s.indexRecords tree as ++ [first] ++ s.indexRecords tree bs := by
    rw [Btree.indexRecords_congr hhead, Btree.indexRecords_append, Btree.indexRecords_cons hfirst,
      List.append_assoc, List.singleton_append]
  have hbehind : ∀ y ∈ s.recsOf bs, r.key < y.key := by
    have heq : recs = s.recsOf as ++ (s.bnode left).recs ++ r :: (rest ++ s.recsOf bs) := by
      rw [← hu.shape.left.records]
      simp [hrecs]
    rw [heq] at hs
    exact fun y hy => (sorted_around.mp hs).2.2.2 y (List.mem_append_right _ hy)
  refine wp_mono (removeAbove_spec hremove hlevel hs hfuel hu hv hold hnew (by simp) le_rfl
    (Btree.forall_indexRecords hbehind) hw) (fun _ _ h => h) (fun e _ he => ?_) fun h => h
  obtain ⟨id, hid⟩ := he.right
  rw [List.length_append, List.length_singleton, hu.shape.left.length_indexRecords, hloc] at hid
  cases hid

-- A node that has become too empty is merged with a neighbour below the same parent, if they fit. It
-- halts only if there is no such neighbour.
theorem rebalance_spec (hcmp : Compares tree.compFn) (hc : s.Calm)
    (hu : s.Upper tree level ((as ++ id :: bs) :: ids₁ :: up) recs)
    (hrecs : (s.bnode id).recs = x :: rest) (hx : x.key ≤ key) (hbs : ∀ y ∈ s.recsOf bs, key < y.key)
    (hw : H ∨ s.Wide (ids₁ :: up).flatten) :
    wp (rebalance tree (btreeRemove tree fuel (level + 1)) key level id (s.bnode id).freeSpace)
      (fun _ => s.Changed tree level ((as ++ id :: bs) :: ids₁ :: up) recs) (fun _ _ => False) H s := by
  have hsame := Btree.Changed.refl hc hlevel hu
  have hwide : H ∨ s.Wide up.flatten := hw.imp_right fun hw i hm => hw i (List.mem_append_right _ hm)
  have hup := hu.above hlevel (fun i hm => ⟨hu.shape.right.live i hm, rfl⟩) hu.bitmap rfl rfl
  have hsorted := @Btree.sorted_indexRecords _ _ tree s (as ++ id :: bs) _ (by rwa [hu.shape.left.records])
  have hold := @Btree.indexRecord_of_recs _ _ tree _ _ _ _ hrecs
  have hlen := hu.shape.left.length_indexRecords
  rw [Btree.indexRecords_append, Btree.indexRecords_cons hold] at hup hsorted
  have hprev : (s.bnode id).prevNodeId = as.getLastD 0 := hu.shape.left.linked.prev_eq
  have hnext : (s.bnode id).nextNodeId = bs.headD 0 := hu.shape.left.linked.next_eq
  rw [rebalance, wp_bind]
  refine wp_mono (btreeFindLevel_returns hup (rising_of_sorted hcmp hsorted) hc) ?_ (fun _ _ => False.elim)
    False.elim
  rintro ⟨⟨parent, pos⟩, path⟩ s ⟨rfl, k, hf⟩
  obtain rfl := floor_eq hcmp hsorted hx (Btree.forall_indexRecords hbs) hf.ends
  have hpath := hf.path
  rw [hlen] at hpath
  rw [wp_bind, wp_bnodeAt, wp_bind, wp_getBnode hc (hu.shape.left.live id (by simp)), wp_ite]
  refine ⟨fun hpos => ?_, fun hpos => wp_ite.mpr ⟨fun hlt => ?_, fun hlt => ?_⟩⟩
  case refine_1 =>
    obtain ⟨p, rfl⟩ := Nat.exists_eq_succ_of_ne_zero hpos.ne'
    obtain ⟨as, left, rfl⟩ : ∃ as' left, as = as' ++ [left] := by
      have hne : as ≠ [] := by
        rintro rfl
        obtain ⟨_, _, _, _, _, _, he, _, hk, _⟩ := hpath
        cases he
        simp at hk
      obtain ⟨as', left, he⟩ := List.eq_nil_or_concat as |>.resolve_left hne
      exact ⟨as', left, by rw [he, List.concat_eq_append]⟩
    have hloc := hpath.place
    rw [List.length_append, List.length_singleton] at hloc
    rw [hprev, List.getLastD_concat, wp_bind, wp_getBnode hc (hu.shape.left.live left (by simp)), wp_ite]
    refine ⟨fun hfit => ?_, fun _ => hsame⟩
    rw [List.append_assoc, List.singleton_append] at hu ⊢
    exact mergeAbove_spec hremove hlevel hs hfuel hc hu (by omega) hloc hwide
  case refine_2 =>
    obtain rfl : pos = 0 := by omega
    have hloc := hpath.places_add hlt
    obtain ⟨right, bs, rfl⟩ : ∃ right bs', bs = right :: bs' := by
      refine List.exists_cons_of_ne_nil fun he => ?_
      have := (List.getElem?_eq_some_iff.mp hloc).choose
      rw [Btree.length_places, hup.shape.left.records, List.length_append, List.length_cons, hlen, he] at this
      simp [Btree.indexRecords] at this
    rw [hnext, List.headD_cons, wp_bind, wp_getBnode hc (hu.shape.left.live right (by simp)), wp_ite]
    exact ⟨fun hfit => mergeAbove_spec hremove hlevel hs hfuel hc hu hfit hloc hwide, fun _ => hsame⟩
  case refine_3 =>
    refine hw.elim (fun h => h) fun hw => ?_
    obtain ⟨as₁, _, bs₁, _, _, rfl, he, _, _, _⟩ := hpath
    cases he
    have := hw parent (by simp)
    omega

theorem afterRemove_spec (hcmp : Compares tree.compFn) (hc : s.Calm)
    (hu : s.Upper tree level ((as ++ id :: bs) :: up) recs) (hrecs : (s.bnode id).recs = x :: rest)
    (hx : x.key ≤ key) (hbs : ∀ y ∈ s.recsOf bs, key < y.key)
    (hn : level ≠ 1 → s.Names ((as ++ id :: bs) :: up) recs) (hw : H ∨ s.Wide up.flatten) :
    wp (afterRemove tree (btreeRemove tree fuel (level + 1)) key level id)
      (fun _ => s.Changed tree level ((as ++ id :: bs) :: up) recs) (fun _ _ => False) H s := by
  have hsame := Btree.Changed.refl hc hlevel hu
  have hheight := hu.height
  rw [afterRemove, wp_bind, wp_get]
  dsimp only
  rw [wp_ite]
  refine ⟨fun _ => ?_, fun _ => hsame⟩
  cases up
  case cons ids₁ up =>
    rw [List.length_cons, List.length_cons] at hheight
    rw [if_pos (by omega), wp_onFail]
    exact wp_mono (rebalance_spec hremove hlevel hs hfuel hcmp hc hu hrecs hx hbs hw) (fun _ _ h => h)
      (fun _ _ => False.elim) fun h => h
  case nil =>
    rw [List.length_singleton] at hheight
    rw [if_neg (by omega), wp_ite]
    refine ⟨fun hroot => ?_, fun _ => hsame⟩
    have hids := hu.shape.single
    have hlen := congrArg List.length hids
    rw [List.length_append, List.length_cons, List.length_singleton] at hlen
    obtain rfl := List.eq_nil_of_length_eq_zero (show as.length = 0 by omega)
    obtain rfl := List.eq_nil_of_length_eq_zero (show bs.length = 0 by omega)
    exact wp_mono (dropRoot_spec hc hu hroot.left hroot.right (hn (by omega))) (fun _ _ h => h)
      (fun _ _ => False.elim) False.elim

-- The node has lost its only record and is taken out of its level.
theorem removeNode_spec (hc : s.Calm)
    (hu : s.Upper tree level ((as ++ id :: bs) :: ids₁ :: up) recs) (has : as ≠ [])
    (hrecs : (s.bnode id).recs = [q]) (hq : q.key ≤ key)
    (hbs : ∀ y ∈ s.recsOf bs, key < y.key) (hh : SameHead s s₁)
    (hi : ∀ i, i ≠ id → s₁.bnode i = s.bnode i)
    (hb : s₁.bnode id = { s.bnode id with recs := [], freeSpace := space })
    (hw : H ∨ s.Wide up.flatten) :
    wp (do
      setNextOf (s₁.bnode id).prevNodeId (s₁.bnode id).nextNodeId
      setPrevOf (s₁.bnode id).nextNodeId (s₁.bnode id).prevNodeId
      Code.onFail (destroyBnode tree id) (faultOrBug tree)
      btreeRemove tree fuel (level + 1) key)
      (fun _ => s.Changed tree level ((as ++ id :: bs) :: ids₁ :: up) (s.recsOf as ++ s.recsOf bs))
      (fun e _ => e = .enospc) H s₁ := by
  have hc₁ := hh.calm hc
  have hlive (i) (hm : i ∈ as ++ id :: bs) : s₁.Live i := hh.live_iff.mpr (hu.shape.left.live i hm)
  have hprev : (s₁.bnode id).prevNodeId = as.getLastD 0 := by
    rw [hb]
    exact hu.shape.left.linked.prev_eq
  have hnext : (s₁.bnode id).nextNodeId = bs.headD 0 := by
    rw [hb]
    exact hu.shape.left.linked.next_eq
  have hlast : as.getLastD 0 = 0 ∨ s₁.Live (as.getLastD 0) :=
    Btree.getLastD_mem_or.imp_right fun h => hlive _ (List.mem_append_left _ h)
  have hhead : bs.headD 0 = 0 ∨ s₁.Live (bs.headD 0) :=
    Btree.headD_mem_or.imp_right fun h => hlive _ (List.mem_append_right _ (List.mem_cons_of_mem _ h))
  rw [hprev, hnext, wp_bind]
  refine wp_setNextOf hc₁ hlast fun s₂ hh₂ hi₂ => wp_bind.mpr ?_
  refine wp_setPrevOf (hh₂.calm hc₁) (hhead.imp_right hh₂.live_iff.mpr) fun s₃ hh₃ hi₃ => ?_
  have hh' := hh₂.trans hh₃
  have hlive₃ := hh'.live_iff.mpr (hlive id (by simp))
  rw [wp_bind, wp_onFail, wp_destroyBnode (hh'.calm hc₁) hlive₃]
  have hother (i) (h0 : i ≠ 0) (hne : i ≠ id) :
      s₃.bnode i = s.relinked (as.getLastD 0) (bs.headD 0) (bs.headD 0) (as.getLastD 0) i := by
    rw [hi₃ i h0, hi₂ i h0, hi i hne, Btree.relinked]
  have hv := hu.shape.left.unlink hu.apart.left hc hu.bitmap (hh.trans hh') hother
  have hold := @Btree.indexRecord_of_recs _ _ tree _ _ _ _ hrecs
  have hindex : s.indexRecords tree (as ++ id :: bs) = s.indexRecords tree as ++
      ⟨q.key, tree.keyLen q.key + sizeofIndexValue, .node id⟩ :: s.indexRecords tree bs := by
    rw [Btree.indexRecords_append, Btree.indexRecords_cons hold]
  have hnew : (s₃.given id).indexRecords tree (as ++ bs) =
      s.indexRecords tree as ++ s.indexRecords tree bs := by
    rw [← Btree.indexRecords_append]
    refine Btree.indexRecords_congr fun i hm => ?_
    have hl := hv.level.live i hm
    have hne := ((Btree.live_given_iff hlive₃).mp hl).right
    rw [Btree.bnode_given, hother i hl.ne_zero hne, Btree.relinked]
  exact wp_mono (removeAbove_spec hremove hlevel hs hfuel hu hv hindex hnew
    (hu.shape.left.indexRecords_ne_nil has) hq (Btree.forall_indexRecords hbs) hw) (fun _ _ h => h)
    (fun _ _ he => he.left) fun h => h

end Levels

theorem btreeRemove_spec (hcmp : Compares tree.compFn) : RemovesAt tree ν H fuel := by
  induction fuel
  case zero =>
    intro s level key ids up l l' q _ _ hu _ _ _ _ _ _ hfuel _
    have := hu.height
    rw [List.length_cons] at this
    rw [Btree.potential] at hfuel
    omega
  case succ fuel ih =>
    intro s level key ids up l l' q hlevel hc hu hs hl hq hl' hone hn hfuel hw
    have hheight := hu.height
    rw [List.length_cons] at hheight
    rw [btreeRemove, wp_bind, wp_get, wp_bind, wp_haltOn]
    refine ⟨fun hlt => by omega, fun _ => ?_⟩
    rw [wp_bind]
    refine wp_mono (btreeFindLevel_returns hu (rising_of_sorted hcmp hs) hc) ?_ (fun _ _ => False.elim)
      False.elim
    rintro ⟨⟨id, pos⟩, path⟩ s ⟨rfl, k, hf⟩
    obtain rfl := floor_eq hcmp hs hq hl' hf.ends
    have hloc := hf.path.place
    obtain ⟨as, _, bs, before, behind, path', rfl, hpath, hrecs, rfl, rfl, hp⟩ :=
      hf.path.exists_node hu.shape.left
    cases hpath
    have hget : (s.bnode id).recs[before.length]? = some q := by rw [hrecs]; simp
    rw [wp_bind, wp_bnodeAt, wp_bind, wp_getRecord hget, wp_ite]
    refine ⟨fun h => absurd ((hcmp.zero_iff ..).mpr (hone h.left)) h.right, fun _ => wp_bind.mpr ?_⟩
    have hfits := hu.shape.left.fits id (by simp)
    refine wp_deleteFromNode_of hrecs hfits fun s₁ hh hb hi => ?_
    rw [wp_bind, wp_get]
    dsimp only
    have hbs : ∀ y ∈ s.recsOf bs, key < y.key := fun y hy => hl' y (List.mem_append_right _ hy)
    have hs' : Sorted ((s.recsOf as ++ before ++ (behind ++ s.recsOf bs)).map (·.key)) :=
      hs.sublist (((List.Sublist.refl _).append (List.sublist_cons_self ..)).map _)
    rw [wp_ite]
    refine ⟨fun hempty => ?_, fun hne => ?_⟩
    case refine_1 =>
      rw [hb] at hempty
      obtain ⟨rfl, rfl⟩ := List.append_eq_nil_iff.mp hempty
      have has : as ≠ [] := by
        rintro rfl
        exact hl rfl
      obtain ⟨⟨ids₁, up, rfl⟩, _⟩ := hu.exists_above has
      have hw' : H ∨ s.Wide up.flatten := hw.imp_right fun hw i hm => hw i (List.mem_append_right _ hm)
      refine wp_mono (removeNode_spec ih hlevel hs hfuel hc hu has hrecs hq hbs hh hi hb hw')
        (fun _ _ h => ?_) (fun _ _ he => ⟨he, id, hloc⟩) fun h => h
      rwa [List.append_nil, List.nil_append]
    case refine_2 =>
      rw [hb] at hne
      refine wp_shorten (btreeUpdateKey_spec hcmp) hlevel hc hu hs hh hi (hb ▸ hfits.cut hrecs hne) hq hfuel
        rfl hl hrecs hb hl' (fun _ he => ⟨rfl, id, ?_⟩) fun k s₂ x rest hx hk hbs h => ?_
      · rwa [he] at hloc ⊢
      obtain ⟨hc₂, hpot, hnodes, up₂, hu₂, hrep, hwide⟩ := h
      have hnode : (s₂.bnode id).recs = x :: rest := by
        rw [hnodes id (by simp), hb]
        exact hx
      have hbs₂ : s₂.recsOf bs = s.recsOf bs := Btree.recsOf_congr fun i hm => by
        have hnot := (List.nodup_middle.mp hu.apart.left).notMem
        rw [hnodes i (by simp [hm]), hi i fun he => hnot (by simp [← he, hm])]
      exact wp_mono (afterRemove_spec ih hlevel hs' (by omega) hcmp hc₂ hu₂ hnode hk (hbs₂ ▸ hbs)
        (fun h1 => (hn h1).replaced hrep) (hw.imp_right hwide)) (fun _ _ h => hrep.changed h)
        (fun _ _ => False.elim) fun h => h

section Leaves

variable {leaves : List Nat} (hcmp : Compares tree.compFn) (hc : s.Calm)

include hcmp hc

theorem emmcfsBtreeRemove_present (hu : s.Upper tree 1 (leaves :: up) (l ++ q :: l'))
    (hs : Sorted ((l ++ q :: l').map (·.key))) (hl : l ≠ []) (hw : H ∨ s.Wide up.flatten) :
    wp (emmcfsBtreeRemove tree q.key)
      (fun _ s' => s'.Calm ∧ ∃ leaves' up', s'.Upper tree 1 (leaves' :: up') (l ++ l'))
      (fun e _ => e = .enospc ∧ ∃ id, (s.places leaves)[l.length]? = some (id, 0)) H s := by
  obtain ⟨_, _, _, hl'⟩ := sorted_around.mp hs
  rw [emmcfsBtreeRemove, wp_bind, wp_get]
  refine wp_imp (btreeRemove_spec hcmp le_rfl hc hu hs hl le_rfl hl' (fun _ => rfl)
    (fun h => absurd rfl h) (by rw [Btree.potential]; omega) hw) ?_
  rintro - s' ⟨hcalm, hheight, levels, hu', -⟩
  have := hu'.height
  cases levels
  case nil =>
    rw [List.length_nil] at this
    omega
  case cons leaves' up' => exact ⟨hcalm, leaves', up', hu'⟩

theorem emmcfsBtreeRemove_absent (hu : s.Upper tree 1 (leaves :: up) recs)
    (hs : Sorted (recs.map (·.key))) (ha : ∀ r ∈ recs, r.key ≠ key) :
    wp (emmcfsBtreeRemove tree key) (fun _ _ => False) (fun e s' => e = .enoent ∧ s' = s) False s := by
  have hheight := hu.height
  rw [List.length_cons] at hheight
  rw [emmcfsBtreeRemove, wp_bind, wp_get, btreeRemove, wp_bind, wp_get, wp_bind, wp_haltOn]
  refine ⟨fun _ => by omega, fun _ => wp_bind.mpr ?_⟩
  refine wp_mono (btreeFindLevel_returns hu (rising_of_sorted hcmp hs) hc) ?_ (fun _ _ => False.elim) False.elim
  rintro ⟨⟨id, pos⟩, path⟩ s ⟨rfl, k, hf⟩
  obtain ⟨l, q, l', rfl, rfl, _⟩ := hf.ends.exists_append
  have hget : (s.bnode id).recs[pos]? = some q := by
    rw [← hf.node]
    simp
  rw [wp_bind, wp_bnodeAt, wp_bind, wp_getRecord hget, wp_ite]
  have hne : tree.compFn q.key key ≠ 0 := fun h₀ => ha q (by simp) ((hcmp.zero_iff ..).mp h₀)
  exact ⟨fun _ => ⟨rfl, rfl⟩, fun h => absurd ⟨rfl, hne⟩ h⟩

end Leaves

end Remove

end Emmcfs
