import EmmcfsModel.Btree.Theorems.Search

namespace Emmcfs

open Code Search

variable {tree : BtreeOps κ} {s s' : Btree κ ν} {id i : Nat} {r q : BtreeRecord κ ν}
  {recs before behind : List (BtreeRecord κ ν)} {as bs ids : List Nat} {up : List (List Nat)}
  {type : NodeType}

-- A record whose node id has been changed, if there is a new one.
def BtreeRecord.changed (q : BtreeRecord κ ν) : Option Nat → BtreeRecord κ ν
  | none        => q
  | some nodeId => { q with payload := .node nodeId }

@[simp]
theorem BtreeRecord.key_changed : (q.changed c).key = q.key := by
  cases c <;> rfl

@[simp]
theorem BtreeRecord.recordLen_changed : (q.changed c).recordLen = q.recordLen := by
  cases c <;> rfl

section Steps

variable {Q : α → Btree κ ν → Prop} {E : Errno → Btree κ ν → Prop} {H : Prop}

theorem wp_changeNodeId {Q : Unit → Btree κ ν → Prop} (hr : (s.bnode id).recs = before ++ q :: behind)
    (hq : ∀ s', SameHead s s' →
      s'.bnode id = { s.bnode id with recs := before ++ q.changed c :: behind } →
      (∀ i, i ≠ id → s'.bnode i = s.bnode i) → Q () s') :
    wp (changeNodeId id before.length c) Q E H s := by
  cases c
  case none        => exact hq s .refl (by rw [BtreeRecord.changed, ← hr]) fun _ _ => rfl
  case some nodeId =>
    rw [changeNodeId, setNodeId]
    refine wp_updateBnode_of fun s' hh he hi => hq s' hh ?_ hi
    rw [he, hr]
    simp [List.modify_eq_take_cons_drop, BtreeRecord.changed]

theorem wp_insertIntoNode_of {b : Bnode κ ν} {Q : Unit → Btree κ ν → Prop} (hb : s.bnode id = b)
    (hr : b.recs = before ++ behind) (hs : b.freeSpace + usedSpace b.recs = tree.capacity)
    (hf : r.recordLen + sizeofBtOff ≤ b.freeSpace)
    (hq : ∀ s', SameHead s s' → s'.bnode id = { b with
      recs := before ++ r :: behind, freeSpace := b.freeSpace - (r.recordLen + sizeofBtOff) } →
      (∀ i, i ≠ id → s'.bnode i = s.bnode i) → Q () s') :
    wp (insertIntoNode id r before.length) Q E H s :=
  (wp_insertIntoNode hb hr hs hf).mpr (hq _ .setBnode Btree.bnode_setBnode_self
    fun _ => Btree.bnode_setBnode_of_ne)

theorem wp_formNewAddingRecord {Q : BtreeRecord κ ν → Btree κ ν → Prop} (hf : (s.bnode id).Fits tree)
    (hi : s.indexRecord tree id = some q) : wp (formNewAddingRecord tree id) Q E H s ↔ Q q s := by
  obtain ⟨x, rest, hx⟩ := List.exists_cons_of_ne_nil hf.nonempty
  have hshort := hf.short x (by simp [hx])
  cases (Btree.indexRecord_of_recs hx).symm.trans hi
  rw [formNewAddingRecord, wp_bind, wp_bnodeAt, hx, List.getElem?_cons_zero, wp_bind, wp_haltOn, wp_pure]
  exact ⟨fun h => h.right (Nat.not_lt.mpr hshort.record),
    fun h => ⟨fun hlt => absurd hshort.record (Nat.not_le.mpr hlt), fun _ => h⟩⟩

-- What pays for the levels that a call can still go up. A new root takes two nodes, and a node that is
-- given back can be taken once more.
def Btree.potential (s : Btree κ ν) : Nat :=
  2 * s.btreeHeight + s.freeNum

theorem SameHead.potential_eq (h : SameHead s s') : s'.potential = s.potential := by
  rw [Btree.potential, h.btreeHeight, h.freeNum, Btree.potential]

-- Two nodes have been taken into use.
structure Btree.Added (tree : BtreeOps κ) (s s' : Btree κ ν) (id₁ id₂ : Nat) : Prop where
  calm   : s'.Calm
  bitmap : s'.BitmapOk tree
  root   : s'.rootBnodeId = s.rootBnodeId
  height : s'.btreeHeight = s.btreeHeight
  free   : s'.freeNum + 2 = s.freeNum
  ne     : id₁ ≠ id₂
  fresh₁ : ¬s.Live id₁
  fresh₂ : ¬s.Live id₂
  live   : ∀ i, s'.Live i ↔ s.Live i ∨ i = id₁ ∨ i = id₂

theorem wp_allocPair {Q : Nat × Nat → Btree κ ν → Prop} (hc : s.Calm) (hb : s.BitmapOk tree)
    (he : ∀ s', E .enospc s')
    (hq : ∀ id₁ id₂ s', s.Added tree s' id₁ id₂ → (∀ i, s'.bnode i = s.bnode i) → Q (id₁, id₂) s') :
    wp (allocPair tree) Q E H s := by
  rw [allocPair, wp_bind, wp_onFail, wp_allocNewBnode hc hb]
  refine ⟨fun _ => he _, fun h₁ => ?_⟩
  have hc₁ : (s.taken tree).Calm := hc
  have hb₁ := hb.taken h₁
  have hl₁ : (s.taken tree).Live s.firstFreeId := (Btree.live_taken_iff hb).mpr (.inr rfl)
  rw [wp_bind, wp_onFail, wp_allocNewBnode hc₁ hb₁]
  refine ⟨fun _ => ?_, fun h₂ => hq _ _ _ ?_ fun _ => rfl⟩
  case refine_1 =>
    rw [wp_bind, wp_bugOnError, wp_destroyBnode hc₁ hl₁]
    exact he _
  case refine_2 =>
    have hfresh {t : Btree κ ν} (ht : t.BitmapOk tree) : ¬t.Live t.firstFreeId := fun hl => by
      have := hl.used
      rw [ht.clear] at this
      cases this
    exact {
      calm   := hc
      bitmap := hb₁.taken h₂
      root   := rfl
      height := rfl
      free   := by
        change s.freeNum - 1 ≠ 0 at h₂
        change s.freeNum - 1 - 1 + 2 = s.freeNum
        omega
      ne     := fun he => hfresh hb₁ (he ▸ hl₁)
      fresh₁ := hfresh hb
      fresh₂ := fun hl => hfresh hb₁ ((Btree.live_taken_iff hb).mpr (.inl hl))
      live   := fun i => by rw [Btree.live_taken_iff hb₁, Btree.live_taken_iff hb, or_assoc] }

end Steps

namespace Btree

section Update

variable {levels : List (List Nat)} {path : List (Nat × Nat)}

-- A node has other records, and the space that they leave.
theorem Level.update (h : s.Level tree type (as ++ id :: bs) recs) (hnd : (as ++ id :: bs).Nodup)
    (hh : SameHead s s') (hi : ∀ i, i ≠ id → s'.bnode i = s.bnode i)
    (hb : s'.bnode id = { s.bnode id with recs := rs, freeSpace := n })
    (hf : (s'.bnode id).Fits tree) :
    s'.Level tree type (as ++ id :: bs) (s.recsOf as ++ rs ++ s.recsOf bs) := by
  have hnot : id ∉ as ++ bs := (List.nodup_middle.mp hnd |> List.nodup_cons.mp).left
  have hrecs {is : List Nat} (hsub : ∀ i ∈ is, i ∈ as ++ bs) : s'.recsOf is = s.recsOf is :=
    recsOf_congr fun i hm => by rw [hi i fun he => hnot (he ▸ hsub i hm)]
  have hkeep {β : Type} (f : Bnode κ ν → β) (hf : f (s'.bnode id) = f (s.bnode id)) (i : Nat) :
      f (s'.bnode i) = f (s.bnode i) := by
    by_cases he : i = id
    case pos => rw [he, hf]
    case neg => rw [hi i he]
  exact {
    live    := fun i hm => hh.live_iff.mpr (h.live i hm)
    fits    := fun i hm => by
      by_cases he : i = id
      case pos => exact he ▸ hf
      case neg => rw [hi i he]; exact h.fits i hm
    typed   := fun i hm => (hkeep (·.type) (by rw [hb]) i).trans (h.typed i hm)
    linked  := h.linked.congr (fun i _ => hkeep (·.prevNodeId) (by rw [hb]) i)
      fun i _ => hkeep (·.nextNodeId) (by rw [hb]) i
    records := by
      rw [recsOf_append, recsOf_cons, hb, hrecs fun i hm => List.mem_append_left _ hm,
        hrecs fun i hm => List.mem_append_right _ hm, List.append_assoc] }

theorem indexRecords_of_keys (h : ∀ i ∈ ids, (s'.bnode i).recs.head?.map (·.key) =
    (s.bnode i).recs.head?.map (·.key)) : s'.indexRecords tree ids = s.indexRecords tree ids := by
  refine List.filterMap_congr fun i hm => ?_
  have hi (t : Btree κ ν) : t.indexRecord tree i = ((t.bnode i).recs.head?.map (·.key)).map
      fun key => ⟨key, tree.keyLen key + sizeofIndexValue, .node i⟩ := by
    rw [Option.map_map]
    rfl
  rw [hi, hi, h i hm]

theorem head_key_append {l l' : List (BtreeRecord κ ν)} (h : q.key = r.key) :
    (before ++ q :: l).head?.map (·.key) = (before ++ r :: l').head?.map (·.key) := by
  cases before
  case nil  => simpa using h
  case cons => rfl

theorem PathTo.congr (h : s.PathTo levels k path)
    (hb : ∀ i ∈ levels.flatten, (s'.bnode i).recs = (s.bnode i).recs) : s'.PathTo levels k path := by
  induction levels generalizing k path
  case nil => exact h
  case cons ids up ih =>
    obtain ⟨as, i, bs, pos, path', rfl, rfl, hlt, rfl, hp⟩ := h
    have has : s'.recsOf as = s.recsOf as :=
      recsOf_congr fun j hj => hb j (by simp [hj])
    refine ⟨as, i, bs, pos, path', rfl, rfl, ?_, by rw [has], ih hp fun j hj => hb j ?_⟩
    · rwa [hb i (by simp)]
    · exact List.mem_append_right _ hj

-- The node and the place in it to which a path leads.
theorem PathTo.exists_node {l l' : List (BtreeRecord κ ν)} (h : s.PathTo (ids :: up) l.length path)
    (hlevel : s.Level tree type ids (l ++ q :: l')) : ∃ as id bs before behind path',
      ids = as ++ id :: bs ∧ path = (id, before.length) :: path' ∧
      (s.bnode id).recs = before ++ q :: behind ∧ l = s.recsOf as ++ before ∧
      l' = behind ++ s.recsOf bs ∧ s.PathTo up as.length path' := by
  obtain ⟨as, id, bs, pos, path', rfl, rfl, hlt, hlen, hp⟩ := h
  have hget := List.getElem?_eq_getElem hlt
  generalize (s.bnode id).recs[pos] = x at hget
  obtain ⟨before, behind, hrecs, rfl⟩ := SortedList.exists_append_of_getElem? hget
  have hplace := hlevel.records
  rw [recsOf_append, recsOf_cons, hrecs, List.append_assoc, List.cons_append, ← List.append_assoc]
    at hplace
  obtain ⟨hl, hq⟩ := List.append_inj hplace (by rw [List.length_append, hlen])
  obtain ⟨rfl, hl'⟩ := List.cons.inj hq
  exact ⟨as, id, bs, before, behind, path', rfl, rfl, hrecs, hl.symm, hl'.symm, hp⟩

end Update

section Divide

-- A node has been split in two. They have its records with one more, and the others are linked to
-- them.
structure Divided (tree : BtreeOps κ) (s s' : Btree κ ν) (type : NodeType) (as bs : List Nat)
    (recs : List (BtreeRecord κ ν)) (id₁ id₂ : Nat) : Prop extends s.Added tree s' id₁ id₂ where
  level  : s'.Level tree type (as ++ [id₁, id₂] ++ bs) (s.recsOf as ++ recs ++ s.recsOf bs)
  head   : (s'.bnode id₁).recs.head? = recs.head?
  three  : ∀ i ∈ [id₁, id₂], 3 ≤ (s'.bnode i).recs.length
  kept   : ∀ i ∈ as ++ bs, (s'.bnode i).recs = (s.bnode i).recs
  others : ∀ i, s.Live i → i ∉ as ++ bs → s'.bnode i = s.bnode i

theorem getLastD_mem_or : as.getLastD 0 = 0 ∨ as.getLastD 0 ∈ as := by
  cases as
  case nil       => exact .inl rfl
  case cons i as =>
    rw [List.getLastD_cons]
    exact .inr (List.getLastD_mem_cons ..)

theorem headD_mem_or : as.headD 0 = 0 ∨ as.headD 0 ∈ as := by
  cases as
  case nil       => exact .inl rfl
  case cons i as => exact .inr List.mem_cons_self

theorem wp_divide {E : Errno → Btree κ ν → Prop} {H : Prop}
    (hlevel : s.Level tree type (as ++ id :: bs) recs) (hnd : (as ++ id :: bs).Nodup) (hc : s.Calm)
    (hb : s.BitmapOk tree) (hrecs : (s.bnode id).recs = before ++ behind) (hr : r.Short tree)
    (hfull : isNodeFull (s.bnode id) r) (he : ∀ s', E .enospc s') :
    wp (allocPair tree) (fun p => wp (splitNode tree id before.length r p.1 p.2)
      (fun _ s' => s.Divided tree s' type as bs (before ++ r :: behind) p.1 p.2) E H) E H s := by
  refine wp_allocPair hc hb he fun id₁ id₂ s₁ ha hsame => ?_
  dsimp only
  have hlive (i) (hi : i ∈ as ++ id :: bs) : s₁.Live i := (ha.live i).mpr (.inl (hlevel.live i hi))
  have hprev : (s.bnode id).prevNodeId = as.getLastD 0 := hlevel.linked.prev_eq
  have hnext : (s.bnode id).nextNodeId = bs.headD 0 := hlevel.linked.next_eq
  have has : as.getLastD 0 = 0 ∨ as.getLastD 0 ∈ as ++ id :: bs :=
    getLastD_mem_or.imp_right fun h => List.mem_append_left _ h
  have hbs : bs.headD 0 = 0 ∨ bs.headD 0 ∈ as ++ id :: bs :=
    headD_mem_or.imp_right fun h => List.mem_append_right _ (List.mem_cons_of_mem _ h)
  have hnew {n : Nat} (hn : ¬s.Live n) (hl : s₁.Live n) : n ≠ 0 ∧ n ≠ (s.bnode id).prevNodeId ∧
      n ≠ (s.bnode id).nextNodeId := by
    rw [hprev, hnext]
    refine ⟨hl.ne_zero, fun he => ?_, fun he => ?_⟩
    · exact hn (hlevel.live n (he ▸ has.resolve_left fun h₀ => hl.ne_zero (he.trans h₀)))
    · exact hn (hlevel.live n (he ▸ hbs.resolve_left fun h₀ => hl.ne_zero (he.trans h₀)))
  have hl₁ : s₁.Live id₁ := (ha.live id₁).mpr (.inr (.inl rfl))
  have hl₂ : s₁.Live id₂ := (ha.live id₂).mpr (.inr (.inr rfl))
  have hid : s.Live id := hlevel.live id (by simp)
  refine wp_splitNode (hsame id) (hlevel.fits id (by simp)) hrecs hr hfull ha.ne
    ⟨fun h => ha.fresh₁ (h ▸ hid), fun h => ha.fresh₂ (h ▸ hid)⟩ ha.calm
    (by rw [hprev]; exact has.imp_right (hlive _)) (by rw [hnext]; exact hbs.imp_right (hlive _))
    (hnew ha.fresh₁ hl₁) (hnew ha.fresh₂ hl₂) ?_
  intro s₂ hh hp₁ hp₂ hsplit ht₁ ht₂ hi hthree
  have hrelinked (i) (hi' : s.Live i) :
      s₂.bnode i = s.relinked (as.getLastD 0) id₁ (bs.headD 0) id₂ i := by
    rw [hi i hi'.ne_zero (fun h => ha.fresh₁ (h ▸ hi')) fun h => ha.fresh₂ (h ▸ hi'), hprev, hnext,
      relinked, hsame]
    rfl
  have hold (i) (hm : i ∈ as ++ bs) : s.Live i := hlevel.live i (by
    simp only [List.mem_append, List.mem_cons] at hm ⊢
    tauto)
  refine {
    calm   := hh.calm ha.calm
    bitmap := hh.bitmapOk ha.bitmap
    root   := hh.rootBnodeId.trans ha.root
    height := hh.btreeHeight.trans ha.height
    free   := hh.freeNum ▸ ha.free
    ne     := ha.ne
    fresh₁ := ha.fresh₁
    fresh₂ := ha.fresh₂
    live   := fun i => hh.live_iff.trans (ha.live i)
    level  := ?level
    head   := ?head
    three  := by simpa using hthree
    kept   := fun i hm => by rw [hrelinked i (hold i hm)]; rfl
    others := fun i hl hm => ?others }
  case level =>
    rw [← List.singleton_append, ← List.append_assoc] at hlevel
    have hmid : s₂.recsOf [id₁, id₂] = before ++ r :: behind := by simp [hsplit]
    rw [← hmid]
    refine hlevel.replace ?_ (fun i hm => ⟨?_, hrelinked i (hold i hm)⟩) ?_ ?_
    · exact (List.nodup_cons.mp (List.nodup_middle.mp hnd)).right
    · exact hh.live_iff.mpr ((ha.live i).mpr (.inl (hold i hm)))
    · have htype := hlevel.typed id (by simp)
      intro i hm
      rcases List.mem_pair.mp hm with rfl | rfl
      · exact ⟨hh.live_iff.mpr hl₁, hp₁.fits, ht₁.left.trans htype⟩
      · exact ⟨hh.live_iff.mpr hl₂, hp₂.fits, ht₂.left.trans htype⟩
    · exact ⟨ht₁.right.left.trans hprev, ht₁.right.right, ht₂.right.left, ht₂.right.right.trans hnext,
        trivial⟩
  case head =>
    obtain ⟨x, rest, hx⟩ := List.exists_cons_of_ne_nil hp₁.fits.nonempty
    rw [hsplit, hx]
    rfl
  case others =>
    have h₁ : i ≠ as.getLastD 0 := fun he => hm (List.mem_append_left _
      (he ▸ getLastD_mem_or.resolve_left fun h₀ => hl.ne_zero (he.trans h₀)))
    have h₂ : i ≠ bs.headD 0 := fun he => hm (List.mem_append_right _
      (he ▸ headD_mem_or.resolve_left fun h₀ => hl.ne_zero (he.trans h₀)))
    rw [hrelinked i hl, relinked, if_neg h₁, if_neg h₂]

end Divide

-- The records of the levels have become others, in nodes that were theirs or not in use.
structure Grown (tree : BtreeOps κ) (s : Btree κ ν) (level : Nat) (levels : List (List Nat))
    (recs : List (BtreeRecord κ ν)) (s' : Btree κ ν) : Prop where
  calm  : s'.Calm
  upper : ∃ ids up, s'.Upper tree level (ids :: up) recs ∧
    Replaced s s' levels.flatten (ids :: up).flatten

-- A record has been inserted behind the one at place `k` of the lowest level. The node with that place
-- has more than two records, or more than some node of the level had before.
structure Inserted (tree : BtreeOps κ) (s : Btree κ ν) (level : Nat) (ids : List Nat)
    (up : List (List Nat)) (k : Nat) (recs : List (BtreeRecord κ ν)) (s' : Btree κ ν) : Prop where
  calm      : s'.Calm
  potential : s'.potential ≤ s.potential
  upper     : ∃ ids' up', s'.Upper tree level (ids' :: up') recs ∧
    Replaced s s' (ids :: up).flatten (ids' :: up').flatten ∧
    Widened s s' (ids :: up).flatten (ids' :: up').flatten ∧
    ∀ id pos, (s'.places ids')[k]? = some (id, pos) → 3 ≤ (s'.bnode id).recs.length ∨
      ∃ i ∈ ids, (s.bnode i).recs.length < (s'.bnode id).recs.length

theorem Inserted.grown (h : Inserted tree s level ids up k recs s') :
    Grown tree s level (ids :: up) recs s' := by
  obtain ⟨hcalm, _, ids', up', hu, hrep, _⟩ := h
  exact ⟨hcalm, ids', up', hu, hrep⟩

section Loop

variable {level : Nat} {rs : List (BtreeRecord κ ν)}

-- The records of one node change, but not its first key.
theorem Upper.update (hu : s.Upper tree level ((as ++ id :: bs) :: up) recs) (hh : SameHead s s')
    (hi : ∀ i, i ≠ id → s'.bnode i = s.bnode i)
    (hb : s'.bnode id = { s.bnode id with recs := rs, freeSpace := n }) (hf : (s'.bnode id).Fits tree)
    (hkey : rs.head?.map (·.key) = (s.bnode id).recs.head?.map (·.key)) :
    s'.Upper tree level ((as ++ id :: bs) :: up) (s.recsOf as ++ rs ++ s.recsOf bs) := by
  obtain ⟨hnd, _, hdis⟩ := List.nodup_append.mp (List.flatten_cons ▸ hu.nodup)
  have hup (i) (hm : i ∈ up.flatten) : i ≠ id := fun he => hdis id (by simp) i hm he.symm
  refine ⟨⟨hu.shape.left.update hnd hh hi hb hf, ?_⟩, hu.nodup, hh.bitmapOk hu.bitmap, ?_⟩
  · have hindex : s'.indexRecords tree (as ++ id :: bs) = s.indexRecords tree (as ++ id :: bs) := by
      refine indexRecords_of_keys fun i _ => ?_
      by_cases he : i = id
      case pos => rw [he, hb, ← hkey]
      case neg => rw [hi i he]
    rw [hindex]
    exact hu.shape.right.congr (fun i hm => hh.live_iff.mpr (hu.shape.right.live i hm))
      (fun i hm => hi i (hup i hm)) hh.rootBnodeId
  · rw [hu.height, hh.btreeHeight]

theorem Replaced.update (hh : SameHead s s') (hi : ∀ i, i ≠ id → s'.bnode i = s.bnode i)
    (hid : id ∈ ids) : Replaced s s' ids ids :=
  ⟨fun i hm hl => ⟨hh.live_iff.mpr hl, hi i fun he => hm (he ▸ hid)⟩, fun _ => .inl⟩

-- The record goes to a node that has room for it.
theorem wp_insertHere {E : Errno → Btree κ ν → Prop} {H : Prop} (hc : s.Calm)
    (hu : s.Upper tree level ((as ++ id :: bs) :: up) recs)
    (hrecs : (s.bnode id).recs = before ++ q :: behind) (hr : r.Short tree)
    (hroom : ¬isNodeFull (s.bnode id) r) : wp (insertIntoNode id r (before.length + 1))
      (fun _ => Inserted tree s level (as ++ id :: bs) up ((s.recsOf as).length + before.length)
        (s.recsOf as ++ (before ++ q :: r :: behind) ++ s.recsOf bs)) E H s := by
  have hfits := hu.shape.left.fits id (by simp)
  have hspace := hfits.space
  have hsplit : (s.bnode id).recs = (before ++ [q]) ++ behind := by simp [hrecs]
  have hlen : before.length + 1 = (before ++ [q]).length := by simp
  rw [hlen]
  refine wp_insertIntoNode_of rfl hsplit hspace (Nat.not_lt.mp hroom) fun s' hh hb hi => ?_
  rw [List.append_assoc, List.singleton_append] at hb
  have hnot : id ∉ as := fun hm =>
    (List.nodup_append.mp hu.apart.left).right.right id hm id (by simp) rfl
  have has : s'.recsOf as = s.recsOf as :=
    recsOf_congr fun i hm => by rw [hi i fun he => hnot (he ▸ hm)]
  have hmore : (s'.bnode id).recs.length = (s.bnode id).recs.length + 1 := by
    rw [hb, hrecs]
    simp only [List.length_append, List.length_cons]
    omega
  refine ⟨hh.calm hc, hh.potential_eq.le, _, _, hu.update hh hi hb ?_ ?_, .update hh hi (by simp),
    fun i hm => .inr ⟨hm, ?_⟩, fun i pos hloc => .inr ⟨id, by simp, ?_⟩⟩
  · rw [hb]
    rw [hrecs] at hspace
    simp only [isNodeFull, Nat.not_lt] at hroom
    refine ⟨by simp, ?_, fun x hx => ?_⟩
    · simp only [usedSpace_append, usedSpace_cons] at hspace ⊢
      omega
    · by_cases he : x = r
      case pos => exact he ▸ hr
      case neg => exact hfits.short x (by rw [hrecs]; simpa [he] using hx)
  · rw [hrecs]
    exact head_key_append rfl
  · by_cases he : i = id
    case pos => rw [he, hmore]; omega
    case neg => rw [hi i he]
  · rw [← has] at hloc
    have hone : as ++ id :: bs = as ++ [id] ++ bs := by simp
    have hm := mem_middle_of_places (hone ▸ hloc) (Nat.le_add_right ..) (by
      rw [recsOf_cons, recsOf_nil, List.append_nil, hb, List.length_append, List.length_cons]
      omega)
    rw [List.mem_singleton.mp hm]
    omega

theorem wp_checkReserveAt {Q : Unit → Btree κ ν → Prop} {E : Errno → Btree κ ν → Prop} {H : Prop}
    (hc : s.Calm) : wp (checkReserveAt tree level) Q E H s ↔ Q () s := by
  rw [checkReserveAt]
  split
  · rw [checkBnodeReserve, wp_bind, wp_get]
    dsimp only
    split
    · rfl
    · exact wp_request_of hc
  · rfl

-- The node `id` is the root above what it was before.
structure Rooted (tree : BtreeOps κ) (s s' : Btree κ ν) (id : Nat)
    (recs : List (BtreeRecord κ ν)) : Prop where
  calm   : s'.Calm
  bitmap : s'.BitmapOk tree
  live   : ∀ i, s'.Live i ↔ s.Live i
  root   : s'.rootBnodeId = id
  height : s'.btreeHeight = s.btreeHeight + 1
  free   : s'.freeNum = s.freeNum
  node   : ∃ n, s'.bnode id = ⟨.index, recs, n, 0, 0⟩ ∧ n + usedSpace recs = tree.capacity
  others : ∀ i, i ≠ id → s'.bnode i = s.bnode i

theorem wp_updateRootDescriptor {E : Errno → Btree κ ν → Prop} {H : Prop}
    {first second : BtreeRecord κ ν} (hc : s.Calm) (hb : s.BitmapOk tree) (h₁ : first.Short tree)
    (h₂ : second.Short tree) : wp (updateRootDescriptor tree id first second n)
      (fun _ s' => s.Rooted tree s' id [first.changed (some n), second]) E H s := by
  have hmax := tree.record_len_le
  have hsize := tree.node_size_ge
  have hcap := tree.capacity_eq
  have hlen₁ := h₁.record
  have hlen₂ := h₂.record
  rw [updateRootDescriptor, initNewNodeDescr, tree.u16_capacity, wp_bind]
  refine wp_updateBnode_of fun s₁ hh₁ he₁ hi₁ => ?_
  rw [wp_bind]
  have hempty : tree.capacity + usedSpace ([] : List (BtreeRecord κ ν)) = tree.capacity := rfl
  refine wp_insertIntoNode_of he₁ (List.nil_append []).symm hempty ?_ fun s₂ hh₂ he₂ hi₂ => ?_
  · simp only [sizeofBtOff]
    omega
  have hone : tree.capacity - (first.recordLen + sizeofBtOff) + usedSpace [first] = tree.capacity := by
    simp only [usedSpace_cons, usedSpace_nil, sizeofBtOff]
    omega
  rw [wp_bind]
  refine wp_insertIntoNode_of he₂ (List.append_nil [first]).symm hone ?_ fun s₃ hh₃ he₃ hi₃ => ?_
  · simp only [sizeofBtOff]
    omega
  rw [wp_bind]
  have htwo : (s₃.bnode id).recs = [] ++ first :: [second] := by
    rw [he₃]
    rfl
  refine wp_changeNodeId (c := some n) htwo fun s₄ hh₄ he₄ hi₄ => ?_
  have hh := ((hh₁.trans hh₂).trans hh₃).trans hh₄
  have hcalm := hh.calm hc
  rw [he₃] at he₄
  have hcalm' : Calm { s₄ with btreeHeight := s₄.btreeHeight + 1 } := hcalm
  rw [wp_bind, btreeIncHeight, wp_bind, wp_bugOnError, wp_request_of hcalm, wp_modify, btreeSetRootId,
    wp_bind, wp_bugOnError, wp_request_of hcalm', wp_modify]
  have hbitmap := hh.bitmapOk hb
  exact {
    calm   := hcalm
    bitmap := ⟨hbitmap.head, hbitmap.lt, hbitmap.count, hbitmap.least, hbitmap.clear⟩
    live   := fun i => ⟨fun h => hh.live_iff.mp ⟨h.ne_zero, h.used⟩, fun h =>
      have h' := hh.live_iff.mpr h
      ⟨h'.ne_zero, h'.used⟩⟩
    root   := rfl
    height := congrArg (· + 1) hh.btreeHeight
    free   := hh.freeNum
    node   := ⟨_, he₄, by
      simp only [usedSpace_cons, usedSpace_nil, BtreeRecord.recordLen_changed, sizeofBtOff]
      omega⟩
    others := fun i hne => by
      refine (hi₄ i hne).trans ?_
      rw [hi₃ i hne, hi₂ i hne, hi₁ i hne] }

end Loop

end Btree

end Emmcfs
