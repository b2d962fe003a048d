import EmmcfsModel.Btree.Theorems.InsertSteps

namespace Emmcfs

open Code Search

variable {tree : BtreeOps κ} {s s' s₂ : Btree κ ν} {id i id₁ id₂ level : Nat}
  {r q first second : BtreeRecord κ ν} {recs rs before behind : List (BtreeRecord κ ν)}
  {as bs ids : List Nat} {up : List (List Nat)} {type : NodeType}

theorem Bnode.Fits.indexRecord (h : (s.bnode id).Fits tree) : ∃ q, s.indexRecord tree id = some q := by
  obtain ⟨_, _, _, hq⟩ := Btree.exists_indexRecord h.nonempty
  exact ⟨_, hq⟩

namespace Btree

section Root

-- The top level is the root.
theorem Levels.single (h : s.Levels tree type [ids] recs) : ids = [s.rootBnodeId] := by
  obtain ⟨hlevel, r, hr, hroot⟩ := h
  have hne (i) (hi : i ∈ ids) : (s.bnode i).recs ≠ [] := (hlevel.fits i hi).nonempty
  have hlen := @length_indexRecords _ _ tree s ids hne
  have hget := getElem?_indexRecords hne (show (s.indexRecords tree ids)[0]? = some r by rw [hr]; rfl)
  rw [hr, List.length_singleton] at hlen
  obtain ⟨i, rfl⟩ := List.length_eq_one_iff.mp hlen.symm
  cases hget
  rw [BtreeRecord.nodeId, hroot]

theorem Levels.root_mem (h : s.Levels tree type (ids :: up) recs) :
    s.rootBnodeId ∈ (ids :: up).flatten := by
  induction up generalizing ids type recs
  case nil            => simp [h.single]
  case cons ids' up ih => exact List.mem_append_right _ (ih h.right)

end Root

section Divided

theorem indexRecord_changed
    (hkey : (s'.bnode i).recs.head?.map (·.key) = (s.bnode id).recs.head?.map (·.key))
    (hfirst : s.indexRecord tree id = some first) :
    s'.indexRecord tree i = some (first.changed (some i)) := by
  obtain ⟨x, hx, rfl⟩ := Option.map_eq_some_iff.mp hfirst
  rw [hx, Option.map_some] at hkey
  obtain ⟨y, hy, hk⟩ := Option.map_eq_some_iff.mp hkey
  rw [indexRecord, hy, Option.map_some, hk]
  rfl

theorem Added.ne_of_live (ha : s.Added tree s' id₁ id₂) (hl : s.Live i) : i ≠ id₁ ∧ i ≠ id₂ :=
  ⟨fun he => ha.fresh₁ (he ▸ hl), fun he => ha.fresh₂ (he ▸ hl)⟩

theorem short_indexRecord (hf : (s.bnode id).Fits tree) (hi : s.indexRecord tree id = some q) :
    q.Short tree := by
  obtain ⟨x, hx, rfl⟩ := Option.map_eq_some_iff.mp hi
  have := (hf.short x (List.mem_of_mem_head? hx)).index
  exact ⟨this, this⟩

-- The root has been split, and there is a new one above.
theorem Divided.inserted_root (hu : s.Upper tree level [[id]] recs)
    (hd : s.Divided tree s₂ (typeAt level) [] [] rs id₁ id₂)
    (hkey : rs.head?.map (·.key) = (s.bnode id).recs.head?.map (·.key))
    (hfirst : s.indexRecord tree id = some first) (hsecond : s₂.indexRecord tree id₂ = some second)
    (hro : s₂.Rooted tree s' id [first.changed (some id₁), second]) :
    Inserted tree s level [id] [] k rs s' := by
  have hid : s.Live id := hu.shape.left.live id (by simp)
  have hne := hd.ne_of_live hid
  have hdl := hd.level
  simp only [List.nil_append, List.append_nil, recsOf_nil] at hdl
  have hpair (i) (hi : i ∈ [id₁, id₂]) : s'.bnode i = s₂.bnode i := by
    refine hro.others i fun he => ?_
    subst he
    simp [hne.left, hne.right] at hi
  have hi₁ : s'.indexRecord tree id₁ = some (first.changed (some id₁)) :=
    indexRecord_changed (by rw [hpair id₁ (by simp), hd.head, hkey]) hfirst
  have hi₂ : s'.indexRecord tree id₂ = some second := by
    rw [indexRecord, hpair id₂ (by simp)]
    exact hsecond
  obtain ⟨n, hnode, hspace⟩ := hro.node
  have hshort : ∀ x ∈ [first.changed (some id₁), second], x.Short tree := by
    have h₁ := short_indexRecord (hu.shape.left.fits id (by simp)) hfirst
    have h₂ := short_indexRecord (hdl.fits id₂ (by simp)) hsecond
    simp only [List.mem_cons, List.not_mem_nil, or_false, forall_eq_or_imp, forall_eq]
    exact ⟨⟨h₁.record, h₁.index⟩, h₂⟩
  have hlive : s'.Live id := (hro.live id).mpr ((hd.live id).mpr (.inl hid))
  have hroot : s'.Level tree .index [id] (s'.indexRecords tree [id₁, id₂]) := by
    rw [indexRecords_cons hi₁, indexRecords_cons hi₂]
    exact {
      live    := by simpa using hlive
      fits    := by simpa [hnode] using (⟨by simp, hspace, hshort⟩ : Bnode.Fits tree ⟨_, _, n, 0, 0⟩)
      typed   := by simp [hnode]
      linked  := by simp [Linked, hnode]
      records := by simp [hnode, indexRecords] }
  have hthree (i) (hi : i ∈ [id₁, id₂]) : 3 ≤ (s'.bnode i).recs.length :=
    hpair i hi ▸ hd.three i hi
  have hlevel := hdl.congr (fun i hi => (hro.live i).mpr (hdl.live i hi)) hpair
  have hpot : s'.potential ≤ s.potential := by
    rw [potential, potential, hro.height, hro.free, hd.height, ← hd.free]
    omega
  refine ⟨hro.calm, hpot, [id₁, id₂], [[id]], ⟨⟨hlevel, hroot, ?_⟩, ?_, hro.bitmap, ?_⟩,
    ⟨fun i hm hl => ?_, ?_⟩, ?_, fun i pos hloc => .inl (hthree i ?_)⟩
  · obtain ⟨x, _, _, hx⟩ := @exists_indexRecord _ _ tree s' id (by simp [hnode])
    exact ⟨_, by rw [indexRecords_cons hx]; rfl, by rw [hro.root]⟩
  · simp [hd.ne, hne.left.symm, hne.right.symm]
  · have := hu.height
    simp only [List.length_cons, List.length_nil] at this ⊢
    rw [hro.height, hd.height]
    omega
  · simp only [List.flatten_cons, List.flatten_nil, List.append_nil, List.mem_singleton] at hm
    exact ⟨(hro.live i).mpr ((hd.live i).mpr (.inl hl)),
      (hro.others i hm).trans (hd.others i hl (by simp))⟩
  · simp only [List.flatten_cons, List.flatten_nil, List.append_nil, List.mem_append, List.mem_cons,
      List.not_mem_nil, or_false]
    rintro i ((rfl | rfl) | rfl)
    · exact .inr hd.fresh₁
    · exact .inr hd.fresh₂
    · exact .inl rfl
  · intro i hm
    refine .inl ((List.mem_append.mp hm).elim (fun hi => ?_) fun hi => ?_)
    · exact (Nat.le_succ 2).trans (hthree i hi)
    · rw [List.mem_singleton.mp hi, hnode]
      exact le_rfl
  · exact mem_of_places hloc

section Above

variable (hu : s.Upper tree level ((as ++ id :: bs) :: up) recs)
  (hd : s.Divided tree s₂ (typeAt level) as bs rs id₁ id₂)

include hu hd

-- The levels above are as they were when the node that has been split is given back.
theorem Divided.upper (hlevel : 1 ≤ level) :
    (s₂.given id).Upper tree (level + 1) up (s.indexRecords tree (as ++ id :: bs)) := by
  obtain ⟨_, _, hdis⟩ := List.nodup_append.mp (List.flatten_cons ▸ hu.nodup)
  have hid : s₂.Live id := (hd.live id).mpr (.inl (hu.shape.left.live id (by simp)))
  refine hu.above hlevel (fun i hm => ?_) (hd.bitmap.given hid) hd.root hd.height
  have hlive := hu.shape.right.live i hm
  have hnot : i ∉ as ++ id :: bs := fun h => hdis i h i hm rfl
  refine ⟨(live_given_iff hid).mpr ⟨(hd.live i).mpr (.inl hlive), fun he => hnot (by simp [he])⟩, ?_⟩
  exact hd.others i hlive fun h => hnot (by
    simp only [List.mem_append, List.mem_cons] at h ⊢
    tauto)

theorem Divided.kept_above (hm : i ∈ up.flatten) : ((s₂.given id).bnode i).recs = (s.bnode i).recs := by
  obtain ⟨_, _, hdis⟩ := List.nodup_append.mp (List.flatten_cons ▸ hu.nodup)
  have hnot : i ∉ as ++ id :: bs := fun h => hdis i h i hm rfl
  rw [bnode_given, hd.others i (hu.shape.right.live i hm) fun h => hnot (by
    simp only [List.mem_append, List.mem_cons] at h ⊢
    tauto)]

-- The nodes of the level stand for the old one, whatever becomes of the levels above.
theorem Divided.replaced : Replaced s (s₂.given id) (as ++ id :: bs) (as ++ [id₁, id₂] ++ bs) := by
  have hid : s₂.Live id := (hd.live id).mpr (.inl (hu.shape.left.live id (by simp)))
  refine ⟨fun i hm hl => ⟨?_, ?_⟩, fun i hm => ?_⟩
  · refine (live_given_iff hid).mpr ⟨(hd.live i).mpr (.inl hl), fun he => hm (by simp [he])⟩
  · exact hd.others i hl fun h => hm (by
      simp only [List.mem_append, List.mem_cons] at h ⊢
      tauto)
  · simp only [List.mem_append, List.mem_cons, List.not_mem_nil, or_false] at hm ⊢
    rcases hm with (hm | rfl | rfl) | hm
    · exact .inl (.inl hm)
    · exact .inr hd.fresh₁
    · exact .inr hd.fresh₂
    · exact .inl (.inr (.inr hm))

theorem Divided.nodup : (as ++ [id₁, id₂] ++ bs).Nodup := by
  obtain ⟨hnd, _, _⟩ := List.nodup_append.mp (List.flatten_cons ▸ hu.nodup)
  have hnd := (List.nodup_cons.mp (List.nodup_middle.mp hnd)).right
  have hnot {i : Nat} (hn : ¬s.Live i) : i ∉ as ++ bs := fun hm => hn (hu.shape.left.live i (by
    simp only [List.mem_append, List.mem_cons] at hm ⊢
    tauto))
  have h₁ := hnot hd.fresh₁
  have h₂ : (as ++ id₂ :: bs).Nodup :=
    List.nodup_middle.mpr (List.nodup_cons.mpr ⟨hnot hd.fresh₂, hnd⟩)
  rw [List.append_assoc, List.cons_append, List.singleton_append]
  refine List.nodup_middle.mpr (List.nodup_cons.mpr ⟨fun hm => ?_, h₂⟩)
  simp only [List.mem_append, List.mem_cons, not_or] at hm h₁
  have := hd.ne
  tauto

theorem Divided.inserted_above (hk : k < rs.length)
    (hkey : rs.head?.map (·.key) = (s.bnode id).recs.head?.map (·.key))
    (hfirst : s.indexRecord tree id = some first) (hsecond : s₂.indexRecord tree id₂ = some second)
    (hlevel : 1 ≤ level)
    (hg : Inserted tree (s₂.given id) (level + 1) ids' up' k' (s.indexRecords tree as ++
      first.changed (some id₁) :: second :: s.indexRecords tree bs) s') (hup : up = ids' :: up') :
    Inserted tree s level (as ++ id :: bs) up ((s.recsOf as).length + k)
      (s.recsOf as ++ rs ++ s.recsOf bs) s' := by
  subst hup
  obtain ⟨hcalm, hpot, ids'', up'', hu', hrep, hfill, _⟩ := hg
  obtain ⟨hnd, _, hdis⟩ := List.nodup_append.mp (List.flatten_cons ▸ hu.nodup)
  have hlow := hd.replaced hu
  have hid : s₂.Live id := (hd.live id).mpr (.inl (hu.shape.left.live id (by simp)))
  -- the nodes of this level are in use and not among those above
  have hmine (i) (hm : i ∈ as ++ [id₁, id₂] ++ bs) :
      (s₂.given id).Live i ∧ i ∉ (ids' :: up').flatten := by
    have hor := hlow.fresh i hm
    have hne : i ≠ id := fun he => by
      have hnot : id ∉ as ++ bs := (List.nodup_middle.mp hnd |> List.nodup_cons.mp).left
      have := hd.ne_of_live (hu.shape.left.live id (by simp))
      simp only [List.mem_append, List.mem_cons, List.not_mem_nil, or_false, he] at hm hnot
      tauto
    refine ⟨(live_given_iff hid).mpr ⟨hd.level.live i hm, hne⟩, fun hup => ?_⟩
    exact hor.elim (fun h => hdis i h i hup rfl) fun h => h (hu.shape.right.live i hup)
  have hkeep (i) (hm : i ∈ as ++ [id₁, id₂] ++ bs) : s'.Live i ∧ s'.bnode i = s₂.bnode i :=
    hrep.keep i (hmine i hm).right (hmine i hm).left
  have hsame (i) (hm : i ∈ as ++ bs) : (s'.bnode i).recs = (s.bnode i).recs := by
    rw [(hkeep i (by simp only [List.mem_append] at hm ⊢; tauto)).right, hd.kept i hm]
  have hindex : (s₂.given id).indexRecords tree (as ++ [id₁, id₂] ++ bs) = s.indexRecords tree as ++
      first.changed (some id₁) :: second :: s.indexRecords tree bs := by
    have hkept {is : List Nat} (hsub : ∀ i ∈ is, i ∈ as ++ bs) :
        (s₂.given id).indexRecords tree is = s.indexRecords tree is :=
      indexRecords_congr fun i hi => by rw [bnode_given, hd.kept i (hsub i hi)]
    have hi₁ : (s₂.given id).indexRecord tree id₁ = some (first.changed (some id₁)) :=
      indexRecord_changed (by rw [bnode_given, hd.head, hkey]) hfirst
    have hi₂ : (s₂.given id).indexRecord tree id₂ = some second := hsecond
    rw [indexRecords_append, indexRecords_append, indexRecords_cons hi₁, indexRecords_cons hi₂,
      hkept fun i hi => List.mem_append_left _ hi, hkept fun i hi => List.mem_append_right _ hi]
    simp [indexRecords]
  have hgiven : (s₂.given id).Level tree (typeAt level) (as ++ [id₁, id₂] ++ bs)
      (s.recsOf as ++ rs ++ s.recsOf bs) :=
    hd.level.congr (fun i hm => (hmine i hm).left) fun _ _ => rfl
  obtain ⟨hupper, hrep'⟩ := hgiven.under (hd.nodup hu) (fun i hm => (hmine i hm).right) hlevel
    (by rwa [hindex]) hrep
  have hthree (i) (hi : i ∈ [id₁, id₂]) : 3 ≤ (s'.bnode i).recs.length := by
    rw [(hkeep i (by simp only [List.mem_append]; tauto)).right]
    exact hd.three i hi
  have hpot' : s'.potential ≤ s.potential := by
    refine hpot.trans ?_
    change 2 * s₂.btreeHeight + (s₂.freeNum + 1) ≤ 2 * s.btreeHeight + s.freeNum
    rw [hd.height, ← hd.free]
    omega
  refine ⟨hcalm, hpot', _, _, hupper, Replaced.trans ⟨fun i hm hl => ?_, fun i hm => ?_⟩ hrep', fun i hm => ?_,
    fun i pos hloc => .inl (hthree i ?_)⟩
  · exact hlow.keep i (fun h => hm (List.mem_append_left _ h)) hl
  · rcases List.mem_append.mp hm with hm | hm
    · exact (hlow.fresh i hm).imp_left (List.mem_append_left _)
    · exact .inl (List.mem_append_right _ hm)
  · rcases List.mem_append.mp hm with hm | hm
    · by_cases hnew : i ∈ [id₁, id₂]
      case pos => exact .inl ((Nat.le_succ 2).trans (hthree i hnew))
      case neg =>
        have hold : i ∈ as ++ bs := by
          simp only [List.mem_append] at hm hnew ⊢
          tauto
        refine .inr ⟨List.mem_append_left _ ?_, by rw [hsame i hold]⟩
        simp only [List.mem_append, List.mem_cons] at hold ⊢
        tauto
    · rcases hfill i hm with h | ⟨hm, hle⟩
      · exact .inl h
      · rw [hd.kept_above hu hm] at hle
        exact .inr ⟨List.mem_append_right _ hm, hle⟩
  · have has : s'.recsOf as = s.recsOf as :=
      recsOf_congr fun i hi => hsame i (List.mem_append_left _ hi)
    have hbs : s'.recsOf bs = s.recsOf bs :=
      recsOf_congr fun i hi => hsame i (List.mem_append_right _ hi)
    have hlen := congrArg List.length hupper.shape.left.records
    simp only [recsOf_append, List.length_append, has, hbs] at hlen
    rw [← has] at hloc
    exact mem_middle_of_places hloc (Nat.le_add_right ..) (by rw [has]; omega)

end Above

end Divided

section Loop

-- The loop of an insertion, from a level up: the record comes behind the one at the place where the
-- path leads to. It fails only if there are no free nodes.
def InsertsAt (tree : BtreeOps κ) (ν : Type) (level : Nat) (ids : List Nat)
    (up : List (List Nat)) : Prop :=
  ∀ {s : Btree κ ν} {l l' : List (BtreeRecord κ ν)} {q r : BtreeRecord κ ν}
    {path : List (Nat × Nat)} {c : Option Nat}, s.Calm → s.Upper tree level (ids :: up) (l ++ q :: l') →
    s.PathTo (ids :: up) l.length path → r.Short tree → wp (insertLoop tree path level r c)
      (fun _ => Inserted tree s level ids up l.length (l ++ q.changed c :: r :: l'))
      (fun e _ => e = .enospc) False s

-- The node is full, and the one above it is next.
theorem wp_insertSplit (hlevel : 1 ≤ level)
    (habove : ∀ ids' up', up = ids' :: up' → InsertsAt tree ν (level + 1) ids' up')
    (hu : s.Upper tree level ((as ++ id :: bs) :: up) recs) (hp : s.PathTo up as.length path)
    (hrecs : (s.bnode id).recs = before ++ q :: behind)
    (hd : s.Divided tree s₂ (typeAt level) as bs (before ++ [q] ++ r :: behind) id₁ id₂) :
    wp (do
      let second ← formNewAddingRecord tree id₂
      let s ← Code.get
      if id = s.rootBnodeId then
        let first ← formNewAddingRecord tree id
        updateRootDescriptor tree id first second id₁
      else
        bugOnError (destroyBnode tree id)
        insertLoop tree path (level + 1) second (some id₁))
      (fun _ => Inserted tree s level (as ++ id :: bs) up ((s.recsOf as).length + before.length)
        (s.recsOf as ++ (before ++ q :: r :: behind) ++ s.recsOf bs))
      (fun e _ => e = .enospc) False s₂ := by
  have hlive := hu.shape.left.live id (by simp)
  have hfits₂ := hd.level.fits id₂ (by simp)
  have hfits := hu.shape.left.fits id (by simp)
  obtain ⟨hnd, -, hdis⟩ := List.nodup_append.mp (List.flatten_cons ▸ hu.nodup)
  have hsame : s₂.bnode id = s.bnode id :=
    hd.others id hlive (List.nodup_cons.mp (List.nodup_middle.mp hnd)).left
  obtain ⟨second, hsecond⟩ := hfits₂.indexRecord
  obtain ⟨first, hfirst⟩ := hfits.indexRecord
  rw [List.append_assoc, List.singleton_append] at hd
  have hkey : (before ++ q :: r :: behind).head?.map (·.key) =
      (s.bnode id).recs.head?.map (·.key) := hrecs ▸ head_key_append rfl
  have hplace : before.length < (before ++ q :: r :: behind).length := by simp
  rw [wp_bind, wp_formNewAddingRecord hfits₂ hsecond, wp_bind, wp_get, hd.root]
  cases up
  case nil =>
    have hids := hu.shape.single
    have hlen := congrArg List.length hids
    rw [List.length_append, List.length_cons, List.length_singleton] at hlen
    obtain rfl := List.eq_nil_of_length_eq_zero (show as.length = 0 by omega)
    obtain rfl := List.eq_nil_of_length_eq_zero (show bs.length = 0 by omega)
    have hroot : id = s.rootBnodeId := List.head_eq_of_cons_eq hids
    rw [indexRecord, ← hsame] at hfirst
    rw [if_pos hroot, wp_bind, wp_formNewAddingRecord (hsame ▸ hfits) hfirst]
    rw [hsame] at hfirst
    refine wp_mono (wp_updateRootDescriptor hd.calm hd.bitmap (short_indexRecord hfits hfirst)
      (short_indexRecord hfits₂ hsecond)) (fun _ s' hro => ?_) (fun _ _ => False.elim) False.elim
    rw [recsOf_nil, List.nil_append, List.append_nil, List.length_nil, Nat.zero_add]
    exact hd.inserted_root hu hkey hfirst hsecond hro
  case cons ids' up =>
    have hne : id ≠ s.rootBnodeId := fun he =>
      hdis id (by simp) id (he ▸ hu.shape.right.root_mem) rfl
    rw [if_neg hne, wp_bind, wp_bugOnError, wp_destroyBnode hd.calm ((hd.live id).mpr (.inl hlive))]
    have hindex : s.indexRecords tree (as ++ id :: bs) = s.indexRecords tree as ++
        first :: s.indexRecords tree bs := by
      rw [indexRecords_append, indexRecords_cons hfirst]
    have hup := hd.upper hu hlevel
    rw [hindex] at hup
    have hlen : (s.indexRecords tree as).length = as.length :=
      length_indexRecords fun i hi => (hu.shape.left.fits i (by simp [hi])).nonempty
    refine wp_imp (habove ids' up rfl hd.calm hup ?_ (short_indexRecord hfits₂ hsecond))
      fun _ s' hg => hd.inserted_above hu hplace hkey hfirst hsecond hlevel hg rfl
    rw [hlen]
    exact hp.congr fun i hm => hd.kept_above hu hm

theorem insertsAt_cons (hlevel : 1 ≤ level)
    (habove : ∀ ids' up', up = ids' :: up' → InsertsAt tree ν (level + 1) ids' up') :
    InsertsAt tree ν level ids up := by
  intro s l l' q r path c hc hu hpath hr
  obtain ⟨as, id, bs, before, behind, path', rfl, rfl, hrecs, rfl, rfl, hp⟩ :=
    hpath.exists_node hu.shape.left
  rw [insertLoop, wp_bind]
  refine wp_changeNodeId hrecs fun s₁ hh₁ hb₁ hi₁ => ?_
  have hfits := hu.shape.left.fits id (by simp)
  have hfits₁ : (s₁.bnode id).Fits tree := by
    rw [hb₁]
    refine ⟨by simp, ?_, fun y hy => ?_⟩
    · have := hfits.space
      rw [hrecs] at this
      simpa using this
    · rcases List.mem_append.mp hy with hy | hy
      · exact hfits.short y (by simp [hrecs, hy])
      · rcases List.mem_cons.mp hy with rfl | hy
        · have := hfits.short q (by simp [hrecs])
          exact ⟨by simpa using this.record, by simpa using this.index⟩
        · exact hfits.short y (by simp [hrecs, hy])
  have hkey : (before ++ q.changed c :: behind).head?.map (·.key) =
      (s.bnode id).recs.head?.map (·.key) := hrecs ▸ head_key_append BtreeRecord.key_changed
  have hu₁ := hu.update hh₁ hi₁ hb₁ hfits₁ hkey
  have hrecs₁ : (s₁.bnode id).recs = before ++ q.changed c :: behind := by rw [hb₁]
  obtain ⟨hnd, _, hdis⟩ := List.nodup_append.mp (List.flatten_cons ▸ hu.nodup)
  have hnot : id ∉ as ++ bs := (List.nodup_cons.mp (List.nodup_middle.mp hnd)).left
  have hsame {is : List Nat} (hsub : ∀ i ∈ is, i ∈ as ++ bs) : s₁.recsOf is = s.recsOf is :=
    recsOf_congr fun i hm => by rw [hi₁ i fun he => hnot (he ▸ hsub i hm)]
  have hp₁ : s₁.PathTo up as.length path' :=
    hp.congr fun i hm => by rw [hi₁ i fun he => hdis id (by simp) i hm he.symm]
  have hc₁ := hh₁.calm hc
  have hcount (i) : (s₁.bnode i).recs.length = (s.bnode i).recs.length := by
    by_cases he : i = id
    case pos => rw [he, hrecs₁, hrecs, List.length_append, List.length_append, List.length_cons,
      List.length_cons]
    case neg => rw [hi₁ i he]
  have hback {s' : Btree κ ν} (hg : Inserted tree s₁ level (as ++ id :: bs) up
      ((s₁.recsOf as).length + before.length)
      (s₁.recsOf as ++ (before ++ q.changed c :: r :: behind) ++ s₁.recsOf bs) s') :
      Inserted tree s level (as ++ id :: bs) up (s.recsOf as ++ before).length
        (s.recsOf as ++ before ++ q.changed c :: r :: (behind ++ s.recsOf bs)) s' := by
    obtain ⟨hcalm, hpot, ids', up', hu', hrep, hfill, hloc⟩ := hg
    rw [hsame fun i hm => List.mem_append_left _ hm] at hu' hloc
    rw [hsame fun i hm => List.mem_append_right _ hm] at hu'
    simp only [Widened, hcount] at hfill hloc
    rw [List.length_append]
    refine ⟨hcalm, hh₁.potential_eq ▸ hpot, ids', up', by simpa using hu', Replaced.trans ?_ hrep, hfill,
      hloc⟩
    exact .update hh₁ hi₁ (by simp)
  rw [wp_bind, wp_bnodeAt, wp_ite]
  refine ⟨fun hfull => ?_, fun hroom => ?_⟩
  case refine_1 =>
    rw [wp_bind, wp_checkReserveAt hc₁, wp_bind]
    have hsplit : (s₁.bnode id).recs = (before ++ [q.changed c]) ++ behind := by simp [hrecs₁]
    refine wp_mono (wp_divide hu₁.shape.left hnd hc₁ hu₁.bitmap hsplit hr hfull fun _ => rfl)
      (fun ⟨id₁, id₂⟩ s₂ hw => ?_) (fun _ _ h => h) False.elim
    have hindex : before.length + 1 = (before ++ [q.changed c]).length := by simp
    dsimp only at hw ⊢
    rw [wp_bind, hindex]
    exact wp_imp hw fun _ s₃ hd => wp_imp (wp_insertSplit hlevel habove hu₁ hp₁ hrecs₁ hd)
      fun _ _ => hback
  case refine_2 =>
    exact wp_mono (wp_insertHere hc₁ hu₁ hrecs₁ hr hroom) (fun _ _ => hback) (fun _ _ h => h) False.elim

theorem insertsAt (hlevel : 1 ≤ level) : InsertsAt tree ν level ids up := by
  induction up generalizing ids level
  case nil => exact insertsAt_cons hlevel fun _ _ h => absurd h (by simp)
  case cons ids₁ up₁ ih =>
    refine insertsAt_cons hlevel fun ids' up' h => ?_
    obtain ⟨rfl, rfl⟩ := List.cons.inj h
    exact ih (by omega)

end Loop

end Btree

section Insert

variable {leaves : List Nat}

theorem wp_kmalloc_of {Q : Unit → Btree κ ν → Prop} {E : Errno → Btree κ ν → Prop} {H : Prop}
    (hc : s.Calm) : wp kmalloc Q E H s ↔ Q () s := by
  rw [kmalloc, wp_onFail, wp_request_of hc]

-- A record that is not there is inserted behind the one at which the search for its key ends, unless
-- there are no free nodes.
theorem btreeInsertAtLevel_spec (hlevel : 1 ≤ level) (hc : s.Calm)
    (hu : s.Upper tree level (ids :: up) recs) (hs : Rising (tree.against r.key) recs)
    (hr : r.Short tree) : wp (btreeInsertAtLevel tree r level)
      (fun _ s' => ∃ l q l', recs = l ++ q :: l' ∧ tree.against r.key q ≠ 0 ∧
        EndsAt (tree.against r.key) recs l.length ∧
        Btree.Inserted tree s level ids up l.length (l ++ q :: r :: l') s')
      (fun e s' => (e = .eexist ∧ s' = s ∧ ∃ q ∈ recs, tree.against r.key q = 0) ∨ e = .enospc)
      False s := by
  rw [btreeInsertAtLevel, wp_bind, wp_kmalloc_of hc, wp_bind]
  refine wp_mono (btreeFindLevel_returns hu hs hc) ?_ (fun _ _ => False.elim) False.elim
  rintro ⟨⟨id, pos⟩, path⟩ _ ⟨rfl, k, hf⟩
  obtain ⟨l, q, l', rfl, rfl, _⟩ := hf.ends.exists_append
  have hget := hf.node
  rw [List.getElem?_append_right le_rfl, Nat.sub_self, List.getElem?_cons_zero] at hget
  simp only [wp_bind, wp_bnodeAt, wp_getRecord hget.symm, wp_ite, wp_kmalloc_of hc, wp_haltOn, wp_fail]
  refine ⟨fun h₀ => .inl ⟨trivial, trivial, q, by simp, h₀⟩, fun h₀ => ⟨fun hlt => ?_, fun _ => ?_⟩⟩
  · exact absurd hr.record (Nat.not_le.mpr hlt)
  · refine wp_mono (Btree.insertsAt hlevel hc hu hf.path hr) (fun _ s' hg => ?_) (fun _ _ => .inr)
      False.elim
    exact ⟨l, q, l', rfl, h₀, hf.ends, hg⟩

theorem emmcfsBtreeInsert_spec (hc : s.Calm) (hu : s.Upper tree 1 (leaves :: up) recs)
    (hs : Rising (tree.against r.key) recs) (hr : r.Short tree) :
    wp (emmcfsBtreeInsert tree r)
      (fun _ s' => ∃ l q l', recs = l ++ q :: l' ∧ tree.against r.key q ≠ 0 ∧
        EndsAt (tree.against r.key) recs l.length ∧
        Btree.Grown tree s 1 (leaves :: up) (l ++ q :: r :: l') s')
      (fun e s' => (e = .eexist ∧ s' = s ∧ ∃ q ∈ recs, tree.against r.key q = 0) ∨ e = .enospc)
      False s := by
  refine wp_imp (btreeInsertAtLevel_spec le_rfl hc hu hs hr) ?_
  rintro _ s' ⟨l, q, l', he, hne, hend, hg⟩
  exact ⟨l, q, l', he, hne, hend, hg.grown⟩

end Insert

end Emmcfs
