import EmmcfsModel.Btree.Theorems.Order

namespace Emmcfs

open Code Search SortedList

variable {tree : BtreeOps κ} {s s' s₁ : Btree κ ν} {id i level : Nat}
  {r q o : BtreeRecord κ ν} {recs rs before behind l l' : List (BtreeRecord κ ν)}
  {as bs ids : List Nat} {up : List (List Nat)} {type : NodeType}

section Keys

namespace Btree

-- The keys of the index records are keys of the level below, in their order.
theorem indexRecords_keys_sublist :
    ((s.indexRecords tree ids).map (·.key)).Sublist ((s.recsOf ids).map (·.key)) := by
  induction ids
  case nil => exact .slnil
  case cons i ids ih =>
    rw [recsOf_cons, List.map_append]
    cases hr : (s.bnode i).recs
    case nil =>
      rw [indexRecords, List.filterMap_cons_none (by rw [indexRecord, hr]; rfl)]
      exact ih
    case cons r rest =>
      rw [indexRecords_cons (indexRecord_of_recs hr)]
      exact (ih.trans (List.sublist_append_right ..)).cons_cons _

theorem forall_indexRecords {P : κ → Prop} (h : ∀ r ∈ s.recsOf ids, P r.key) :
    ∀ r ∈ s.indexRecords tree ids, P r.key := by
  intro r hr
  obtain ⟨q, hq, he⟩ := List.mem_map.mp (indexRecords_keys_sublist.subset (List.mem_map_of_mem hr))
  exact he ▸ h q hq

theorem sorted_indexRecords [LinearOrder κ] (h : Sorted ((s.recsOf ids).map (·.key))) :
    Sorted ((s.indexRecords tree ids).map (·.key)) :=
  h.sublist indexRecords_keys_sublist

theorem Level.length_indexRecords (h : s.Level tree type (as ++ bs) recs) :
    (s.indexRecords tree as).length = as.length :=
  Btree.length_indexRecords fun i hm => (h.fits i (List.mem_append_left _ hm)).nonempty

theorem Level.indexRecords_ne_nil (h : s.Level tree type (as ++ bs) recs) (has : as ≠ []) :
    s.indexRecords tree as ≠ [] := by
  rw [← List.length_pos_iff, h.length_indexRecords]
  exact List.length_pos_iff.mpr has

end Btree

end Keys

section Cut

theorem wp_deleteFromNode_of {Q : Unit → Btree κ ν → Prop} {E : Errno → Btree κ ν → Prop} {H : Prop}
    (hr : (s.bnode id).recs = before ++ q :: behind) (hf : (s.bnode id).Fits tree)
    (hq : ∀ s', SameHead s s' → s'.bnode id = { s.bnode id with
      recs      := before ++ behind
      freeSpace := (s.bnode id).freeSpace + (q.recordLen + sizeofBtOff) } →
      (∀ i, i ≠ id → s'.bnode i = s.bnode i) → Q () s') :
    wp (deleteFromNode tree id before.length) Q E H s :=
  (wp_deleteFromNode rfl hr hf.space).mpr (hq _ .setBnode Btree.bnode_setBnode_self
    fun _ => Btree.bnode_setBnode_of_ne)

theorem Bnode.Fits.cut {b : Bnode κ ν} (hf : b.Fits tree) (hr : b.recs = before ++ q :: behind)
    (hne : before ++ behind ≠ []) : Bnode.Fits tree { b with
      recs      := before ++ behind
      freeSpace := b.freeSpace + (q.recordLen + sizeofBtOff) } := by
  have hspace := hf.space
  rw [hr] at hspace
  refine ⟨hne, ?_, fun r hm => hf.short r ?_⟩
  · simp only [usedSpace_append, usedSpace_cons] at hspace ⊢
    omega
  · rw [hr]
    simp only [List.mem_append, List.mem_cons] at hm ⊢
    tauto

namespace Btree

-- The first key of a node is another one, and the levels above do not know yet.
theorem Upper.cut_first (hu : s.Upper tree level ((as ++ id :: bs) :: up) recs) (hl : 1 ≤ level)
    (hh : SameHead s s') (hi : ∀ i, i ≠ id → s'.bnode i = s.bnode i)
    (hb : s'.bnode id = { s.bnode id with recs := rs, freeSpace := n }) (hf : (s'.bnode id).Fits tree) :
    s'.Level tree (typeAt level) (as ++ id :: bs) (s.recsOf as ++ rs ++ s.recsOf bs) ∧
    s'.Upper tree (level + 1) up (s.indexRecords tree (as ++ id :: bs)) ∧
    s'.indexRecords tree as = s.indexRecords tree as ∧
    s'.indexRecords tree bs = s.indexRecords tree bs := by
  obtain ⟨hnd, hdis⟩ := hu.apart
  have hnot : id ∉ as ++ bs := (List.nodup_middle.mp hnd).notMem
  have hup (i) (hm : i ∈ up.flatten) : i ≠ id := fun he => hdis id (by simp) (he ▸ hm)
  refine ⟨hu.shape.left.update hnd hh hi hb hf, ?_, ?_, ?_⟩
  · refine hu.above hl (fun i hm => ⟨?_, hi i (hup i hm)⟩) (hh.bitmapOk hu.bitmap) hh.rootBnodeId
      hh.btreeHeight
    exact hh.live_iff.mpr (hu.shape.right.live i hm)
  · exact indexRecords_congr fun i hm => by rw [hi i fun he => hnot (by simp [← he, hm])]
  · exact indexRecords_congr fun i hm => by rw [hi i fun he => hnot (by simp [← he, hm])]

-- Above a node that is not the first one of its level there is another level.
theorem Upper.exists_above (hu : s.Upper tree level ((as ++ id :: bs) :: up) recs) (has : as ≠ []) :
    (∃ ids' up', up = ids' :: up') ∧ level < s.btreeHeight := by
  cases up
  case nil =>
    have hlen := congrArg List.length hu.shape.single
    have := List.length_pos_iff.mpr has
    simp only [List.length_append, List.length_cons, List.length_nil] at hlen
    omega
  case cons ids' up' =>
    have := hu.height
    simp only [List.length_cons] at this
    exact ⟨⟨ids', up', rfl⟩, by omega⟩

end Btree

end Cut

section UpdateKey

variable [LinearOrder κ] {key : κ} {n : BtreeRecord κ ν} {pointTo : Nat}

theorem sorted_around : Sorted ((l ++ q :: l').map (·.key)) ↔ Sorted (l.map (·.key)) ∧
    Sorted (l'.map (·.key)) ∧ (∀ y ∈ l, y.key < q.key) ∧ ∀ y ∈ l', q.key < y.key := by
  rw [List.map_append, List.map_cons, sorted_cons_iff_around, List.forall_mem_map, List.forall_mem_map]

-- The search ends at the last record that is not above the key.
theorem floor_eq (hcmp : Compares tree.compFn) (hs : Sorted ((l ++ q :: l').map (·.key)))
    (hq : q.key ≤ key) (hl' : ∀ y ∈ l', key < y.key)
    (hend : EndsAt (tree.against key) (l ++ q :: l') k) : k = l.length := by
  obtain ⟨_, _, hl, _⟩ := sorted_around.mp hs
  obtain ⟨a, x, b, he, rfl, _⟩ := hend.exists_append
  have hmem : q ∈ a ++ x :: b := by rw [← he]; simp
  have hx := (isGreatest_iff hcmp (he ▸ hs) (he ▸ hend)).mpr ⟨q, hmem, hq⟩
  have hle : q.key ≤ x.key := hx.right ⟨List.mem_map_of_mem hmem, hq⟩
  have hnot : x ∉ l := fun h => absurd (hl x h) (not_lt.mpr hle)
  have hnot' : x ∉ l' := fun h => absurd (hl' x h) (not_lt.mpr hx.left.right)
  rw [((List.append_cons_inj_of_notMem hnot hnot').mp he).left]

-- The levels hold other records. If all nodes had more than one record they still do.
structure Btree.Rekeyed (tree : BtreeOps κ) (s : Btree κ ν) (level : Nat) (ids : List Nat)
    (up : List (List Nat)) (recs : List (BtreeRecord κ ν)) (s' : Btree κ ν) : Prop where
  calm      : s'.Calm
  potential : s'.potential ≤ s.potential
  upper     : ∃ ids' up', s'.Upper tree level (ids' :: up') recs ∧
    Replaced s s' (ids :: up).flatten (ids' :: up').flatten ∧
    (s.Wide (ids :: up).flatten → s'.Wide (ids' :: up').flatten)

-- The new index record is inserted right behind the old one.
theorem insertBehind_spec (hcmp : Compares tree.compFn) (hlevel : 1 ≤ level) (hc : s.Calm)
    (hu : s.Upper tree level (ids :: up) (l ++ q :: l')) (hs : Sorted ((l ++ q :: l').map (·.key)))
    (hq : q.key < n.key) (hl' : ∀ y ∈ l', n.key < y.key) (hn : n.Short tree) :
    wp (btreeInsertAtLevel tree n level)
      (fun _ => Btree.Inserted tree s level ids up l.length (l ++ q :: n :: l'))
      (fun e _ => e = .enospc) False s := by
  obtain ⟨_, _, hl, _⟩ := sorted_around.mp hs
  refine wp_mono (btreeInsertAtLevel_spec hlevel hc hu (rising_of_sorted hcmp hs) hn) ?_ ?_ fun h => h
  · rintro _ s' ⟨l₁, q₁, l₁', he, _, hend, hins⟩
    obtain ⟨rfl, h⟩ := List.append_inj he.symm (floor_eq hcmp hs hq.le hl' hend)
    obtain ⟨rfl, rfl⟩ := List.cons.inj h
    exact hins
  · rintro e s' (⟨_, _, x, hx, h₀⟩ | he)
    · have hkey := (against_zero_iff hcmp).mp h₀
      rcases List.mem_append.mp hx with hx | hx
      · exact absurd hkey ((hl x hx).trans hq).ne
      · rcases List.mem_cons.mp hx with rfl | hx
        · exact absurd hkey hq.ne
        · exact absurd hkey (hl' x hx).ne'
    · exact he

-- The key of a node at a level is replaced by the one of the node's first record. It fails only if
-- there are no free nodes.
def UpdatesKey (tree : BtreeOps κ) (ν : Type) (key : κ) (fuel : Nat) : Prop :=
  ∀ {s : Btree κ ν} {level pointTo : Nat} {ids : List Nat} {up : List (List Nat)}
    {l l' : List (BtreeRecord κ ν)} {q n : BtreeRecord κ ν}, 1 ≤ level → s.Calm →
    s.Upper tree level (ids :: up) (l ++ q :: l') → Sorted ((l ++ q :: l').map (·.key)) → l ≠ [] →
    s.indexRecord tree pointTo = some n → (s.bnode pointTo).Fits tree → q.key ≤ key → key < n.key →
    (∀ y ∈ l', n.key < y.key) → s.potential < fuel + 2 * level →
    wp (btreeUpdateKey tree fuel key pointTo level)
      (fun k s' => k = n.key ∧ s.Rekeyed tree level ids up (l ++ n :: l') s')
      (fun e _ => e = .enospc) False s

-- A node of the level has lost a record, and the levels above have its first key.
structure Btree.Shortened (tree : BtreeOps κ) (s s₁ : Btree κ ν) (level : Nat) (ids : List Nat)
    (up : List (List Nat)) (recs : List (BtreeRecord κ ν)) (s' : Btree κ ν) : Prop where
  calm      : s'.Calm
  potential : s'.potential ≤ s.potential
  nodes     : ∀ i ∈ ids, s'.bnode i = s₁.bnode i
  upper     : ∃ up', s'.Upper tree level (ids :: up') recs ∧
    Replaced s s' (ids :: up).flatten (ids :: up').flatten ∧ (s.Wide up.flatten → s'.Wide up'.flatten)

section Shorten

variable (hupdate : UpdatesKey tree ν key fuel) (hlevel : 1 ≤ level) (hc : s.Calm)
  (hu : s.Upper tree level ((as ++ id :: bs) :: up) recs) (hs : Sorted (recs.map (·.key)))
  (hh : SameHead s s₁) (hi : ∀ i, i ≠ id → s₁.bnode i = s.bnode i) (hf : (s₁.bnode id).Fits tree)
  (hq : q.key ≤ key) (hfuel : s.potential < fuel + 1 + 2 * level)

include hupdate hlevel hc hu hs hh hi hf hq hfuel

-- If it is the first record, the levels above learn the new first key.
theorem updateAbove_spec (has : as ≠ []) (hrecs : (s.bnode id).recs = q :: n :: rest)
    (hb : s₁.bnode id = { s.bnode id with recs := n :: rest, freeSpace := space }) (hn : key < n.key)
    (hbs : ∀ y ∈ s.recsOf bs, n.key < y.key) :
    wp (btreeUpdateKey tree fuel key id (level + 1))
      (fun k s' => k = n.key ∧ s.Shortened tree s₁ level (as ++ id :: bs) up
        (s.recsOf as ++ n :: rest ++ s.recsOf bs) s') (fun e _ => e = .enospc) False s₁ := by
  obtain ⟨⟨ids', up', rfl⟩, _⟩ := hu.exists_above has
  obtain ⟨hnd, hnot⟩ := hu.apart
  obtain ⟨hlev₁, hup₁, hA, hB⟩ := hu.cut_first hlevel hh hi hb hf
  have hold := @Btree.indexRecord_of_recs _ _ tree _ _ _ _ hrecs
  have hnew : s₁.indexRecord tree id = some ⟨n.key, tree.keyLen n.key + sizeofIndexValue, .node id⟩ :=
    Btree.indexRecord_of_recs (by rw [hb])
  have hindex : s₁.indexRecords tree (as ++ id :: bs) = s.indexRecords tree as ++
      ⟨n.key, tree.keyLen n.key + sizeofIndexValue, .node id⟩ :: s.indexRecords tree bs := by
    rw [Btree.indexRecords_append, Btree.indexRecords_cons hnew, hA, hB]
  rw [← hu.shape.left.records] at hs
  have hsorted := @Btree.sorted_indexRecords _ _ tree s _ _ hs
  rw [Btree.indexRecords_append, Btree.indexRecords_cons hold] at hup₁ hsorted
  refine wp_imp (hupdate (by omega) (hh.calm hc) hup₁ hsorted (hu.shape.left.indexRecords_ne_nil has) hnew
    hf hq hn (Btree.forall_indexRecords hbs) (by rw [hh.potential_eq]; omega)) ?_
  rintro k s₂ ⟨rfl, hc₂, hpot, ids₂, up₂, hu₂, hrep, hwide⟩
  obtain ⟨hupper, hrep'⟩ := hlev₁.under hnd hnot hlevel (hindex ▸ hu₂) hrep
  refine ⟨rfl, hc₂, hh.potential_eq ▸ hpot, fun i hm => (hrep.keep i (hnot i hm) (hlev₁.live i hm)).right,
    _, hupper, (Btree.Replaced.update hh hi (by simp)).trans hrep', fun hw => hwide fun i hm => ?_⟩
  rw [hi i fun he => hnot id (by simp) (he ▸ hm)]
  exact hw i hm

-- How both btree_update_key and btree_remove go on behind delete_from_node.
theorem wp_shorten {f : κ → BtreeCode κ ν α} {Q : α → Btree κ ν → Prop} {E : Errno → Btree κ ν → Prop}
    {H : Prop} (hr : recs = s.recsOf as ++ before ++ q :: (behind ++ s.recsOf bs))
    (hl : s.recsOf as ++ before ≠ []) (hrecs : (s.bnode id).recs = before ++ q :: behind)
    (hb : s₁.bnode id = { s.bnode id with recs := before ++ behind, freeSpace := space })
    (hbehind : ∀ y ∈ behind ++ s.recsOf bs, key < y.key) (he : ∀ s', before = [] → E .enospc s')
    (hgo : ∀ k s' x rest, before ++ behind = x :: rest → x.key ≤ k → (∀ y ∈ s.recsOf bs, k < y.key) →
      s.Shortened tree s₁ level (as ++ id :: bs) up (s.recsOf as ++ before ++ (behind ++ s.recsOf bs)) s' →
      wp (f k) Q E H s') :
    wp (if before.length = 0 ∧ level < s₁.btreeHeight then do
        f (← btreeUpdateKey tree fuel key id (level + 1))
      else f key) Q E H s₁ := by
  have hfirst (he : before = []) : as ≠ [] := by
    rintro rfl
    exact hl (by rw [he]; rfl)
  have hne := hf.nonempty
  rw [hb] at hne
  subst hr
  obtain ⟨_, hs', hlow, _⟩ := sorted_around.mp hs
  rw [wp_ite]
  refine ⟨fun hz => ?_, fun hz => ?_⟩
  case refine_1 =>
    obtain rfl := List.eq_nil_of_length_eq_zero hz.left
    obtain ⟨n, rest, rfl⟩ := List.exists_cons_of_ne_nil hne
    have hbs (y) (hy : y ∈ s.recsOf bs) : n.key < y.key :=
      List.rel_of_pairwise_cons hs' (List.mem_map_of_mem (List.mem_append_right _ hy))
    rw [wp_bind]
    refine wp_mono (updateAbove_spec hupdate hlevel hc hu hs hh hi hf hq hfuel (hfirst rfl) hrecs hb
      (hbehind n (by simp)) hbs) ?_ (fun _ _ h => h ▸ he _ rfl) False.elim
    rintro k s₂ ⟨rfl, hshort⟩
    exact hgo n.key s₂ n rest rfl le_rfl hbs (by simpa using hshort)
  case refine_2 =>
    have hbefore : before ≠ [] := fun he =>
      hz ⟨by rw [he]; rfl, hh.btreeHeight ▸ (hu.exists_above (hfirst he)).right⟩
    obtain ⟨x, rest, rfl⟩ := List.exists_cons_of_ne_nil hbefore
    have hu₁ := hu.update hh hi hb hf (by rw [hrecs]; rfl)
    rw [List.append_assoc, List.append_assoc, ← List.append_assoc] at hu₁
    refine hgo key s₁ x (rest ++ behind) rfl ((hlow x (by simp)).le.trans hq)
      (fun y hy => hbehind y (List.mem_append_right _ hy)) ⟨hh.calm hc, hh.potential_eq.le, fun _ _ => rfl,
        up, hu₁, .update hh hi (by simp), fun hw i hm => ?_⟩
    rw [hi i fun he => hu.apart.right id (by simp) (he ▸ hm)]
    exact hw i hm

end Shorten

theorem btreeUpdateKey_spec (hcmp : Compares tree.compFn) : UpdatesKey tree ν key fuel := by
  induction fuel
  case zero =>
    intro s level pointTo ids up l l' q n _ _ hu _ _ _ _ _ _ _ hfuel
    have := hu.height
    rw [List.length_cons] at this
    rw [Btree.potential] at hfuel
    omega
  case succ fuel ih =>
    intro s level pointTo ids up l l' q n hlevel hc hu hs hl hpoint hfits hq hn hl' hfuel
    rw [btreeUpdateKey, wp_bind, wp_kmalloc_of hc, wp_bind, wp_formNewAddingRecord hfits hpoint, wp_bind]
    refine wp_imp (insertBehind_spec hcmp hlevel hc hu hs (hq.trans_lt hn) hl'
      (Btree.short_indexRecord hfits hpoint)) ?_
    rintro _ s₁ ⟨hc₁, hpot₁, ids₁, up₁, hu₁, hrep₁, hfill, hloc⟩
    have hs₁ : Sorted ((l ++ q :: n :: l').map (·.key)) := by
      obtain ⟨h, h', hlow, hhigh⟩ := sorted_around.mp hs
      refine sorted_around.mpr ⟨h, ?_, hlow, List.forall_mem_cons.mpr ⟨hq.trans_lt hn, hhigh⟩⟩
      exact List.pairwise_cons.mpr ⟨List.forall_mem_map.mpr hl', h'⟩
    have hbehind : ∀ y ∈ n :: l', key < y.key :=
      List.forall_mem_cons.mpr ⟨hn, fun y hy => hn.trans (hl' y hy)⟩
    rw [wp_bind, wp_onFail]
    refine wp_mono (btreeFindLevel_returns hu₁ (rising_of_sorted hcmp hs₁) hc₁) ?_ (fun _ _ => False.elim) id
    rintro ⟨⟨id, pos⟩, path⟩ s₁ ⟨rfl, k, hf⟩
    obtain rfl := floor_eq hcmp hs₁ hq hbehind hf.ends
    -- the node with the old record has more than one record, and more than two if all had two
    have hmore := hloc id pos hf.path.place
    obtain ⟨as, _, bs, before, behind, path', rfl, hpath, hrecs, rfl, hrest, hp⟩ :=
      hf.path.exists_node hu₁.shape.left
    cases hpath
    have hlen : (s₁.bnode id).recs.length = (before ++ behind).length + 1 := by
      rw [hrecs, List.length_append, List.length_cons, List.length_append, Nat.add_assoc]
    have hne : before ++ behind ≠ [] := by
      rw [← List.length_pos_iff]
      rcases hmore with h | ⟨i, him, hlt⟩
      · omega
      · have := List.length_pos_iff.mpr (hu.shape.left.fits i him).nonempty
        omega
    have hfits₁ := hu₁.shape.left.fits id (by simp)
    rw [wp_bind]
    refine wp_deleteFromNode_of hrecs hfits₁ fun s₂ hh hb hi => ?_
    rw [wp_bind, wp_get]
    refine wp_shorten ih hlevel hc₁ hu₁ hs₁ hh hi (hb ▸ hfits₁.cut hrecs hne) hq (by omega)
      (by rw [hrest]) hl hrecs hb (hrest ▸ hbehind) (fun _ _ => rfl) fun k s₃ x rest _ _ _ h => ?_
    obtain ⟨hc₃, hpot₃, hnodes, up₃, hu₃, hrep₃, hwide⟩ := h
    rw [← hrest] at hu₃
    refine ⟨rfl, hc₃, hpot₃.trans hpot₁, _, _, hu₃, hrep₁.trans hrep₃, fun hw i hm => ?_⟩
    have hw₁ := hfill.wide hw
    rcases List.mem_append.mp hm with hm | hm
    · rw [hnodes i hm]
      by_cases he : i = id
      case pos =>
        rw [he, hb]
        change 2 ≤ (before ++ behind).length
        rcases hmore with h | ⟨i, him, hlt⟩
        · omega
        · have := hw i (List.mem_append_left _ him)
          omega
      case neg =>
        rw [hi i he]
        exact hw₁ i (List.mem_append_left _ hm)
    · exact hwide (fun i hm => hw₁ i (List.mem_append_right _ hm)) i hm

end UpdateKey

end Emmcfs
