import EmmcfsModel.Fsm.Extents
import EmmcfsModel.Fsm.Theorems.Scan

namespace Emmcfs

open FsmNode SortedList

variable {key : FsmBtreeKey} {node : FsmNode FsmBtreeKey} {keys : List FsmBtreeKey}

-- Chunks in the order of their first blocks.
def Ascending (keys : List FsmBtreeKey) : Prop :=
  keys.Pairwise fun a b => a.blockOffset < b.blockOffset

theorem FsmBtree.Sound.ascending {btree : FsmBtree FsmBtreeKey} (h : btree.Sound) :
    Ascending btree.keys :=
  (FsmBtree.sound_iff.mp h).right.right.imp_of_mem fun {a b} ha _ hle => by
    have := h.pos a ha
    omega

theorem Ascending.sorted (h : Ascending keys) : Sorted keys :=
  h.imp fun hlt => FsmBtreeKey.lt_iff.mpr (.inl hlt)

theorem Ascending.sublist {keys' : List FsmBtreeKey} (h : Ascending keys)
    (hs : keys'.Sublist keys) : Ascending keys' :=
  List.Pairwise.sublist hs h

theorem Ascending.eq_of_blockOffset (h : Ascending keys) (ha : a ∈ keys) (hb : b ∈ keys)
    (he : a.blockOffset = b.blockOffset) : a = b := by
  have hd : (keys.map (·.blockOffset)).Nodup := List.pairwise_map.mpr (h.imp Nat.ne_of_lt)
  exact List.inj_on_of_nodup_map hd ha hb he

theorem Ascending.findIdx (h : Ascending keys) (hk : key ∈ keys) :
    keys[keys.findIdx fun k => key.blockOffset ≤ k.blockOffset]? = some key := by
  obtain ⟨a, b, rfl⟩ := List.append_of_mem hk
  have ha : ∀ k ∈ a, ¬key.blockOffset ≤ k.blockOffset :=
    fun k hk => Nat.not_le.mpr ((List.pairwise_append.mp h).right.right k hk key (by simp))
  have hi : (a ++ key :: b).findIdx (fun k => key.blockOffset ≤ k.blockOffset) = a.length := by
    rw [List.findIdx_append, if_neg]
    · simp [List.findIdx_cons]
    · simpa [List.findIdx_lt_length] using ha
  rw [hi]
  simp

theorem Ascending.splits (h : Ascending keys)
    (hne : ∀ k ∈ keys, key.blockOffset ≠ k.blockOffset) :
    Splits key keys (keys.findIdx fun k => key.blockOffset ≤ k.blockOffset) where
  le         := List.findIdx_le_length
  below k hk := by
    have hlt := not_of_mem_take_findIdx hk
    exact FsmBtreeKey.lt_iff.mpr (.inl (by simpa using hlt))
  above k hk := by
    obtain ⟨j, hj, _⟩ := List.mem_drop_iff_getElem.mp hk
    have hi : keys.findIdx (fun k => key.blockOffset ≤ k.blockOffset) < keys.length := by omega
    have hle := List.findIdx_getElem (w := hi)
    have hm := List.getElem_mem hi
    have hlt := lt_of_le_of_ne (of_decide_eq_true hle) (hne _ hm)
    exact lt_drop h.sorted (List.getElem?_eq_getElem hi) (FsmBtreeKey.lt_iff.mpr (.inl hlt)) k hk

-- The scan of a node stops at the chunk with the wanted first block.
theorem lookupAt_here (ha : Ascending node.keyVals) (hk : key ∈ node.keyVals)
    (hl : length ≤ key.length) : lookupAt key.blockOffset length (fuel + 1) node = some key := by
  have hf : (some key).filter (fun k => key.blockOffset = k.blockOffset ∧ length ≤ k.length) =
      some key := by simp [Option.filter, hl]
  rw [lookupAt, ha.findIdx hk, hf]

theorem lookupAt_complete (hs : node.Shape order h lo) (ha : Ascending (toList h node))
    (hk : key ∈ toList h node) (hl : length ≤ key.length) :
    lookupAt key.blockOffset length (h + 1) node = some key := by
  induction h generalizing node lo
  case zero => exact lookupAt_here ha hk hl
  case succ h ih =>
    have ha' := ha.sublist hs.keyVals_sublist
    by_cases hm : key ∈ node.keyVals
    case pos => exact lookupAt_here ha' hm hl
    case neg =>
      have hty : node.type = .index := by cases hs; rfl
      have hne : ∀ k ∈ node.keyVals, key.blockOffset ≠ k.blockOffset := fun k hmk he =>
        hm (ha.eq_of_blockOffset hk (hs.keyVals_sublist.subset hmk) he ▸ hmk)
      rw [lookupAt, hty]
      generalize hi : node.keyVals.findIdx (fun k => key.blockOffset ≤ k.blockOffset) = i
      have hfilter : (node.keyVals[i]?.filter fun k =>
          key.blockOffset = k.blockOffset ∧ length ≤ k.length) = none := by
        refine Option.filter_eq_none_iff.mpr fun k hk => ?_
        have := hne k (List.mem_of_getElem? hk)
        simp [this]
      simp only [hfilter]
      have hle : i ≤ node.nrActive := hi ▸ List.findIdx_le_length
      obtain ⟨H, c, rfl, hw, hkeys, hkeys', hlen, hsc⟩ := hs.exists_hole hle
      have hsplit := hi ▸ ha'.splits hne
      have hpre := H.pre_lt hw ha.sorted (hkeys ▸ hsplit.below)
      have hpost := H.lt_post hw ha.sorted (hkeys' ▸ hsplit.above)
      rw [← hlen, H.child_fill hw, Option.bind_some]
      rw [H.toList_fill hw] at hk ha
      simp only [List.mem_append] at hk
      rcases hk with (hk | hk) | hk
      · exact absurd (hpre key hk) (lt_irrefl _)
      · exact ih hsc (ha.sublist (by simp)) hk
      · exact absurd (hpost key hk) (lt_irrefl _)

-- The breadth-first walk passes over a chunk only if it is too short.
theorem lookupAny_complete {q : List (Visit FsmBtreeKey)}
    (hs : ∀ v ∈ q, ∃ lo, v.node.Shape order v.height lo)
    (hf : (q.map fun v => nodeCount v.height v.node).sum ≤ fuel)
    (hn : lookupAny length fuel (q.map Visit.node) = none) :
    ∀ v ∈ q, ∀ key ∈ toList v.height v.node, key.length < length := by
  induction fuel generalizing q
  case zero =>
    match q with
    | []     => simp
    | v :: q =>
      have := nodeCount_pos v.height v.node
      rw [List.map_cons, List.sum_cons] at hf
      omega
  case succ fuel ih =>
    match q with
    | []     => simp
    | v :: q =>
      have hs' : ∀ v ∈ q, ∃ lo, v.node.Shape order v.height lo := fun v hv => hs v (by simp [hv])
      have hpos := nodeCount_pos v.height v.node
      obtain ⟨lo, hsv⟩ := hs v (by simp)
      rw [List.map_cons, List.sum_cons] at hf
      rw [List.map_cons, lookupAny] at hn
      split at hn
      case h_1 => cases hn
      case h_2 hfind =>
        have hkeys : ∀ key ∈ v.node.keyVals, key.length < length := by simpa using hfind
        cases hty : v.node.type
        case leaf =>
          rw [hty] at hn
          have hlist : toList v.height v.node = v.node.keyVals := by
            generalize v.height = h, v.node = node at hsv hty
            cases hsv
            case leaf  => rfl
            case index => cases hty
          exact List.forall_mem_cons.mpr ⟨hlist ▸ hkeys, ih hs' (by omega) hn⟩
        case index =>
          rw [hty] at hn
          obtain ⟨hsc, hlen, hcount, hmem⟩ := Visit.shape_children hsv hty
          have hq : q.map Visit.node ++ v.node.children.take (v.node.nrActive + 1) =
              (q ++ v.children).map Visit.node := by
            rw [List.map_append, Visit.map_node_children, ← hlen, List.take_length]
          have hall : ∀ w ∈ q ++ v.children, ∀ key ∈ toList w.height w.node, key.length < length := by
            refine ih (fun w hw => ?_) ?_ (hq ▸ hn)
            · exact (List.mem_append.mp hw).elim (hs' w) fun hw => ⟨_, hsc w hw⟩
            · rw [List.map_append, List.sum_append]
              omega
          refine List.forall_mem_cons.mpr ⟨fun key hk => ?_, fun w hw => hall w (by simp [hw])⟩
          rcases hmem key hk with hk | ⟨w, hw, hk⟩
          · exact hkeys key hk
          · exact hall w (by simp [hw]) key hk

-- What the walk from the root tells about the whole tree.
theorem lookupAny_root (hs : node.Shape order h lo) :
    match lookupAny length (nodeCount h node) [node] with
    | some key => key ∈ toList h node ∧ length ≤ key.length
    | none     => ∀ key ∈ toList h node, key.length < length := by
  split
  case h_1 hf =>
    have hq : ∀ n ∈ [node], ∃ h' lo', n.Shape order h' lo' ∧ toList h' n ⊆ toList h node := by
      intro n hn
      cases List.mem_singleton.mp hn
      exact ⟨h, lo, hs, fun _ => id⟩
    exact lookupAny_mem hq hf
  case h_2 hf =>
    let v : Visit FsmBtreeKey := ⟨[], h, node⟩
    have hq : ∀ w ∈ [v], ∃ lo, w.node.Shape order w.height lo := by
      intro w hw
      cases List.mem_singleton.mp hw
      exact ⟨lo, hs⟩
    exact lookupAny_complete hq (by simp [v]) hf v (.head _)

variable {btree : FsmBtree FsmBtreeKey}

-- A chunk that is long enough is found, the one at the wanted block if there is one.
theorem fsmBtreeLookup_some (blockOffset : Nat) (h : btree.Sound) (hk : key ∈ btree.keys)
    (hl : length ≤ key.length) :
    ∃ k ∈ btree.keys, length ≤ k.length ∧
      fsmBtreeLookup btree blockOffset length = ((takeChunk btree k length).1, k.blockOffset) ∧
      (key.blockOffset = blockOffset → k = key) := by
  have hh := FsmBtree.holds_iff.mpr ⟨h, rfl⟩
  match hr : btree.root with
  | none      => simp [FsmBtree.keys, hr] at hk
  | some root =>
    have hs := h.wf.shape root (by simp [hr])
    have hkeys : btree.keys = toList root.level root := by simp [FsmBtree.keys, hr]
    have ha := hkeys ▸ h.ascending
    simp only [fsmBtreeLookup, hr]
    split
    case h_1 k hf =>
      obtain ⟨hm, he, hlk⟩ := lookupAt_mem hs hf
      obtain ⟨_, btree', ht, _⟩ := takeChunk_holds hh (hkeys ▸ hm) hlk
      refine ⟨k, hkeys ▸ hm, hlk, by simp only [ht, he], fun hb => ?_⟩
      exact ha.eq_of_blockOffset hm (hkeys ▸ hk) (he.symm.trans hb.symm)
    case h_2 hf =>
      have hne : key.blockOffset ≠ blockOffset := by
        rintro rfl
        rw [lookupAt_complete hs ha (hkeys ▸ hk) hl] at hf
        cases hf
      split
      case h_1 k hf =>
        have hany := @lookupAny_root _ _ _ _ length hs
        rw [hf] at hany
        exact ⟨k, hkeys ▸ hany.left, hany.right, rfl, fun hb => absurd hb hne⟩
      case h_2 hf =>
        have hany := @lookupAny_root _ _ _ _ length hs
        rw [hf] at hany
        exact absurd (hany key (hkeys ▸ hk)) (Nat.not_lt.mpr hl)

theorem fsmBtreeLookup_none (h : btree.Sound) (hn : ∀ key ∈ btree.keys, key.length < length) :
    fsmBtreeLookup btree blockOffset length = (btree, 0) := by
  match hr : btree.root with
  | none      => simp [fsmBtreeLookup, hr]
  | some root =>
    have hs := h.wf.shape root (by simp [hr])
    have hkeys : btree.keys = toList root.level root := by simp [FsmBtree.keys, hr]
    have hany := @lookupAny_root _ _ _ _ length hs
    simp only [fsmBtreeLookup, hr]
    split
    case h_1 k hf =>
      obtain ⟨hm, _, hl⟩ := lookupAt_mem hs hf
      exact absurd (hn k (hkeys ▸ hm)) (Nat.not_lt.mpr hl)
    case h_2 =>
      split
      case h_1 k hf =>
        rw [hf] at hany
        exact absurd (hn k (hkeys ▸ hany.left)) (Nat.not_lt.mpr hany.right)
      case h_2 => rfl

-- fsm_btree_lookup comes to an end, whatever the pointers left over from earlier calls say. It finds
-- a chunk that is long enough if there is one, the one at the wanted block in the first place, and
-- takes the blocks from it.
theorem fsmBtreeLookup_finds {t : ThreadedTree} (blockOffset : Nat) (h : t.btree.Sound)
    (h0 : 0 ∉ t.btree.freeBlocks) (hn : t.LeafRootClear) (hl : 1 ≤ length) :
    ∃ fuel btree' r, lookupThreaded fuel t.next t.btree blockOffset length = some (btree', r) ∧
      (r ≠ 0 ↔ ∃ key ∈ t.btree.keys, length ≤ key.length) ∧
      (∀ key ∈ t.btree.keys, key.blockOffset = blockOffset → length ≤ key.length →
        r = blockOffset) ∧
      (r ≠ 0 → Finset.Ico r (r + length) ⊆ t.btree.freeBlocks ∧ btree'.Sound ∧
        btree'.freeBlocks = t.btree.freeBlocks \ Finset.Ico r (r + length)) ∧
      (r = 0 → btree' = t.btree) := by
  have hh := FsmBtree.holds_iff.mpr ⟨h, rfl⟩
  obtain ⟨fuel, hres⟩ : ∃ fuel, lookupThreaded fuel t.next t.btree blockOffset length =
      some (fsmBtreeLookup t.btree blockOffset length) := by
    match hr : t.btree.root with
    | none      => exact ⟨0, by simp [lookupThreaded, fsmBtreeLookup, hr]⟩
    | some root => exact ⟨_, hn.lookupThreaded_eq hr (h.wf.shape root hr)⟩
  refine ⟨fuel, ?_⟩
  rw [hres]
  by_cases hex : ∃ key ∈ t.btree.keys, length ≤ key.length
  case pos =>
    obtain ⟨key, hk, hlk⟩ := hex
    obtain ⟨k, hkm, hkl, he, _⟩ := fsmBtreeLookup_some blockOffset h hk hlk
    obtain ⟨hsub, btree', ht, hh'⟩ := takeChunk_holds hh hkm hkl
    have hr0 : k.blockOffset ≠ 0 := fun hz => h0 (hz ▸ hsub (Finset.mem_Ico.mpr (by omega)))
    rw [he, ht]
    refine ⟨btree', k.blockOffset, rfl, ⟨fun _ => ⟨key, hk, hlk⟩, fun _ => hr0⟩, ?_, fun _ => ?_,
      fun hz => absurd hz hr0⟩
    · intro key' hk' hb hl'
      obtain ⟨k', _, _, he', hkk⟩ := fsmBtreeLookup_some blockOffset h hk' hl'
      rw [he, hkk hb] at he'
      exact (Prod.mk.inj he').right.trans hb
    · obtain ⟨hs', hf'⟩ := FsmBtree.holds_iff.mp hh'
      exact ⟨hsub, hs', hf'⟩
  case neg =>
    have hlt : ∀ key ∈ t.btree.keys, key.length < length := fun key hk =>
      Nat.lt_of_not_le fun hle => hex ⟨key, hk, hle⟩
    rw [fsmBtreeLookup_none h hlt]
    refine ⟨t.btree, 0, rfl, ⟨fun hz => absurd rfl hz, fun he => absurd he hex⟩, ?_,
      fun hz => absurd rfl hz, fun _ => rfl⟩
    exact fun key hk _ hle => absurd ⟨key, hk, hle⟩ hex

-- With a pointer of the first leaf back to the root.
theorem fsmBtreeLookup_finds_threeChunks : ∃ fuel btree' r,
    lookupThreaded fuel (fun a => if a = [0] then some [] else none) threeChunks 9 3 =
      some (btree', r) ∧ r ≠ 0 := by
  have hn : ThreadedTree.LeafRootClear ⟨threeChunks, fun a => if a = [0] then some [] else none⟩ := by
    rintro _ ⟨⟩ ⟨⟩
  obtain ⟨fuel, btree', r, hl, hr, _⟩ := fsmBtreeLookup_finds 9 threeChunks_sound (by decide) hn
    (show 1 ≤ 3 by decide)
  exact ⟨fuel, btree', r, hl, hr.mpr ⟨⟨16, 4⟩, by decide, by decide⟩⟩

-- Over any run, the pointers that the walks have left behind make no difference to the next search.
theorem lookup_of_run {t t' : ThreadedTree} (h : t.btree.root = none)
    (hrun : Run ThreadedTree.Step t es t') (hs : t'.btree.Sound) :
    ∃ fuel, ∀ blockOffset length, lookupThreaded fuel t'.next t'.btree blockOffset length =
      some (fsmBtreeLookup t'.btree blockOffset length) := by
  have hclear := ThreadedTree.leafRootClear_of_run h hrun
  cases hr : t'.btree.root
  case none      => exact ⟨0, fun _ _ => by simp [lookupThreaded, fsmBtreeLookup, hr]⟩
  case some root => exact ⟨_, fun _ _ => hclear.lookupThreaded_eq hr (hs.wf.shape root hr)⟩

theorem lookup_of_run_insert : ∃ fuel btree', lookupThreaded fuel
    (fun a => if a = [] then none else some []) ⟨2, le_rfl, some (.mk 0 .leaf [⟨16, 4⟩] [])⟩ 9 4 =
      some (btree', 16) := by
  have hrun : Run ThreadedTree.Step ⟨⟨2, le_rfl, none⟩, fun _ => none⟩ [.insert ⟨16, 4⟩]
      ⟨⟨2, le_rfl, some (.mk 0 .leaf [⟨16, 4⟩] [])⟩, fun a => if a = [] then none else some []⟩ :=
    .cons (.insert (by rfl) (by rfl)) .nil
  obtain ⟨fuel, hl⟩ := lookup_of_run rfl hrun (FsmBtree.sound_iff.mpr
    ⟨by rintro _ ⟨⟩; exact .leaf (by decide) (by decide), by decide, by decide⟩)
  exact ⟨fuel, _, hl 9 4⟩

end Emmcfs
