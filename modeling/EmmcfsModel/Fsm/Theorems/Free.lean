import EmmcfsModel.Fsm.Extents

namespace Emmcfs

open FsmNode SortedList

variable {btree : FsmBtree FsmBtreeKey} {node : FsmNode FsmBtreeKey} {off length : Nat}
  {keys keys' leaf : List FsmBtreeKey} {prev next : Option FsmBtreeKey} {key y : FsmBtreeKey}

-- fsm_btree_free adds the freed blocks and nothing else.
theorem fsmBtreeFree_adds (h : btree.Sound) (hl : 1 ≤ length)
    (hd : ∀ key ∈ btree.keys, Disjoint key.blocks (Finset.Ico off (off + length))) :
    (fsmBtreeFree btree off length).Sound ∧
      (fsmBtreeFree btree off length).freeBlocks =
        btree.freeBlocks ∪ Finset.Ico off (off + length) := by
  have hd' : Disjoint (FsmBtreeKey.blocks ⟨off, length⟩) btree.freeBlocks := by
    rw [FsmBtree.freeBlocks, Finset.disjoint_biUnion_right]
    exact fun key hk => (hd key (List.mem_toFinset.mp hk)).symm
  have hh := fsmBtreeFree_holds (FsmBtree.holds_iff.mpr ⟨h, rfl⟩) hl hd'
  rw [Finset.union_comm] at hh
  exact FsmBtree.holds_iff.mp hh

theorem fsmBtreeFree_adds_threeChunks : (fsmBtreeFree threeChunks 20 2).Sound ∧
    (fsmBtreeFree threeChunks 20 2).freeBlocks = threeChunks.freeBlocks ∪ Finset.Ico 20 22 :=
  fsmBtreeFree_adds threeChunks_sound (by decide) (by decide)

section Walk

-- Chunks in the order and at the distance that chunks have in a tree, and none of the freed blocks
-- among them.
structure Clear (off length : Nat) (keys : List FsmBtreeKey) : Prop where
  apart : keys.Pairwise fun a b => a.blockOffset + a.length ≤ b.blockOffset
  pos   : ∀ key ∈ keys, 0 < key.length
  clear : ∀ key ∈ keys, key.blockOffset + key.length ≤ off ∨ off + length ≤ key.blockOffset

theorem Clear.sublist (h : Clear off length keys)
    (hs : keys'.Sublist keys) : Clear off length keys' where
  apart          := h.apart.sublist hs
  pos key hk     := h.pos key (hs.subset hk)
  clear key hk   := h.clear key (hs.subset hk)

theorem Clear.nodup (h : Clear off length keys) : keys.Nodup :=
  h.apart.imp_of_mem fun ha _ hle he => by
    have := h.pos _ ha
    rw [he] at this hle
    omega

-- A chunk is told by its first block, and by the block behind it.
theorem Clear.eq_of_start (h : Clear off length keys) (ha : a ∈ keys)
    (hb : b ∈ keys) (he : a.blockOffset = b.blockOffset) : a = b := by
  have hd : (keys.map (·.blockOffset)).Nodup := List.pairwise_map.mpr
    (h.apart.imp_of_mem fun ha _ hle => by
      have := h.pos _ ha
      omega)
  exact List.inj_on_of_nodup_map hd ha hb he

theorem Clear.eq_of_end (h : Clear off length keys) (ha : a ∈ keys)
    (hb : b ∈ keys) (he : a.blockOffset + a.length = b.blockOffset + b.length) : a = b := by
  have hd : (keys.map fun k => k.blockOffset + k.length).Nodup := List.pairwise_map.mpr
    (h.apart.imp_of_mem fun _ hb hle => by
      have := h.pos _ hb
      omega)
  exact List.inj_on_of_nodup_map hd ha hb he

-- No chunk lies between two that touch the freed one.
theorem Clear.not_between {a b : List FsmBtreeKey} {k y r : FsmBtreeKey}
    (h : Clear off length (a ++ y :: b)) (hk : k ∈ a) (hr : r ∈ b)
    (hkoff : k.blockOffset + k.length = off) : off + length ≠ r.blockOffset := by
  obtain ⟨_, hyb, ha⟩ := List.pairwise_append.mp h.apart
  have h₁ := ha k hk y (.head _)
  have h₂ := (List.pairwise_cons.mp hyb).left r hr
  have h₃ := h.pos y (by simp)
  have h₄ := h.clear y (by simp)
  omega

-- The chunks before and behind the freed one that have been found on the way along the last children.
structure Met (off length : Nat) (lastKeys lastLeaf : List FsmBtreeKey)
    (prev next : Option FsmBtreeKey) : Prop where
  ends   : ∀ l ∈ prev, l ∈ lastKeys ∧ l.blockOffset + l.length = off
  starts : ∀ r ∈ next, r ∈ lastKeys ∧ off + length = r.blockOffset
  both   : ∀ l ∈ prev, ∀ r ∈ next, l ∈ lastLeaf ∧ r ∈ lastLeaf
  one    : ∀ k ∈ lastKeys, k.blockOffset + k.length = off ∨ off + length = k.blockOffset →
    prev ≠ none ∨ next ≠ none
  two    : ∀ l ∈ lastLeaf, ∀ r ∈ lastLeaf, l.blockOffset + l.length = off →
    off + length = r.blockOffset → prev ≠ none ∧ next ≠ none

-- What a walk has found.
def FreeWalk.Meets (w : FreeWalk) (found : Option FsmBtreeKey → Option FsmBtreeKey → Prop) : Prop :=
  match w with
  | nothing      => found none none
  | grown _ next => ∃ k, found (some k) next
  | before key   => found none (some key)

theorem lastLeaf_subset : lastLeaf h node ⊆ lastKeys h node := by
  induction h generalizing node
  case zero => exact fun _ => id
  case succ h ih =>
    rw [lastLeaf, lastKeys]
    cases node.children[node.nrActive]?
    case none   => exact List.nil_subset _
    case some c => exact fun k hk => List.mem_append_right _ (ih hk)

theorem lastKeys_subset (hs : node.Shape order h lo) : lastKeys h node ⊆ toList h node := by
  induction h generalizing node lo
  case zero => exact fun _ => id
  case succ h ih =>
    rw [lastKeys]
    refine List.append_subset.mpr ⟨hs.keyVals_sublist.subset, ?_⟩
    cases hc : node.children[node.nrActive]?
    case none   => exact List.nil_subset _
    case some c =>
      obtain ⟨hsc, hsub⟩ := hs.toList_subset (List.mem_of_getElem? hc)
      exact fun k hk => hsub (ih hsc hk)

theorem FsmNode.Shape.last_child {κ : Type} {node : FsmNode κ} (hs : node.Shape order (h + 1) lo) :
    ∃ c, c.Shape order h (order - 1) ∧ node.children[node.nrActive]? = some c ∧
      (node.keyVals ++ toList h c).Sublist (toList (h + 1) node) := by
  obtain ⟨H, c, rfl, hw, hk, _, hlen, hsc⟩ := hs.exists_hole le_rfl
  refine ⟨c, hsc, hlen ▸ H.child_fill hw, ?_⟩
  have hk : H.keys = (H.fill h c).keyVals := hk.trans (List.take_length ..)
  rw [H.toList_fill hw, ← hk]
  exact ((Interleave.sublist_before hw.left).append_right _).trans (List.sublist_append_left ..)

-- Between two keys of an index node there are others.
theorem FsmNode.Shape.between (hs : node.Shape order (h + 1) lo) (ho : 2 ≤ order)
    (hk : node.keyVals[i]? = some k) (hn : node.keyVals[i + 1]? = some n) :
    ∃ a y b, toList (h + 1) node = a ++ y :: b ∧ k ∈ a ∧ n ∈ b := by
  have hi := (List.getElem?_eq_some_iff.mp hn).choose
  obtain ⟨H, c, rfl, hw, hkeys, hkeys', _, hsc⟩ := hs.exists_hole hi.le
  obtain ⟨y, rest, hy⟩ := List.exists_cons_of_ne_nil (hsc.toList_ne_nil (by omega))
  refine ⟨H.pre h, y, rest ++ H.post h, by rw [H.toList_fill hw, hy]; simp, ?_, ?_⟩
  · refine (Interleave.sublist_before hw.left).subset ?_
    rw [hkeys]
    exact List.mem_of_getElem? (i := i) (by rw [List.getElem?_take_of_lt (by omega)]; exact hk)
  · refine List.mem_append_right _ ((Interleave.sublist_after hw.right.symm).subset ?_)
    rw [hkeys']
    exact List.mem_of_getElem? (i := 0) (by simpa using hn)

theorem growKey_cases (node : FsmNode FsmBtreeKey) (i : Nat) (k : FsmBtreeKey) (length : Nat) :
    (∃ node', growKey node i k length = .grown node' none ∧
      ∀ n ∈ node.keyVals[i + 1]?, n.blockOffset ≠ k.blockOffset + (k.length + length)) ∨
    ∃ node' n, growKey node i k length = .grown node' (some n) ∧ node.keyVals[i + 1]? = some n ∧
      n.blockOffset = k.blockOffset + (k.length + length) := by
  rw [growKey]
  cases node.keyVals[i + 1]?
  case none   => exact .inl ⟨_, rfl, by simp⟩
  case some n =>
    by_cases hn : n.blockOffset = k.blockOffset + (k.length + length)
    case pos => exact .inr ⟨_, n, if_pos hn, rfl, hn⟩
    case neg => exact .inl ⟨_, if_neg hn, by simpa using hn⟩

-- The chunk at which the scan of a node stops touches the freed one, and those before it do not.
theorem touches_of_findIdx (hk : keys[i]? = some key)
    (hi : keys.findIdx (fun key => off = key.blockOffset + key.length ∨
      off + length = key.blockOffset) = i) :
    (off = key.blockOffset + key.length ∨ off + length = key.blockOffset) ∧
      ∀ k ∈ keys.take i, off ≠ k.blockOffset + k.length ∧ off + length ≠ k.blockOffset := by
  obtain ⟨hlt, he⟩ := List.getElem?_eq_some_iff.mp hk
  constructor
  case left =>
    subst hi he
    simpa using List.findIdx_getElem (w := hlt)
  case right =>
    intro k hk
    rw [← hi] at hk
    have hn := not_of_mem_take_findIdx hk
    exact not_or.mp (of_decide_eq_false hn)

theorem untouched_of_findIdx
    (hn : keys[keys.findIdx fun key => off = key.blockOffset + key.length ∨
      off + length = key.blockOffset]? = none) :
    ∀ k ∈ keys, k.blockOffset + k.length ≠ off ∧ off + length ≠ k.blockOffset := by
  intro k hk
  rw [← List.take_of_length_le (List.getElem?_eq_none_iff.mp hn)] at hk
  have hn := not_of_mem_take_findIdx hk
  obtain ⟨h₁, h₂⟩ := not_or.mp (of_decide_eq_false hn)
  exact ⟨Ne.symm h₁, h₂⟩

-- The walk ends in a leaf.
theorem met_of_leaf (hc : Clear off length node.keyVals) (hk : node.keyVals[i]? = some key)
    (hi : node.keyVals.findIdx (fun key => off = key.blockOffset + key.length ∨
      off + length = key.blockOffset) = i) :
    (if off = key.blockOffset + key.length then growKey node i key length
      else .before key).Meets (Met off length node.keyVals node.keyVals) := by
  obtain ⟨htouch, hfirst⟩ := touches_of_findIdx hk hi
  obtain ⟨a, b, hab, ha⟩ := exists_append_of_getElem? hk
  have hm : key ∈ node.keyVals := List.mem_of_getElem? hk
  have hpos := hc.pos key hm
  rw [hab] at hc
  obtain ⟨_, hkb, hak⟩ := List.pairwise_append.mp hc.apart
  have hbelow (l) (hl : l ∈ a) := hak l hl key (.head _)
  have habove := (List.pairwise_cons.mp hkb).left
  split
  case isTrue he =>
    rcases growKey_cases node i key length with ⟨node', hg, hn⟩ | ⟨node', n, hg, hn, hno⟩
    case inl =>
      rw [hg]
      refine ⟨key, by simpa using ⟨hm, he.symm⟩, by simp, by simp, by simp, ?_⟩
      intro l _ r hr _ hro
      exfalso
      rw [hab, List.mem_append, List.mem_cons] at hr
      rcases hr with hr | hr | hr
      · have := hbelow r hr
        omega
      · subst hr
        omega
      · -- the chunk behind the grown one would have been joined
        match b, hr with
        | n :: b, hr =>
          rw [hab, ← ha, List.getElem?_append_right (Nat.le_add_right ..)] at hn
          have hn := hn n (by simp)
          rcases List.mem_cons.mp hr with hr | hr
          · subst hr
            omega
          · have hc' : Clear off length ((a ++ [key]) ++ n :: b) := by simpa using hc
            exact hc'.not_between (by simp) hr he.symm hro
    case inr =>
      rw [hg]
      have hm' : n ∈ node.keyVals := List.mem_of_getElem? hn
      refine ⟨key, by simpa using ⟨hm, he.symm⟩, ?_, by simpa using ⟨hm, hm'⟩, by simp, by simp⟩
      rintro _ ⟨⟩
      exact ⟨hm', by omega⟩
  case isFalse he =>
    have hko := htouch.resolve_left he
    refine ⟨by simp, by simpa using ⟨hm, hko⟩, by simp, by simp, fun l hl _ _ hlo _ => ?_⟩
    have := hc.pos l (hab ▸ hl)
    exfalso
    rw [hab, List.mem_append, List.mem_cons] at hl
    rcases hl with hl | hl | hl
    · have htake : a = node.keyVals.take i := by rw [hab, ← ha, List.take_left]
      exact (hfirst l (htake ▸ hl)).left hlo.symm
    · subst hl
      omega
    · have := habove l hl
      omega

-- The walk ends in an index node, whose keys are not in the last leaf.
theorem met_of_index (ho : 2 ≤ order) (hs : node.Shape order (h + 1) lo)
    (hc : Clear off length (toList (h + 1) node)) (hk : node.keyVals[i]? = some key)
    (hi : node.keyVals.findIdx (fun key => off = key.blockOffset + key.length ∨
      off + length = key.blockOffset) = i) :
    (if off = key.blockOffset + key.length then growKey node i key length
      else .before key).Meets (Met off length (lastKeys (h + 1) node) (lastLeaf (h + 1) node)) := by
  obtain ⟨htouch, _⟩ := touches_of_findIdx hk hi
  obtain ⟨c, hsc, hchild, hsub⟩ := hs.last_child
  have hm : key ∈ node.keyVals := List.mem_of_getElem? hk
  have hm' : key ∈ lastKeys (h + 1) node := List.mem_append_left _ hm
  have hleaf : ∀ l ∈ lastLeaf (h + 1) node, l ∈ toList (h + 1) node ∧ key ≠ l := by
    intro l hl
    refine ⟨lastKeys_subset hs (lastLeaf_subset hl), fun he => ?_⟩
    rw [lastLeaf, hchild, ← he] at hl
    exact List.disjoint_of_nodup_append (hc.sublist hsub).nodup hm
      (lastKeys_subset hsc (lastLeaf_subset hl))
  have hm'' := lastKeys_subset hs hm'
  split
  case isTrue he =>
    rcases growKey_cases node i key length with ⟨node', hg, _⟩ | ⟨node', n, hg, hn, hno⟩
    case inl =>
      rw [hg]
      refine ⟨key, by simpa using ⟨hm', he.symm⟩, by simp, by simp, by simp, ?_⟩
      intro l hl _ _ hlo _
      obtain ⟨hlm, hne⟩ := hleaf l hl
      exact absurd (hc.eq_of_end hm'' hlm (he.symm.trans hlo.symm)) hne
    case inr =>
      obtain ⟨a, y, b, hlist, hka, hnb⟩ := hs.between ho hk hn
      rw [hlist] at hc
      exact absurd (by omega) (hc.not_between hka hnb he.symm)
  case isFalse he =>
    have hko := htouch.resolve_left he
    refine ⟨by simp, by simpa using ⟨hm', hko⟩, by simp, by simp, fun _ _ r hr _ hro => ?_⟩
    obtain ⟨hrm, hne⟩ := hleaf r hr
    exact absurd (hc.eq_of_start hm'' hrm (hko.symm.trans hro)) hne

-- From the last child on.
theorem Met.append (h : Met off length keys leaf prev next)
    (hn : ∀ k ∈ keys', k.blockOffset + k.length ≠ off ∧ off + length ≠ k.blockOffset) :
    Met off length (keys' ++ keys) leaf prev next where
  ends l hl   := ⟨List.mem_append_right _ (h.ends l hl).left, (h.ends l hl).right⟩
  starts r hr := ⟨List.mem_append_right _ (h.starts r hr).left, (h.starts r hr).right⟩
  both        := h.both
  one k hk    := by
    intro ht
    rcases List.mem_append.mp hk with hk | hk
    · exact absurd ht (not_or.mpr (hn k hk))
    · exact h.one k hk ht
  two         := h.two

theorem freeWalk_met (ho : 2 ≤ order) (hs : node.Shape order h lo)
    (hc : Clear off length (toList h node)) :
    (freeWalk off length (h + 1) node).Meets (Met off length (lastKeys h node) (lastLeaf h node)) := by
  induction h generalizing node lo
  case zero =>
    rw [freeWalk]
    split
    case h_1 hk => exact met_of_leaf hc hk rfl
    case h_2 hn =>
      have hn := untouched_of_findIdx hn
      cases hs
      exact ⟨by simp, by simp, by simp, fun k hk ht => absurd ht (not_or.mpr (hn k hk)),
        fun l hl _ _ he _ => absurd he (hn l hl).left⟩
  case succ h ih =>
    have hty : node.type = .index := by cases hs; rfl
    rw [freeWalk]
    split
    case h_1 hk => exact met_of_index ho hs hc hk rfl
    case h_2 hn =>
      have huntouched := untouched_of_findIdx hn
      have hlen := (List.getElem?_eq_none_iff.mp hn).antisymm List.findIdx_le_length
      obtain ⟨c, hsc, hchild, hsub⟩ := hs.last_child
      have hmet := ih hsc (hc.sublist ((List.sublist_append_right ..).trans hsub))
      rw [lastKeys, lastLeaf, hchild]
      rw [nrActive, hlen] at hchild
      simp only [hty, hchild, Option.elim_some]
      generalize freeWalk off length (h + 1) c = w at hmet
      cases w
      case nothing => exact hmet.append huntouched
      case before  => exact hmet.append huntouched
      case grown   =>
        obtain ⟨k, hmet⟩ := hmet
        exact ⟨k, hmet.append huntouched⟩

end Walk

section Coalescing

theorem FsmBtree.Sound.clear (h : btree.Sound)
    (hd : ∀ key ∈ btree.keys, Disjoint key.blocks (Finset.Ico off (off + length))) (hl : 1 ≤ length) :
    Clear off length btree.keys where
  apart          := (sound_iff.mp h).right.right
  pos            := h.pos
  clear key hk   := by
    by_contra hn
    have := h.pos key hk
    have hx : max key.blockOffset off ∈ key.blocks := FsmBtreeKey.mem_blocks.mpr (by omega)
    exact Finset.disjoint_left.mp (hd key hk) hx (Finset.mem_Ico.mpr (by omega))

-- The freed chunk together with the ones before and behind it.
def joined (off length : Nat) (prev next : Option FsmBtreeKey) : FsmBtreeKey :=
  ⟨off - prev.elim 0 (·.length), prev.elim 0 (·.length) + length + next.elim 0 (·.length)⟩

-- They have been joined, and all other chunks are as before.
structure Joined (off length : Nat) (prev next : Option FsmBtreeKey)
    (keys keys' : List FsmBtreeKey) : Prop where
  ends    : ∀ l ∈ prev, l ∈ keys ∧ l.blockOffset + l.length = off
  starts  : ∀ r ∈ next, r ∈ keys ∧ off + length = r.blockOffset
  mem_iff : ∀ y, y ∈ keys' ↔ y ∈ keys ∧ y ∉ prev ∧ y ∉ next ∨ y = joined off length prev next

namespace Joined

theorem blockOffset_eq (h : Joined off length prev next keys keys')
    (hm : ∀ a ∈ keys, ∀ b ∈ keys, a.blockOffset + a.length ≠ b.blockOffset) (hy : y ∈ keys) :
    y.blockOffset + y.length = (joined off length prev next).blockOffset ↔
      prev = none ∧ y.blockOffset + y.length = off := by
  cases prev
  case none   => simp [joined]
  case some l =>
    obtain ⟨hl, he⟩ := h.ends l rfl
    have := hm y hy l hl
    simp only [joined, Option.elim_some, reduceCtorEq, false_and, iff_false]
    omega

theorem end_eq (h : Joined off length prev next keys keys')
    (hm : ∀ a ∈ keys, ∀ b ∈ keys, a.blockOffset + a.length ≠ b.blockOffset) (hy : y ∈ keys) :
    (joined off length prev next).blockOffset + (joined off length prev next).length =
      y.blockOffset ↔ next = none ∧ off + length = y.blockOffset := by
  have hprev : prev.elim 0 (·.length) ≤ off := by
    cases prev
    case none   => exact Nat.zero_le _
    case some l =>
      have := (h.ends l rfl).right
      simp only [Option.elim_some]
      omega
  cases next
  case none   =>
    simp only [joined, Option.elim_none, true_and]
    omega
  case some r =>
    obtain ⟨hr, he⟩ := h.starts r rfl
    have := hm r hr y hy
    simp only [joined, Option.elim_some, reduceCtorEq, false_and, iff_false]
    omega

-- Nothing touches another chunk afterwards exactly when everything that touched the freed one has
-- been joined.
theorem maximal_iff (h : Joined off length prev next keys keys') (hc : Clear off length keys)
    (hl : 1 ≤ length)
    (hm : ∀ a ∈ keys, ∀ b ∈ keys, a.blockOffset + a.length ≠ b.blockOffset) :
    (∀ a ∈ keys', ∀ b ∈ keys', a.blockOffset + a.length ≠ b.blockOffset) ↔
      (∀ l ∈ keys, l.blockOffset + l.length = off → l ∈ prev) ∧
      ∀ r ∈ keys, off + length = r.blockOffset → r ∈ next := by
  have hj : joined off length prev next ∈ keys' := (h.mem_iff _).mpr (.inr rfl)
  constructor
  case mp =>
    intro hm'
    constructor
    case left =>
      intro l hlk he
      by_contra hn
      have hpos := hc.pos l hlk
      have hprev : prev = none := Option.eq_none_iff_forall_not_mem.mpr fun l' hl' => by
        obtain ⟨hlk', he'⟩ := h.ends l' hl'
        exact hn (hc.eq_of_end hlk hlk' (he.trans he'.symm) ▸ hl')
      have hnext : l ∉ next := fun hr => by
        have := (h.starts l hr).right
        omega
      exact hm' l ((h.mem_iff l).mpr (.inl ⟨hlk, hn, hnext⟩)) _ hj
        ((h.blockOffset_eq hm hlk).mpr ⟨hprev, he⟩)
    case right =>
      intro r hrk he
      by_contra hn
      have hpos := hc.pos r hrk
      have hnext : next = none := Option.eq_none_iff_forall_not_mem.mpr fun r' hr' => by
        obtain ⟨hrk', he'⟩ := h.starts r' hr'
        exact hn (hc.eq_of_start hrk hrk' (he.symm.trans he') ▸ hr')
      have hprev : r ∉ prev := fun hl => by
        have := (h.ends r hl).right
        omega
      exact hm' _ hj r ((h.mem_iff r).mpr (.inl ⟨hrk, hprev, hn⟩))
        ((h.end_eq hm hrk).mpr ⟨hnext, he⟩)
  case mpr =>
    rintro ⟨hprev, hnext⟩ a ha b hb he
    rcases (h.mem_iff a).mp ha with ⟨ha, hap, han⟩ | rfl <;>
      rcases (h.mem_iff b).mp hb with ⟨hb, hbp, hbn⟩ | rfl
    · exact hm a ha b hb he
    · obtain ⟨hp, he⟩ := (h.blockOffset_eq hm ha).mp he
      exact hap (hprev a ha he)
    · obtain ⟨hn, he⟩ := (h.end_eq hm hb).mp he
      exact hbn (hnext b hb he)
    · simp only [joined] at he
      omega

end Joined

-- One key has been replaced by another.
theorem mem_replaced {a b : List α} {k g : α} (hd : (a ++ k :: b).Nodup) (y : α) :
    y ∈ a ++ g :: b ↔ y ∈ a ++ k :: b ∧ y ≠ k ∨ y = g := by
  obtain ⟨hk, _⟩ := List.nodup_cons.mp (List.perm_middle.nodup_iff.mp hd)
  rw [List.mem_append] at hk
  simp only [List.mem_append, List.mem_cons]
  by_cases hy : y = k
  case pos => subst hy; tauto
  case neg => tauto

-- What becomes of the keys, by what the walk has found.
theorem fsmBtreeFree_joined (h : btree.Sound) (hc : Clear off length btree.keys)
    (hr : btree.root = some root) : (freeWalk off length (root.level + 1) root).Meets fun prev next =>
      Joined off length prev next btree.keys (fsmBtreeFree btree off length).keys := by
  have hh := FsmBtree.holds_iff.mpr ⟨h, rfl⟩
  have hf : (freeWalk off length (root.level + 1) root).Found btree.order root.level 1 off length
      root := freeWalk_found (h.wf.shape root hr)
  have hkeys : btree.keys = toList root.level root := by simp [FsmBtree.keys, hr]
  simp only [fsmBtreeFree, hr]
  cases hw : freeWalk off length (root.level + 1) root <;> rw [hw] at hf
  case nothing =>
    obtain ⟨_, hk, _⟩ := fsmBtreeInsert_wf fsmBtreeCmpFn_compares (x := ⟨off, length⟩) h.wf
    refine ⟨by simp, by simp, fun y => ?_⟩
    rw [hk, mem_insertKey]
    simp [joined, or_comm]
  case grown root' next =>
    cases next
    case none =>
      obtain ⟨hs, a, k, b, ht, he, _, ht'⟩ := hf
      have hk := hkeys.trans ht
      obtain ⟨_, hk'⟩ := hh.wf_grow hk hs ht'
      have hj : joined off length (some k) none = ⟨k.blockOffset, k.length + length + 0⟩ := by
        simp [joined, ← he]
      refine ⟨k, by simp [hk, he], by simp, fun y => ?_⟩
      rw [hj, hk', mem_replaced (hk ▸ hc.nodup), hk]
      simp [eq_comm]
    case some next =>
      obtain ⟨hs, a, k, b, ht, he, hn, ht'⟩ := hf
      have hk := hkeys.trans ht
      rw [Option.map_some, Option.getD_some, Nat.add_assoc] at ht'
      obtain ⟨hw', hk'⟩ := hh.wf_grow hk hs ht'
      obtain ⟨_, hk''⟩ := fsmBtreeDelete_wf fsmBtreeCmpFn_compares (x := next) hw'
      obtain ⟨hnb, hn⟩ := hn next rfl
      have hj : joined off length (some k) (some next) =
          ⟨k.blockOffset, k.length + (length + next.length)⟩ := by
        simp [joined, ← he, Nat.add_assoc]
      have hne : joined off length (some k) (some next) ≠ next := by
        intro h
        have hb := congrArg FsmBtreeKey.blockOffset h
        have := hc.pos k (by simp [hk])
        rw [hj] at hb
        change k.blockOffset = next.blockOffset at hb
        omega
      refine ⟨k, by simp [hk, he], by simp [hk, hnb, hn], fun y => ?_⟩
      rw [hk'', mem_removeKey, hk', mem_replaced (hk ▸ hc.nodup), ← hj, hk]
      simp only [Option.mem_some_iff]
      by_cases hy : y = joined off length (some k) (some next)
      case pos => simp [hy, hne]
      case neg => simp [hy, eq_comm, and_comm, and_assoc]
  case before key =>
    obtain ⟨hm, he⟩ := hf
    obtain ⟨hw', hk'⟩ := fsmBtreeDelete_wf fsmBtreeCmpFn_compares (x := key) h.wf
    obtain ⟨_, hk'', _⟩ := fsmBtreeInsert_wf fsmBtreeCmpFn_compares (x := ⟨off, length + key.length⟩) hw'
    refine ⟨by simp, by simpa [hkeys, he] using hm, fun y => ?_⟩
    rw [hk'', mem_insertKey, hk', mem_removeKey]
    simp [joined, eq_comm, and_comm, or_comm]

-- Chunks that touch the freed one are on the way along the last children, and if there are two of
-- them both are in the leaf at its end.
def FsmBtree.Coalesces (btree : FsmBtree FsmBtreeKey) (off length : Nat) : Prop :=
  ∀ root ∈ btree.root,
    (∀ k ∈ btree.keys, k.blockOffset + k.length = off ∨ off + length = k.blockOffset →
      k ∈ lastKeys root.level root) ∧
    ∀ l ∈ btree.keys, ∀ r ∈ btree.keys, l.blockOffset + l.length = off →
      off + length = r.blockOffset → l ∈ lastLeaf root.level root ∧ r ∈ lastLeaf root.level root

-- Everything that touches the freed chunk has been found.
theorem Met.coalesces_iff (h : Met off length keys' leaf prev next) (hc : Clear off length keys)
    (hsub : keys' ⊆ keys) :
    ((∀ l ∈ keys, l.blockOffset + l.length = off → l ∈ prev) ∧
      ∀ r ∈ keys, off + length = r.blockOffset → r ∈ next) ↔
    (∀ k ∈ keys, k.blockOffset + k.length = off ∨ off + length = k.blockOffset → k ∈ keys') ∧
      ∀ l ∈ keys, ∀ r ∈ keys, l.blockOffset + l.length = off → off + length = r.blockOffset →
        l ∈ leaf ∧ r ∈ leaf := by
  constructor
  case mp =>
    rintro ⟨hprev, hnext⟩
    refine ⟨fun k hk ht => ?_, fun l hl r hr hle hre => h.both l (hprev l hl hle) r (hnext r hr hre)⟩
    exact ht.elim (fun he => (h.ends k (hprev k hk he)).left) fun he =>
      (h.starts k (hnext k hk he)).left
  case mpr =>
    rintro ⟨hone, htwo⟩
    constructor
    case left =>
      intro l hl he
      match prev, next with
      | some l', _    =>
        obtain ⟨hl', he'⟩ := h.ends l' rfl
        exact congrArg some (hc.eq_of_end (hsub hl') hl (he'.trans he.symm))
      | none, some r' =>
        obtain ⟨hr', he'⟩ := h.starts r' rfl
        obtain ⟨hll, hrl⟩ := htwo l hl r' (hsub hr') he he'
        exact absurd rfl (h.two l hll r' hrl he he').left
      | none, none    => exact absurd rfl ((h.one l (hone l hl (.inl he)) (.inl he)).elim id id)
    case right =>
      intro r hr he
      match prev, next with
      | _, some r'    =>
        obtain ⟨hr', he'⟩ := h.starts r' rfl
        exact congrArg some (hc.eq_of_start (hsub hr') hr (he'.symm.trans he))
      | some l', none =>
        obtain ⟨hl', he'⟩ := h.ends l' rfl
        obtain ⟨hll, hrl⟩ := htwo l' (hsub hl') r hr he' he
        exact absurd rfl (h.two l' hll r hrl he' he).right
      | none, none    => exact absurd rfl ((h.one r (hone r hr (.inr he)) (.inr he)).elim id id)

-- A grown chunk is told by where it ended before.
theorem FreeWalk.Meets.and {w : FreeWalk} (hm : w.Meets (Met off length keys' leaf))
    (hj : w.Meets fun prev next => Joined off length prev next keys newKeys)
    (hc : Clear off length keys) (hsub : keys' ⊆ keys) :
    ∃ prev next, Met off length keys' leaf prev next ∧
      Joined off length prev next keys newKeys := by
  match w with
  | .nothing   => exact ⟨_, _, hm, hj⟩
  | .before _  => exact ⟨_, _, hm, hj⟩
  | .grown _ _ =>
    obtain ⟨k, hm⟩ := hm
    obtain ⟨k', hj⟩ := hj
    obtain ⟨hk, he⟩ := hm.ends k rfl
    obtain ⟨hk', he'⟩ := hj.ends k' rfl
    obtain rfl := hc.eq_of_end (hsub hk) hk' (he.trans he'.symm)
    exact ⟨_, _, hm, hj⟩

-- fsm_btree_free leaves no two chunks side by side exactly if it finds what it has to join.
theorem fsmBtreeFree_maximal_iff (h : btree.Sound) (hm : btree.Maximal) (hl : 1 ≤ length)
    (hd : ∀ key ∈ btree.keys, Disjoint key.blocks (Finset.Ico off (off + length))) :
    (fsmBtreeFree btree off length).Maximal ↔ btree.Coalesces off length := by
  have hc := h.clear hd hl
  match hr : btree.root with
  | none      =>
    obtain ⟨_, hk, _⟩ := fsmBtreeInsert_wf fsmBtreeCmpFn_compares (x := ⟨off, length⟩) h.wf
    have hk : (fsmBtreeFree btree off length).keys = [⟨off, length⟩] := by
      simpa [fsmBtreeFree, FsmBtree.keys, hr, insertKey] using hk
    refine iff_of_true ?_ (by simp [FsmBtree.Coalesces, hr])
    simpa [FsmBtree.Maximal, hk] using Nat.ne_of_gt hl
  | some root =>
    have hs := h.wf.shape root hr
    have hkeys : btree.keys = toList root.level root := by simp [FsmBtree.keys, hr]
    have hsub : lastKeys root.level root ⊆ btree.keys := hkeys ▸ lastKeys_subset hs
    have hmet := freeWalk_met btree.order_ge hs (hkeys ▸ hc)
    obtain ⟨prev, next, hmet, hjoined⟩ := hmet.and (fsmBtreeFree_joined h hc hr) hc hsub
    rw [FsmBtree.Maximal, hjoined.maximal_iff hc hl hm, hmet.coalesces_iff hc hsub]
    simp [FsmBtree.Coalesces, hr]

theorem fsmBtreeFree_maximal_iff_threeChunks : (fsmBtreeFree threeChunks 10 2).Maximal ↔
    threeChunks.Coalesces 10 2 :=
  fsmBtreeFree_maximal_iff threeChunks_sound (by decide) (by decide) (by decide)

-- A tree of the driver's order.
def sixtyThreeChunks : FsmBtree FsmBtreeKey where
  order    := 32
  order_ge := by decide
  root     := some (mk 1 .index [⟨320, 1⟩] [
    mk 0 .leaf ((List.range 31).map fun i => ⟨10 * i + 10, 1⟩) [],
    mk 0 .leaf ((List.range 31).map fun i => ⟨10 * i + 330, 1⟩) []])

-- The chunk before the freed block is in the first leaf, where nobody looks for it.
theorem not_coalesced : sixtyThreeChunks.Sound ∧ sixtyThreeChunks.Maximal ∧
    (∀ key ∈ sixtyThreeChunks.keys, Disjoint key.blocks (Finset.Ico 11 (11 + 1))) ∧
    ¬(fsmBtreeFree sixtyThreeChunks 11 1).Maximal := by
  refine ⟨?_, by decide +kernel, by decide +kernel, fun hm => ?_⟩
  · refine FsmBtree.sound_iff.mpr ⟨?_, by decide +kernel, by decide +kernel⟩
    rintro _ ⟨⟩
    refine .index (by decide) (by decide) rfl ?_
    simp only [List.forall_mem_cons, List.not_mem_nil, false_implies, implies_true, and_true]
    exact ⟨.leaf (by decide) (by decide), .leaf (by decide) (by decide)⟩
  · exact hm ⟨10, 1⟩ (by decide +kernel) ⟨11, 1⟩ (by decide +kernel) rfl

end Coalescing

end Emmcfs
