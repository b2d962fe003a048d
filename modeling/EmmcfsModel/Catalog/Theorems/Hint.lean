import EmmcfsModel.Catalog.Hint
import EmmcfsModel.Catalog.Theorems.Readdir
import EmmcfsModel.Btree.Theorems.Search

namespace Emmcfs

open Code KeyOrder Search

section Ties

variable {fold : BitVec 8 → BitVec 8} {a b k q r : CattreeKey}

-- Ids that are apart by a multiple of the range compare alike with all others.
theorem parentCmp_congr {x y z : BitVec 64} (h : parentCmp x y = 0) :
    parentCmp z y = parentCmp z x ∧ parentCmp y x = 0 := by
  simp only [parentCmp, wrapped, Int.bmod_def] at *
  norm_num at *
  omega

theorem cattreeCmp_of_ne (h : a.parentId ≠ b.parentId) :
    cattreeCmp fold a b = parentCmp a.parentId b.parentId := by
  rw [cattreeCmp_eq_pairCmp]
  exact if_pos h

theorem cattreeCmp_of_eq (h : a.parentId = b.parentId) :
    cattreeCmp fold a b = lexCmp byteCmp (a.name.map fold) (b.name.map fold) := by
  rw [cattreeCmp_eq_pairCmp]
  exact if_neg (not_not.mpr h)

theorem cattreeCmp_eq_zero_comm : cattreeCmp fold a b = 0 ↔ cattreeCmp fold b a = 0 := by
  by_cases h : a.parentId = b.parentId
  case pos =>
    rw [cattreeCmp_of_eq h, cattreeCmp_of_eq h.symm, lexCmp_eq_zero_iff byteCmp_eq_zero_iff,
      lexCmp_eq_zero_iff byteCmp_eq_zero_iff, eq_comm]
  case neg =>
    rw [cattreeCmp_of_ne h, cattreeCmp_of_ne (Ne.symm h)]
    exact ⟨fun he => (parentCmp_congr (z := 0) he).right, fun he => (parentCmp_congr (z := 0) he).right⟩

theorem cattreeCmp_ne_zero {keys : List CattreeKey} (hs : keys.Pairwise (cattreeCmp fold · · < 0))
    (ha : a ∈ keys) (hb : b ∈ keys) (hne : a ≠ b) : cattreeCmp fold a b ≠ 0 :=
  have hne' : keys.Pairwise (cattreeCmp fold · · ≠ 0) := hs.imp fun h => h.ne
  have : Std.Symm (cattreeCmp fold · · ≠ 0) := ⟨fun _ _ h he => h (cattreeCmp_eq_zero_comm.mp he)⟩
  hne'.forall ha hb hne

-- No two of the keys are each below the other.
def CattreeKey.Asymmetric (fold : BitVec 8 → BitVec 8) (s : Set CattreeKey) : Prop :=
  ∀ a ∈ s, ∀ b ∈ s, cattreeCmp fold a b < 0 → 0 < cattreeCmp fold b a

section Rising

variable {keys : List CattreeKey} (hs : keys.Pairwise (cattreeCmp fold · · < 0))
  (ha : CattreeKey.Asymmetric fold {a | a ∈ keys}) (hr : r ∈ keys) (hk : cattreeCmp fold r k = 0)
include hs ha hr

-- How the keys compare with one of them tells on which side they are.
theorem rising_self : Rising (cattreeCmp fold · r) keys := by
  obtain ⟨m, hm, rfl⟩ := List.getElem_of_mem hr
  have hlt := List.pairwise_iff_getElem.mp hs
  have hgt : ∀ i j, (hi : i < keys.length) → (hj : j < keys.length) → i < j →
      0 < cattreeCmp fold keys[j] keys[i] := fun i j hi hj h =>
    ha _ (List.getElem_mem hi) _ (List.getElem_mem hj) (hlt i j hi hj h)
  refine List.pairwise_iff_getElem.mpr fun i j hi hj hij => ⟨fun h => ?_, fun h => ?_⟩
  all_goals dsimp only at h ⊢
  case refine_1 =>
    rcases Nat.lt_trichotomy i m with him | rfl | him
    · have := hlt i m hi hm him
      omega
    · rw [cattreeCmp_self] at h
      omega
    · exact hgt m j hm hj (by omega)
  case refine_2 =>
    rcases Nat.lt_trichotomy j m with hjm | rfl | hjm
    · exact hlt i m hi hm (by omega)
    · rw [cattreeCmp_self] at h
      omega
    · have := hgt m j hm hj hjm
      omega

include hk

-- The same for another key that compares equal to one of them: the keys of that folder may compare
-- equal too.
theorem rising_of_tie : Rising (cattreeCmp fold · k) keys := by
  have hself := rising_self hs ha hr
  by_cases hp : r.parentId = k.parentId
  case pos =>
    have hname : r.name.map fold = k.name.map fold := by
      rwa [cattreeCmp_of_eq hp, lexCmp_eq_zero_iff byteCmp_eq_zero_iff] at hk
    have he : (cattreeCmp fold · k) = (cattreeCmp fold · r) := by
      funext q
      rw [cattreeCmp_eq_pairCmp, cattreeCmp_eq_pairCmp, CattreeKey.folded, CattreeKey.folded,
        CattreeKey.folded, hp, hname]
    rwa [he]
  case neg =>
    rw [cattreeCmp_of_ne hp] at hk
    have hcmp : ∀ q ∈ keys, cattreeCmp fold q k =
        if q.parentId = r.parentId then 0 else cattreeCmp fold q r := by
      intro q hq
      have hqk : q.parentId ≠ k.parentId := by
        intro he
        have hqr : q.parentId ≠ r.parentId := fun h => hp (h.symm.trans he)
        refine cattreeCmp_ne_zero hs hq hr (fun h => hqr (congrArg _ h)) ?_
        rw [cattreeCmp_of_ne hqr, he]
        exact (parentCmp_congr (z := 0) hk).right
      rw [cattreeCmp_of_ne hqk, (parentCmp_congr hk).left]
      split
      case isTrue he  => simp [he, wrapped]
      case isFalse hn => rw [cattreeCmp_of_ne hn]
    refine (hself.and hs).imp_of_mem fun {a b} hma hmb hand => ?_
    obtain ⟨hself, hab⟩ := hand
    have hba := ha a hma b hmb hab
    dsimp only at hself ⊢
    rw [hcmp a hma, hcmp b hmb]
    by_cases hpa : a.parentId = r.parentId
    case pos =>
      rw [if_pos hpa]
      by_cases hpb : b.parentId = r.parentId
      case pos => rw [if_pos hpb]; omega
      case neg =>
        rw [cattreeCmp_congr_parent hpa hpb] at hba
        rw [if_neg hpb]
        omega
    case neg =>
      rw [if_neg hpa]
      by_cases hpb : b.parentId = r.parentId
      case neg => rwa [if_neg hpb]
      case pos =>
        rw [cattreeCmp_congr_parent hpb hpa] at hab
        rw [if_pos hpb]
        omega

end Rising

end Ties

section Lookup

variable {fold : BitVec 8 → BitVec 8} {tree : BtreeOps CattreeKey} {s : Btree CattreeKey ν}
  {leaves : List Nat} {up : List (List Nat)} {recs : List (BtreeRecord CattreeKey ν)}
  {key : CattreeKey} {hint : BnodeHint} {i pos : Nat}

theorem Btree.Levels.index_typed {κ : Type} {tree : BtreeOps κ} {s : Btree κ ν}
    {recs : List (BtreeRecord κ ν)} (hl : s.Levels tree .index up recs) :
    ∀ id ∈ up.flatten, (s.bnode id).type = .index := by
  induction up generalizing recs
  case nil => exact fun _ h => nomatch h
  case cons ids up ih =>
    intro id hid
    cases List.mem_append.mp hid
    case inl hid => exact hl.left.typed id hid
    case inr hid => exact ih hl.right id hid

namespace Btree.Catalog

variable (h : s.Catalog tree leaves up recs)
include h

theorem mem_leaves (hl : s.Live i) (ht : (s.bnode i).type = .leaf) : i ∈ leaves := by
  cases List.mem_append.mp (h.inUse i hl)
  case inl hm => exact hm
  case inr hm => rw [h.upper.shape.right.index_typed i hm] at ht; cases ht

theorem mem_recs (hi : i ∈ leaves) (hr : (s.bnode i).recs[pos]? = some r) : r ∈ recs :=
  h.upper.shape.left.records ▸ List.mem_flatMap.mpr ⟨i, hi, List.mem_of_getElem? hr⟩

-- A record that the hint names is a record of the tree.
theorem wp_hintedRecord : wp (CatalogInode.hintedRecord hint)
    (fun found s' => s' = s ∧ ∀ r, found = some r → hint.bnodeId ∈ leaves ∧
      (s.bnode hint.bnodeId).recs[hint.pos.toNat]? = some r) (fun _ _ => False) False s := by
  rw [CatalogInode.hintedRecord, wp_ite]
  refine ⟨fun _ => ⟨rfl, nofun⟩, fun hset => ?_⟩
  rw [wp_bind, wp_onFail, wp_bind]
  by_cases hlive : s.Live hint.bnodeId
  case neg =>
    have hbit : hint.bnodeId ≠ 0 ∧ (!s.bitmap.testBit hint.bnodeId) = true := by
      have h0 : hint.bnodeId ≠ 0 := fun h => hset (.inl h)
      exact ⟨h0, by simpa using fun hb => hlive ⟨h0, hb⟩⟩
    rw [getBnode, wp_bind, wp_get, if_pos hbit]
    exact ⟨rfl, nofun⟩
  case pos =>
    rw [wp_getBnode h.calm hlive, wp_pure]
    change wp (if _ then _ else _) ..
    rw [wp_ite]
    refine ⟨fun _ => ⟨rfl, nofun⟩, fun hleaf => ?_⟩
    rw [not_or, not_not] at hleaf
    have hlt : hint.pos.toNat < (s.bnode hint.bnodeId).recs.length := by omega
    rw [wp_bind, wp_getRecord (List.getElem?_eq_getElem hlt), wp_pure]
    refine ⟨rfl, fun r hr => ⟨h.mem_leaves hlive hleaf.left, ?_⟩⟩
    rw [← Option.some.inj hr]
    exact List.getElem?_eq_getElem hlt

-- A search ends at a record of a leaf, and at a match if there is one.
theorem wp_find (hcmp : tree.compFn = cattreeCmp fold)
    (ha : CattreeKey.Asymmetric fold {k | ∃ r ∈ recs, r.key = k}) : wp (emmcfsBtreeFind tree key)
    (fun p s' => s' = s ∧ p.1 ∈ leaves ∧ ∃ r, (s.bnode p.1).recs[p.2]? = some r ∧
      ∀ q ∈ recs, tree.compFn q.key key = 0 → tree.compFn r.key key = 0) (fun _ _ => False) False s := by
  by_cases hm : ∃ q ∈ recs, tree.compFn q.key key = 0
  case neg =>
    simp only [not_exists, not_and] at hm
    refine wp_imp (emmcfsBtreeFind_leaf h.upper h.calm fun id hid => searchable_of_no_match
      (h.upper.shape.forall_key (P := fun k => tree.compFn k key ≠ 0) hm id hid) (h.upper.shape.live_and_fits id hid).right.nonempty) ?_
    rintro ⟨id, pos⟩ _ ⟨rfl, hid, hlt⟩
    exact ⟨rfl, hid, _, List.getElem?_eq_getElem hlt, fun q hq he => absurd he (hm q hq)⟩
  case pos =>
    obtain ⟨q, hq, he⟩ := hm
    have hrise : Rising (tree.against key) recs := by
      have hsorted := h.sorted
      simp only [hcmp] at hsorted he
      have hkeys : (recs.map (·.key)).Pairwise (cattreeCmp fold · · < 0) := List.pairwise_map.mpr hsorted
      have htie := rising_of_tie hkeys (by simpa using ha) (List.mem_map_of_mem hq) he
      simp only [Rising, BtreeOps.against, hcmp]
      exact List.pairwise_map.mp htie
    obtain ⟨id, pos, hok, k, path, hf⟩ := emmcfsBtreeFind_returns h.upper hrise h.calm
    obtain ⟨as, r, bs, rfl, rfl, _⟩ := hf.ends.exists_append
    have hr : (s.bnode id).recs[pos]? = some r := by
      rw [← hf.node]
      simp
    have hid : id ∈ leaves := by
      obtain ⟨_, _, _, _, _, rfl, hpath, _⟩ := hf.path
      cases hpath
      simp
    rw [wp_of_ok hok]
    exact ⟨rfl, hid, r, hr, fun q hq he => hf.ends.eq_zero (c := tree.against key) hrise hq he⟩

-- The lookup from `find` on.
theorem wp_findRecord (hcmp : tree.compFn = cattreeCmp fold)
    (ha : CattreeKey.Asymmetric fold {k | ∃ r ∈ recs, r.key = k}) :
    wp (CatalogInode.findRecord tree key)
      (fun p s' => s'.btree = s ∧ p.1 ∈ leaves ∧
        ∃ r ∈ recs, (s.bnode p.1).recs[p.2]? = some r ∧ tree.compFn key r.key = 0)
      (fun e s' => s'.btree = s ∧ e = .enoent ∧ ∀ r ∈ recs, tree.compFn key r.key ≠ 0)
      False ⟨s, hint⟩ := by
  have hcomm : ∀ k, tree.compFn k key = 0 ↔ tree.compFn key k = 0 := by
    intro k
    rw [hcmp]
    exact cattreeCmp_eq_zero_comm
  rw [CatalogInode.findRecord, wp_bind, CatalogInode.onTree, wp_zoom, bugOnError, wp_onFail]
  refine wp_mono (h.wp_find hcmp ha) ?_ (fun _ _ => False.elim) id
  rintro ⟨id, pos⟩ _ ⟨rfl, hid, r, hr, hmatch⟩
  rw [wp_bind, CatalogInode.onTree, wp_zoom, wp_bnodeAt, wp_bind, CatalogInode.onTree, wp_zoom,
    wp_getRecord hr, wp_ite]
  refine ⟨fun hne => ⟨rfl, rfl, fun q hq he => hne ?_⟩, fun he => ⟨rfl, hid, r, h.mem_recs hid hr, hr, ?_⟩⟩
  · exact (hcomm _).mp (hmatch q hq ((hcomm _).mpr he))
  · exact not_not.mp he

theorem answers (hcmp : tree.compFn = cattreeCmp fold)
    (ha : CattreeKey.Asymmetric fold {k | ∃ r ∈ recs, r.key = k}) :
    CatalogInode.Answers tree ⟨s, hint⟩ leaves recs key := by
  have hfind : wp (CatalogInode.findRecord tree key) _ _ False ⟨s, hint⟩ :=
    h.wp_findRecord hcmp ha
  rw [CatalogInode.Answers, CatalogInode.getFromCattree, wp_bind, CatalogInode.onTree, wp_zoom, kmalloc,
    wp_onFail, wp_request_of h.calm, wp_bind, wp_get, wp_bind, CatalogInode.onTree, wp_zoom]
  refine wp_mono h.wp_hintedRecord ?_ (fun _ _ => False.elim) id
  rintro found _ ⟨rfl, hfound⟩
  cases found
  case none => exact hfind
  case some r =>
    obtain ⟨hid, hr⟩ := hfound r rfl
    change wp (if _ then _ else _) ..
    rw [wp_ite]
    exact ⟨fun he => ⟨rfl, hid, r, h.mem_recs hid hr, hr, he⟩, fun _ => hfind⟩

end Btree.Catalog

end Lookup

section Pair

variable {m c : Bool} {l : Fin 5} {ν : Type} [Inhabited ν] {a b : CattreeKey}

theorem catTree_compFn : (catTree m c l).compFn = cattreeCmp (if c then tolower else id) := by
  cases c <;> rfl

theorem CattreeKey.keyLen_le (key : CattreeKey) : key.keyLen ≤ 282 := by
  have := key.name_length_le
  simp only [keyLen, sizeofCattreeKey, sizeofUnicodeString, catMaxName] at *
  omega

def keyRecord (key : CattreeKey) : BtreeRecord CattreeKey ν :=
  ⟨key, key.keyLen, .data default⟩

-- A tree of one leaf with two records.
def pairTree (tree : BtreeOps CattreeKey) (a b : CattreeKey) : Btree CattreeKey ν where
  bnodes      := [(1, ⟨.leaf, [keyRecord a, keyRecord b],
    tree.capacity - usedSpace [keyRecord (ν := ν) a, keyRecord b], 0, 0⟩)]
  bitmap      := 2 ^ 2 - 1
  firstFreeId := 2
  freeNum     := tree.bitsNum - 2
  rootBnodeId := 1
  btreeHeight := 1

theorem live_pairTree {tree : BtreeOps CattreeKey} :
    (pairTree (ν := ν) tree a b).Live (pairTree (ν := ν) tree a b).rootBnodeId :=
  ⟨Nat.one_ne_zero, show (2 ^ 2 - 1).testBit 1 = true by decide⟩

theorem short_keyRecord (key : CattreeKey) : (keyRecord (ν := ν) key).Short (catTree m c l) := by
  have h := key.keyLen_le
  have hm : (catTree m c l).maxRecordLen = 479 := rfl
  exact ⟨by rw [hm]; exact h.trans (by decide), by rw [hm]; exact (Nat.add_le_add_right h _).trans (by decide)⟩

theorem two_le_bitsNum (l : Fin 5) : 2 ≤ (catTree m c l).bitsNum := by
  have hge := (catTree m c l).node_size_ge
  change 2 ≤ 8 * ((catTree m c l).nodeSizeBytes - sizeofBtreeHead - bnodeFirstOffset)
  simp only [sizeofBtreeHead, bnodeFirstOffset]
  omega

theorem catalog_pairTree (h : (catTree m c l).compFn a b < 0) :
    (pairTree (ν := ν) (catTree m c l) a b).Catalog (catTree m c l) [1] [] [keyRecord a, keyRecord b] where
  upper  := {
    shape  := by
      refine ⟨⟨?_, ?_, ?_, ⟨rfl, rfl, trivial⟩, rfl⟩, _, rfl, rfl⟩
      all_goals rw [List.forall_mem_singleton]
      case refine_1 => exact live_pairTree
      case refine_3 => rfl
      case refine_2 =>
        refine ⟨by simp [pairTree, Btree.bnode, Table.get], Nat.sub_add_cancel ?_, ?_⟩
        · have := (catTree m c l).capacity_eq
          have := (catTree m c l).node_size_ge
          have := a.keyLen_le
          have := b.keyLen_le
          simp only [usedSpace_cons, usedSpace_nil, keyRecord, sizeofBtOff]
          omega
        · exact List.forall_mem_cons.mpr ⟨short_keyRecord a, List.forall_mem_singleton.mpr (short_keyRecord b)⟩
    nodup  := by decide
    bitmap := .of_ones (k := 2) (by decide) rfl rfl (Nat.sub_add_cancel (two_le_bitsNum l))
    height := rfl }
  sorted := List.pairwise_pair.mpr h
  inUse  := fun id hl => by
    have hbit : (2 ^ 2 - 1).testBit id = true := hl.used
    have hne := hl.ne_zero
    rw [Nat.testBit_two_pow_sub_one, decide_eq_true_eq] at hbit
    obtain rfl : id = 1 := by omega
    simp
  calm   := rfl

-- The second record stops the search if it compares below the first.
theorem not_answers_pairTree (h : (catTree m c l).compFn b a < 0) (hne : (catTree m c l).compFn a b ≠ 0) :
    ¬CatalogInode.Answers (ν := ν) (catTree m c l) ⟨pairTree (catTree m c l) a b, ⟨0, -1⟩⟩ [1]
      [keyRecord a, keyRecord b] a := by
  have hcalm : (pairTree (ν := ν) (catTree m c l) a b).Calm := rfl
  have hsearch : searchBnode (catTree m c l)
      ((pairTree (ν := ν) (catTree m c l) a b).bnode (pairTree (ν := ν) (catTree m c l) a b).rootBnodeId).recs
      a = some 1 := if_pos h
  have hfind : wp (emmcfsBtreeFind (catTree m c l) a)
      (fun p s' => p = (1, 1) ∧ s' = pairTree (catTree m c l) a b) (fun _ _ => False) False
      (pairTree (ν := ν) (catTree m c l) a b) := by
    rw [emmcfsBtreeFind, wp_bind, btreeFindLevel, wp_bind, wp_get, wp_bind]
    change wp (btreeFind (catTree m c l) a (0 + 1)) _ _ _ _
    rw [btreeFind, wp_bind, btreeFind, wp_pure, wp_bind, nextBnode, wp_bind, wp_get, wp_bind,
      wp_getBnode hcalm live_pairTree, wp_pure, wp_bind, findInBnode, wp_bind, wp_bnodeAt]
    change wp (if [keyRecord a, keyRecord b] = [] then _ else _) _ _ _ _
    rw [if_neg (by simp)]
    rw [hsearch]
    exact ⟨rfl, rfl⟩
  have hrun : wp (CatalogInode.getFromCattree (catTree m c l) a) (fun _ _ => False) (fun _ _ => True)
      False ⟨pairTree (ν := ν) (catTree m c l) a b, ⟨0, -1⟩⟩ := by
    rw [CatalogInode.getFromCattree, wp_bind, CatalogInode.onTree, wp_zoom, kmalloc, wp_onFail,
      wp_request_of hcalm, wp_bind, wp_get, wp_bind, CatalogInode.onTree, wp_zoom,
      CatalogInode.hintedRecord, if_pos (.inl rfl), wp_pure]
    change wp (CatalogInode.findRecord (catTree m c l) a) _ _ _ _
    rw [CatalogInode.findRecord, wp_bind, CatalogInode.onTree, wp_zoom, bugOnError, wp_onFail]
    refine wp_mono hfind ?_ (fun _ _ => False.elim) id
    rintro _ _ ⟨rfl, rfl⟩
    change wp (if (catTree m c l).compFn a b ≠ 0 then _ else _) _ _ _ _
    rw [if_pos hne]
    trivial
  intro hans
  have hboth := wp_and hans hrun
  unfold wp at hboth
  split at hboth
  · exact hboth.right
  · refine hboth.left.right.right (keyRecord a) (by simp) ?_
    rw [catTree_compFn]
    exact cattreeCmp_self
  · exact hboth.left

-- The names "C" and "é" in one folder: the file "C" is not found.
def plainKey : CattreeKey := ⟨1, [0x43], by decide⟩
def accentKey : CattreeKey := ⟨1, [0xc3, 0xa9], by decide⟩

end Pair

end Emmcfs
